import Stencil.Number.Decimal
import Stencil.Number.Rounding
import Stencil.Number.Scaled

/-!
# Numbers

A number is an integer of 64 bits or a float. Arithmetic stays in the integers as long as the
result is one; an integer and a float meet in scaled decimals.
-/

namespace Stencil

inductive Number where
  | integer (n : Int64)
  | float (x : Float)

inductive Arith where
  | add
  | sub
  | mul
  | div
  | rem
deriving DecidableEq

namespace Arith

def onFloats : Arith → Float → Float → Float
  | add, x, y => x + y
  | sub, x, y => x - y
  | mul, x, y => x * y
  | div, x, y => x / y
  | rem, x, y => Binary.remainder x y

/-- The exact result on integers. A remainder belongs to a quotient of 64 bits. -/
def onIntegers? : Arith → Int → Int → Option Int64
  | add, a, b => int64? (a + b)
  | sub, a, b => int64? (a - b)
  | mul, a, b => int64? (a * b)
  | div, a, b => if a.tmod b = 0 then int64? (a.tdiv b) else none
  | rem, a, b => do
    let _ ← int64? (a.tdiv b)
    int64? (a.tmod b)

def onScaled? : Arith → Scaled → Scaled → Option Scaled
  | add => Scaled.add?
  | sub => Scaled.sub?
  | mul => Scaled.mul?
  | div => Scaled.div?
  | rem => Scaled.rem?

/-- Whether the second operand divides. -/
def divides : Arith → Bool
  | div | rem => true
  | _ => false

end Arith

namespace Number

def toFloat : Number → Float
  | integer n => Binary.ofInt n.toInt
  | float x => x

/-- The number without its fraction, the nearest end of the range beyond it, and zero for NaN. -/
def toInt64 : Number → Int64
  | integer n => n
  | float x => x.toModel.toInt64

def isIntegral : Number → Bool
  | integer _ => true
  | float x => x.isFinite && Rounding.down.onFloat x == x

/-- The decimal for a number, where there is one. -/
def toScaled? : Number → Option Scaled
  | integer n => some (Scaled.ofInt n.toInt)
  | float x => Scaled.ofFloat? x

/-- A decimal as a number: an integer if it is whole and fits. -/
def ofScaled (d : Scaled) : Number :=
  match d.toInt?.bind int64? with
  | some n => integer n
  | none => float d.toFloat

/-- An integer written without a point, or a decimal fraction written with one. Blanks around it
are allowed. -/
def ofText? (s : String) : Option Number :=
  let cs := Text.strip s.toList
  if cs.contains '.' then (Decimal.read? cs).map fun d => float d.toFloat
  else (Decimal.readInt? cs).bind fun n => (int64? n).map integer

def compareFloats (x y : Float) : Option Ordering :=
  if x < y then some .lt
  else if x == y then some .eq
  else if y < x then some .gt
  else none

/-- Integers compare exactly, and all else as floats; nothing compares with NaN. -/
def compare? : Number → Number → Option Ordering
  | integer a, integer b => some (compare a.toInt b.toInt)
  | a, b => compareFloats a.toFloat b.toFloat

def onFloats (op : Arith) (a b : Number) : Number :=
  float (op.onFloats a.toFloat b.toFloat)

def onScaled? (op : Arith) (a b : Number) : Option Number := do
  let d ← op.onScaled? (← a.toScaled?) (← b.toScaled?)
  some (ofScaled d)

/-- The result of an operation, or nothing for a division by zero. -/
def arith? (op : Arith) (a b : Number) : Option Number :=
  if op.divides && b.toFloat == 0.0 then none
  else
    some <| match a, b with
      | integer m, integer n => ((op.onIntegers? m.toInt n.toInt).map integer).getD (onFloats op a b)
      | float _, float _ => onFloats op a b
      | _, _ => (onScaled? op a b).getD (onFloats op a b)

def negate : Number → Number
  | integer n => ((int64? (-n.toInt)).map integer).getD (float (-Binary.ofInt n.toInt))
  | float x => float (-x)

def abs : Number → Number
  | integer n => ((int64? n.toInt.natAbs).map integer).getD (float (Binary.ofInt n.toInt).abs)
  | float x => float x.abs

/-- A float rounded to a whole number, as an integer if it is in range. -/
def rounded (rounding : Rounding) : Number → Number
  | integer n => integer n
  | float x =>
    let y := rounding.onFloat x
    if y.isFinite && Binary.ofInt Int64.minValue.toInt ≤ y &&
        y ≤ Binary.ofInt Int64.maxValue.toInt then
      integer (float y).toInt64
    else float y

/-- The remainder with the sign of the dividend, or nothing for a division by zero. -/
def modulo? (a b : Number) : Option Number :=
  match a, b with
  | integer m, integer n => if n = 0 then none else (int64? (m.toInt.tmod n.toInt)).map integer
  | _, _ =>
    if b.toFloat == 0.0 then none else some (float (Binary.remainder a.toFloat b.toFloat))

/-- A power of integers that fits in 64 bits. Only 0, 1 and -1 have such powers beyond the 63rd. -/
def integerPower? (b e : Int) : Option Int64 :=
  if e < 0 ∨ Int.pow 2 32 ≤ e then none
  else if b.natAbs ≤ 1 then int64? (Int.pow b (if e = 0 then 0 else 2 - (e % 2).toNat))
  else if 64 ≤ e then none
  else int64? (Int.pow b e.toNat)

def pow (a b : Number) : Number :=
  match a, b with
  | integer m, integer n =>
    ((integerPower? m.toInt n.toInt).map integer).getD (float (a.toFloat.pow b.toFloat))
  | _, _ => float (a.toFloat.pow b.toFloat)

end Number

end Stencil

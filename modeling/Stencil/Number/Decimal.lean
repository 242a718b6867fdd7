import Stencil.Number.Binary
import Stencil.Text.Blank
import Stencil.Text.Run

/-!
# Decimal numerals

Reading whole numbers of 64 bits and decimal fractions from text. A fraction becomes the float
nearest to it.
-/

namespace Stencil

/-- A whole number as a 64 bit integer, if it is one. -/
def int64? (n : Int) : Option Int64 :=
  if -9223372036854775808 ≤ n ∧ n ≤ 9223372036854775807 then some (Int64.ofInt n) else none

/-- The number `± digits * 10 ^ exponent`. -/
structure Decimal where
  negative : Bool
  digits : Nat
  exponent : Int
deriving DecidableEq

namespace Decimal

def digitValue (c : Char) : Nat :=
  c.toNat - '0'.toNat

/-- The number that a row of digits writes. -/
def ofDigits (cs : List Char) : Nat :=
  cs.foldl (fun n c => 10 * n + digitValue c) 0

/-- Beyond these powers of ten a number is infinite or zero whatever its digits are. -/
def largestLead : Int := 310
def smallestLead : Int := -330

def magnitude (d : Decimal) : Float :=
  let lead := d.exponent + (d.digits.log2 * 30103 / 100000 : Nat)
  if d.digits = 0 ∨ lead < smallestLead then 0.0
  else if largestLead < lead then 1.0 / 0.0
  else if 0 ≤ d.exponent then Binary.nearest (d.digits * Nat.pow 10 d.exponent.toNat) 1
  else Binary.nearest d.digits (Nat.pow 10 (-d.exponent).toNat)

/-- The nearest float. -/
def toFloat (d : Decimal) : Float :=
  if d.negative then -d.magnitude else d.magnitude

/-- The sign in front of a numeral, and the rest of it. -/
def sign (cs : List Char) : Bool × List Char :=
  match cs with
  | '-' :: rest => (true, rest)
  | '+' :: rest => (false, rest)
  | _ => (false, cs)

/-- A signed row of digits, and nothing else. -/
def readInt? (cs : List Char) : Option Int :=
  let (negative, ds) := sign cs
  if ds.isEmpty || !ds.all Char.isDigit then none
  else some (if negative then -ofDigits ds else ofDigits ds)

/-- The power of ten after the digits: nothing, or `e` and a whole number. -/
def readExponent? (cs : List Char) : Option Int :=
  match cs with
  | [] => some 0
  | c :: rest => if c = 'e' ∨ c = 'E' then readInt? rest else none

/-- Digits with at most one point among them, then perhaps an exponent. -/
def read? (cs : List Char) : Option Decimal :=
  let (negative, cs) := sign cs
  let (whole, cs) := Text.run Char.isDigit cs
  let (fraction, cs) := match cs with
    | '.' :: rest => Text.run Char.isDigit rest
    | _ => ([], cs)
  if whole.isEmpty && fraction.isEmpty then none
  else
    (readExponent? cs).map fun e =>
      ⟨negative, ofDigits (whole ++ fraction), e - fraction.length⟩

end Decimal

end Stencil

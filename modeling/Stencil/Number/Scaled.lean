import Stencil.Number.Binary

/-!
# Scaled decimals

Decimals with a mantissa of 96 bits and at most 28 places. Sums, products, quotients and
remainders are exact where they fit, and rounded once to the most places that fit otherwise.
A float enters as a decimal of about 16 digits, so that `0.1` enters as one tenth.
-/

namespace Stencil

/-- The number `unscaled / 10 ^ scale`. -/
structure Scaled where
  unscaled : Int
  scale : Nat
deriving DecidableEq

namespace Scaled

def maxScale : Nat := 28

def fits (m : Nat) : Bool :=
  m < Nat.pow 2 96

/-- A mantissa with a sign. -/
def signed (negative : Bool) (m : Nat) (scale : Nat) : Scaled :=
  ⟨if negative then -m else m, scale⟩

def ofInt (n : Int) : Scaled :=
  ⟨n, 0⟩

/-! In the first two steps the number is `m * 10 ^ t * 5 ^ f`, with `f` counting down. -/

/-- Removes `f` factors five by doubling the other factor two out, or by multiplying. -/
def spreadFives : Nat → Nat → Int → Nat × Int
  | 0, m, t => (m, t)
  | f + 1, m, t =>
    if m % 2 = 0 then spreadFives f (m / 2) (t + 1)
    else if fits (m * 5) then spreadFives f (m * 5) t
    else spreadFives f (m / 2) (t + 1)

/-- Removes `f` divisions by five: by doubling while there is room, then by dividing. -/
def absorbFives : Nat → Nat → Int → Option (Nat × Int)
  | 0, m, t => some (m, t)
  | f + 1, m, t =>
    if m < Nat.pow 2 95 then absorbFives f (m * 2) (t - 1)
    else if (f : Int) + 1 < t * 2 then none
    else absorbFives f (m / 5) t

/-- Multiplies `t` powers of ten into the mantissa. -/
def expand : Nat → Nat → Option Nat
  | 0, m => some m
  | t + 1, m => if fits (m * 10) then expand t (m * 10) else none

def dropDigit (m : Nat) : Nat :=
  m / 10 + (if 5 ≤ m % 10 then 1 else 0)

/-- Drops places until `maxScale` are left. Nothing is left of a number without other digits. -/
def cutPlaces : Nat → Nat → Nat → Nat × Nat
  | 0, m, s => (m, s)
  | n + 1, m, s => if m / 10 = 0 then (0, 0) else cutPlaces n (dropDigit m) (s - 1)

/-- Drops places while the mantissa has more than 52 bits. -/
def cutDigits : Nat → Nat → Nat × Nat
  | 0, m => (m, 0)
  | s + 1, m => if Nat.pow 2 52 ≤ m then cutDigits s (dropDigit m) else (m, s + 1)

def dropZeros : Nat → Nat → Nat × Nat
  | 0, m => (m, 0)
  | s + 1, m => if m % 10 = 0 then dropZeros s (m / 10) else (m, s + 1)

/-- The mantissa and the places of a positive float. -/
def ofBinary? (b : Binary) : Option (Nat × Nat) := do
  let (m, t) ←
    if b.exponent ≤ 0 then some (spreadFives (-b.exponent).toNat b.mantissa b.exponent)
    else absorbFives b.exponent.toNat b.mantissa b.exponent
  let m ← expand t.toNat m
  let (m, s) := cutPlaces ((-t).toNat - maxScale) m (-t).toNat
  let (m, s) := cutDigits s m
  some (dropZeros s m)

/-- The decimal for a float; there is none for numbers too large and for those not finite. -/
def ofFloat? (x : Float) : Option Scaled := do
  let b ← Binary.ofFloat? x
  if b.mantissa = 0 then some ⟨0, 0⟩
  else
    let (m, s) ← ofBinary? b
    some (signed b.negative m s)

/-- The ratio `num / den` at the most places, up to `places`, that leave its mantissa in 96 bits. -/
def round? (num : Int) (den : Nat) : (places : Nat) → Option Scaled
  | 0 => at? num den 0
  | s + 1 => (at? num den (s + 1)).or (round? num den s)
where
  at? (num : Int) (den s : Nat) : Option Scaled :=
    let m := Binary.roundHalfEven (num.natAbs * Nat.pow 10 s) den
    if fits m then some (signed (num < 0) m s) else none

/-- The unscaled number at a scale not below its own. -/
def unscaledAt (a : Scaled) (scale : Nat) : Int :=
  a.unscaled * Int.pow 10 (scale - a.scale)

def common? (op : Int → Int → Int) (a b : Scaled) : Option Scaled :=
  let scale := max a.scale b.scale
  round? (op (a.unscaledAt scale) (b.unscaledAt scale)) (Nat.pow 10 scale) scale

def add? : Scaled → Scaled → Option Scaled :=
  common? (· + ·)

def sub? : Scaled → Scaled → Option Scaled :=
  common? (· - ·)

def mul? (a b : Scaled) : Option Scaled :=
  let scale := a.scale + b.scale
  round? (a.unscaled * b.unscaled) (Nat.pow 10 scale) (min scale maxScale)

/-! Digits are taken nine places at a time. A quotient that comes out ends at the first of these stops
and may have zeros behind its last digit; one that does not is rounded at the last place there is
room for. Of such zeros at most seven are removed, unless there are eight and the mantissa is a
multiple of `2 ^ 32`. The places that stay are those to which `toFloat` rounds. -/

/-- The ratio `num / den` at these places, if nothing is left over and its mantissa fits. -/
def quotientAt? (num : Int) (den places : Nat) : Option Scaled :=
  let m := num.natAbs * Nat.pow 10 places
  if m % den = 0 ∧ fits (m / den) then some (signed (num < 0) (m / den) places) else none

/-- The places at which a quotient can end, if its first digits have `first` places: every ninth.
Digits before the point are always written out. Seven stops are enough, as scales are at most 28
apart. -/
def quotientStops (first : Int) : List Nat :=
  (((List.range 7).map fun k : Nat => first + 9 * (k : Int)).filter (· ≤ (maxScale : Int))).map
    Int.toNat

/-- Removes the last `n` places if they are zeros. -/
def dropPlaces (n : Nat) (q : Nat × Nat) : Nat × Nat :=
  if n ≤ q.2 ∧ q.1 % Nat.pow 10 n = 0 then (q.1 / Nat.pow 10 n, q.2 - n) else q

/-- Removes zeros eight at a time while the last 32 bits are zero. -/
def dropEights : Nat → Nat → Nat × Nat
  | m, s + 8 =>
    if m % Nat.pow 2 32 = 0 ∧ m % Nat.pow 10 8 = 0 then dropEights (m / Nat.pow 10 8) s
    else (m, s + 8)
  | m, s => (m, s)

/-- The quotient with the places left when its last zeros are taken off in blocks, each size once
behind the eights. -/
def shorten (q : Scaled) : Scaled :=
  let kept := dropPlaces 1 (dropPlaces 2 (dropPlaces 4 (dropEights q.unscaled.natAbs q.scale)))
  signed (q.unscaled < 0) kept.1 kept.2

/-- The quotient; there is none by zero. -/
def div? (a b : Scaled) : Option Scaled :=
  if b.unscaled = 0 then none
  else
    let num := a.unscaled * Int.pow 10 b.scale * b.unscaled.sign
    let den := b.unscaled.natAbs * Nat.pow 10 a.scale
    let stopped := (quotientStops ((a.scale : Int) - b.scale)).findSome? (quotientAt? num den)
    (stopped.or (round? num den maxScale)).map shorten

/-- The remainder, with the sign of the dividend. -/
def rem? (a b : Scaled) : Option Scaled :=
  if b.unscaled = 0 then none else common? Int.tmod a b

/-- The whole number it is, if it is one. -/
def toInt? (a : Scaled) : Option Int :=
  if a.unscaled.tmod (Int.pow 10 a.scale) = 0 then some (a.unscaled.tdiv (Int.pow 10 a.scale))
  else none

/-- `10 ^ n` by repeated squaring. -/
def power : Nat → Nat → Float → Float → Float
  | 0, _, r, _ => r
  | fuel + 1, n, r, a =>
    let r := if n % 2 = 1 then r * a else r
    if n / 2 = 0 then r else power fuel (n / 2) r (a * a)

/-- A float near the number: whole part and fraction are converted apart, and their sum is rounded
to the places of the decimal. -/
def toFloat (a : Scaled) : Float :=
  let m := a.unscaled.natAbs
  let p := Nat.pow 10 a.scale
  let whole := Binary.nearest (m / p) 1
  let fraction := Binary.nearest (m % p) 1 / Binary.nearest p 1
  let unit := power a.scale a.scale 1.0 10.0
  let magnitude :=
    if m % p = 0 then whole else ((whole + fraction) * unit).round / unit
  if a.unscaled < 0 then -magnitude else magnitude

end Scaled

end Stencil

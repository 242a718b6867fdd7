/-!
# Binary floating point, taken apart

A finite float is a whole mantissa times a power of two. `Binary.ofFloat?` takes a float apart,
`Binary.nearest` goes from a ratio of natural numbers to the float nearest to it, a tie going to
the even mantissa.
-/

namespace Stencil

/-- The number `mantissa * 2 ^ exponent`, with a sign of its own so that zero has one too. -/
structure Binary where
  negative : Bool
  mantissa : Nat
  exponent : Int
deriving DecidableEq

namespace Binary

/-- The parts of a finite float: at most 53 bits of mantissa, and no exponent below `-1074`. -/
def ofFloat? (x : Float) : Option Binary :=
  let bits := x.toBits.toNat
  let negative := decide (Nat.pow 2 63 ≤ bits)
  let field := bits / Nat.pow 2 52 % Nat.pow 2 11
  let fraction := bits % Nat.pow 2 52
  if field = 2047 then none
  else if field = 0 then some ⟨negative, fraction, -1074⟩
  else some ⟨negative, Nat.pow 2 52 + fraction, Int.ofNat field - 1075⟩

/-- The quotient rounded to a whole number, a half going to the even neighbour. -/
def roundHalfEven (num den : Nat) : Nat :=
  let q := num / den
  let twice := 2 * (num % den)
  if twice < den then q
  else if den < twice then q + 1
  else q + q % 2

/-- The quotient `num / (den * 2 ^ e)`, rounded. -/
def scaledDown (num den : Nat) (e : Int) : Nat :=
  if 0 ≤ e then roundHalfEven num (den * Nat.pow 2 e.toNat)
  else roundHalfEven (num * Nat.pow 2 (-e).toNat) den

/-- The exponent that leaves a quotient with 53 bits before the point, or `-1074`. -/
def exponentFor (num den : Nat) : Int :=
  let e : Int := (num.log2 : Int) - den.log2 - 52
  let wide :=
    if 0 ≤ e then Nat.pow 2 52 * (den * Nat.pow 2 e.toNat) ≤ num
    else Nat.pow 2 52 * den ≤ num * Nat.pow 2 (-e).toNat
  max (if wide then e else e - 1) (-1074)

/-- The float nearest to `num / den`; beyond the largest one, infinity. -/
def nearest (num den : Nat) : Float :=
  if num = 0 then 0.0
  else
    let e := exponentFor num den
    let bits := (e + 1074).toNat * Nat.pow 2 52 + scaledDown num den e
    Float.ofBits (UInt64.ofNat (min bits (2047 * Nat.pow 2 52)))

/-- The float with these parts; exact when the mantissa has at most 53 bits. -/
def toFloat (b : Binary) : Float :=
  let magnitude :=
    if 0 ≤ b.exponent then nearest (b.mantissa * Nat.pow 2 b.exponent.toNat) 1
    else nearest b.mantissa (Nat.pow 2 (-b.exponent).toNat)
  if b.negative then -magnitude else magnitude

/-- The float nearest to a whole number. -/
def ofInt (n : Int) : Float :=
  toFloat ⟨decide (n < 0), n.natAbs, 0⟩

/-- The remainder of `x` by `y`, exact and with the sign of `x`. -/
def remainder (x y : Float) : Float :=
  match ofFloat? x, ofFloat? y with
  | some a, some b =>
    if b.mantissa = 0 then 0.0 / 0.0
    else
      let e := min a.exponent b.exponent
      let num := a.mantissa * Nat.pow 2 (a.exponent - e).toNat
      let den := b.mantissa * Nat.pow 2 (b.exponent - e).toNat
      toFloat ⟨a.negative, num % den, e⟩
  | some _, none => if y.isNaN then y else x
  | none, _ => 0.0 / 0.0

end Binary

end Stencil

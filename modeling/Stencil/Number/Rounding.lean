import Stencil.Number.Binary

/-!
# Rounding to whole numbers

A float is a mantissa times a power of two. It is whole if the exponent is not negative, and else
the quotient of its mantissa by a power of two is rounded. The result has the sign of the float,
also if it is zero.
-/

namespace Stencil

/-- Which whole number stands for a fraction. A half goes away from zero under `nearest`. -/
inductive Rounding where
  | down
  | up
  | nearest
deriving DecidableEq

namespace Rounding

/-- The quotient `num / den` rounded, as the magnitude of a number with this sign. -/
def quotient : Rounding → (negative : Bool) → (num den : Nat) → Nat
  | down, false, num, den | up, true, num, den => num / den
  | down, true, num, den | up, false, num, den => (num + (den - 1)) / den
  | nearest, _, num, den => (2 * num + den) / (2 * den)

/-- The float as a whole number; infinities and NaN stay what they are. -/
def onFloat (rounding : Rounding) (x : Float) : Float :=
  match Binary.ofFloat? x with
  | none => x
  | some b =>
    if 0 ≤ b.exponent then x
    else
      let den := Nat.pow 2 (-b.exponent).toNat
      Binary.toFloat ⟨b.negative, rounding.quotient b.negative b.mantissa den, 0⟩

end Rounding

end Stencil

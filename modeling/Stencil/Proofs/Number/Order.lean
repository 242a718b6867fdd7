import Stencil.Number.Arithmetic

/-!
# The order of numbers

Floats are ordered by sign, exponent and mantissa, and a NaN has no place in this order. Seen from
the other side an order is turned around, and two floats are equal exactly if neither comes first.
-/

namespace Stencil

open Float.Model (UnpackedFloat)

theorem compare_unpacked_swap (u v : UnpackedFloat) :
    v.compare u = (u.compare v).map Ordering.swap := by
  have hswap (m₁ m₂ : Nat) (e₁ e₂ : Int) : ((compare e₁ e₂).then (compare m₁ m₂)).swap =
      (compare e₂ e₁).then (compare m₂ m₁) := by
    rw [Ordering.swap_then, ← Std.OrientedCmp.eq_swap, ← Std.OrientedCmp.eq_swap]
  rcases u with (_ | _) | _ | (_ | _) | ⟨_ | _, m₁, e₁, hm₁⟩ <;>
    rcases v with (_ | _) | _ | (_ | _) | ⟨_ | _, m₂, e₂, hm₂⟩ <;>
    first
    | rfl
    | exact congrArg some (hswap ..).symm
    | exact congrArg (fun o => some o.swap) (hswap ..).symm

theorem float_beq_iff {x y : Float} :
    x == y ↔ x.toModel.unpack.compare y.toModel.unpack = some .eq := by
  change (_ == some Ordering.eq) = true ↔ _
  exact beq_iff_eq

theorem float_lt_iff {x y : Float} :
    x < y ↔ x.toModel.unpack.compare y.toModel.unpack = some .lt := by
  change decide (UnpackedFloat.lt _ _ = true) = true ↔ _
  rw [decide_eq_true_eq]
  exact beq_iff_eq

namespace Number

theorem compareFloats_eq (x y : Float) :
    compareFloats x y = x.toModel.unpack.compare y.toModel.unpack := by
  rw [compareFloats]
  simp only [float_lt_iff, float_beq_iff, compare_unpacked_swap x.toModel.unpack]
  rcases x.toModel.unpack.compare y.toModel.unpack with _ | (_ | _ | _) <;> simp

theorem compareFloats_swap (x y : Float) :
    compareFloats y x = (compareFloats x y).map Ordering.swap := by
  rw [compareFloats_eq, compareFloats_eq, compare_unpacked_swap]

theorem compareFloats_eq_some_eq_iff {x y : Float} : compareFloats x y = some .eq ↔ x == y := by
  rw [compareFloats_eq, float_beq_iff]

theorem float_beq_comm (x y : Float) : (x == y) = (y == x) := by
  rw [Bool.eq_iff_iff, ← compareFloats_eq_some_eq_iff, ← compareFloats_eq_some_eq_iff,
    compareFloats_swap y x]
  rcases compareFloats y x with _ | (_ | _ | _) <;> simp

theorem compare?_swap (a b : Number) : b.compare? a = (a.compare? b).map Ordering.swap := by
  have hint (m n : Int64) :
      some (compare n.toInt m.toInt) = (some (compare m.toInt n.toInt)).map Ordering.swap := by
    rw [Option.map_some, ← Std.OrientedCmp.eq_swap]
  cases a <;> cases b <;> first | exact hint _ _ | exact compareFloats_swap _ _

end Number

end Stencil

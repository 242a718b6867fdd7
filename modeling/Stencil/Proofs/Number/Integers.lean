import Stencil.Proofs.Number.Magnitude
import Stencil.Proofs.Number.Order

/-!
# Integers as floats

The float nearest to an integer of 64 bits is a number, so that it equals itself, and it is zero for
zero only.
-/

namespace Stencil

open Float.Model (Format UnpackedFloat)
open Float.Model.UnpackedFloat

/-- A number other than zero. -/
def Nonzero : UnpackedFloat → Prop
  | .finite .. => True
  | _ => False

theorem Nonzero.neg {u : UnpackedFloat} (h : Nonzero u) : Nonzero u.neg := by
  cases u <;> simp_all [Nonzero, UnpackedFloat.neg]

theorem compare_self_of_nonzero {u : UnpackedFloat} (h : Nonzero u) :
    u.compare u = some .eq := by
  rcases u with _ | _ | _ | ⟨_ | _, m, e, hm⟩ <;> simp_all [Nonzero, UnpackedFloat.compare]

theorem compare_zero_of_nonzero {u : UnpackedFloat} (h : Nonzero u) (sign : Sign) :
    u.compare (.zero sign) ≠ some .eq := by
  rcases u with _ | _ | _ | ⟨_ | _, m, e, hm⟩ <;> simp_all [Nonzero, UnpackedFloat.compare]

/-- Bits with an exponent that is neither the lowest nor the highest are those of a number. -/
theorem nonzero_unpack {b : BitVec Format.binary64.numBits} (hpos : (unpackExponent b).toNat ≠ 0)
    (hlt : (unpackExponent b).toNat < 2047) : Nonzero (unpack .binary64 b) := by
  have hzero : unpackExponent b ≠ 0#_ := fun h => hpos (by rw [h]; rfl)
  have hones : unpackExponent b ≠ -1#_ := fun h => absurd hlt (by rw [h]; decide)
  simp only [unpack, hzero, hones, if_false]
  trivial

theorem unpack_ofBits (bits : UInt64) :
    (Float.ofBits bits).toModel.unpack = unpack .binary64 bits.toBitVec :=
  unpack_pack_unpack _ (by decide)

theorem unpackExponent_ofNat {bits : Nat} (h : bits < 2 ^ 64) :
    (@unpackExponent .binary64 (UInt64.ofNat bits).toBitVec).toNat = bits / 2 ^ 52 % 2 ^ 11 := by
  rw [unpackExponent_toNat, UInt64.toNat_ofNat', Nat.mod_eq_of_lt h]

theorem nonzero_nearest {n : Nat} (hn : n ≠ 0) (h : n < 2 ^ 64) :
    Nonzero (Binary.nearest n 1).toModel.unpack := by
  have hlog : n.log2 ≤ 63 := log2_le h
  obtain ⟨hlower, hupper⟩ := exponentFor_one hlog
  have hscaled := scaledDown_le hlower
  rw [Binary.nearest, if_neg hn, unpack_ofBits]
  simp only [Nat.pow_eq]
  apply nonzero_unpack <;> rw [unpackExponent_ofNat (by omega)] <;> omega

namespace Binary

theorem nonzero_ofInt {n : Int64} (h : n ≠ 0) : Nonzero (ofInt n.toInt).toModel.unpack := by
  have hn : n.toInt ≠ 0 := fun hn => h (Int64.toInt_inj.mp hn)
  have hle := n.le_toInt
  have hlt := n.toInt_lt
  have hmagnitude : Nonzero (nearest n.toInt.natAbs 1).toModel.unpack :=
    nonzero_nearest (by omega) (by omega)
  have hone : n.toInt.natAbs * Nat.pow 2 (Int.toNat 0) = n.toInt.natAbs := Nat.mul_one _
  simp only [ofInt, toFloat, le_refl, if_true, hone]
  split
  · rw [unpack_float_neg]
    exact hmagnitude.neg
  · exact hmagnitude

theorem ofInt_beq_self (n : Int64) : ofInt n.toInt == ofInt n.toInt := by
  by_cases h : n = 0
  · subst h
    rfl
  · exact float_beq_iff.mpr (compare_self_of_nonzero (nonzero_ofInt h))

/-- Only zero has zero for its float. -/
theorem ofInt_beq_zero_iff {n : Int64} : ofInt n.toInt == 0.0 ↔ n = 0 := by
  constructor
  · intro hzero
    by_contra h
    exact compare_zero_of_nonzero (nonzero_ofInt h) .positive (float_beq_iff.mp hzero)
  · rintro rfl
    rfl

end Binary

end Stencil

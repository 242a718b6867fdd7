import Mathlib

/-!
# Negating floats

A float is a sign and a magnitude, and negating it turns the sign alone; so negating it twice
changes nothing.
-/

namespace Stencil

open Float.Model (Format UnpackedFloat)
open Float.Model.UnpackedFloat

theorem neg_neg_unpacked (u : UnpackedFloat) : u.neg.neg = u := by
  have hsign (s : Sign) : - -s = s := by cases s <;> rfl
  cases u <;> simp [UnpackedFloat.neg, hsign]

/-- The same bits with the other sign. -/
def turned (spec : Format) (b : BitVec spec.numBits) : BitVec spec.numBits :=
  packComponents spec (-Sign.ofBitVec (unpackSign b)) (unpackExponent b) (unpackMantissa b)

theorem unpack_turned {spec : Format} (b : BitVec spec.numBits) :
    unpack spec (turned spec b) = (unpack spec b).neg := by
  simp only [unpack, turned, unpackSign_packComponents, unpackExponent_packComponents,
    unpackMantissa_packComponents, Sign.ofBitVec_toBitVec]
  split <;> split <;> try split
  all_goals rfl

theorem unpack_pack_unpack {spec : Format} (b : BitVec spec.numBits)
    (h : 2 ≤ spec.exponentBits) : unpack spec (pack spec (unpack spec b)) = unpack spec b := by
  rw [pack_unpack b h]
  split
  · rename_i hnan
    obtain ⟨hexponent, hmantissa⟩ := of_decide_eq_true hnan
    rw [unpack_packedNaN, unpack, if_pos hexponent, if_neg hmantissa]
  · rfl

theorem unpack_pack_neg (m : Float.Model) :
    unpack .binary64 (pack .binary64 m.unpack.neg) = m.unpack.neg := by
  have hturned : unpack .binary64 (turned .binary64 m.toBits.toBitVec) = m.unpack.neg :=
    unpack_turned _
  rw [← hturned, unpack_pack_unpack _ (by decide)]

theorem unpack_float_neg (x : Float) : (-x).toModel.unpack = x.toModel.unpack.neg :=
  unpack_pack_neg x.toModel

theorem pack_neg_neg (m : Float.Model) :
    pack .binary64 (unpack .binary64 (pack .binary64 m.unpack.neg)).neg = m.toBits.toBitVec := by
  rw [unpack_pack_neg, neg_neg_unpacked]
  exact pack_unpack_of_valid m.valid (by decide)

theorem neg_neg_float (x : Float) : - -x = x := by
  rw [← Float.toBits_inj]
  exact congrArg UInt64.ofBitVec (pack_neg_neg x.toModel)

end Stencil

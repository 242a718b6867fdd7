import Stencil.Number.Binary
import Stencil.Proofs.Number.Negation

/-!
# Magnitudes of floats

How large the quotient of two floats is, as a power of two. A number that is divided by one of at
least two does not grow, whatever the rounding does, so that it never comes near the end of the
range.
-/

namespace Stencil

open Float.Model (Format UnpackedFloat totalExponent)
open Float.Model.UnpackedFloat

/-- Zero, or a number whose absolute value is below `2 ^ k`. -/
def Below (k : Int) : UnpackedFloat → Prop
  | .zero _ => True
  | .finite _ m e _ => totalExponent m e ≤ k
  | _ => False

/-- A number whose absolute value is `2` or more. -/
def AtLeastTwo : UnpackedFloat → Bool
  | .finite _ m e _ => 2 ≤ totalExponent m e
  | _ => false

theorem isFinite_of_below {k : Int} {u : UnpackedFloat} (h : Below k u) : u.isFinite := by
  cases u <;> simp_all [Below, UnpackedFloat.isFinite]

theorem log2_le {m n : Nat} (h : m < 2 ^ (n + 1)) : m.log2 ≤ n := by
  by_cases hm : m = 0
  · simp [hm]
  · exact Nat.lt_succ_iff.mp ((Nat.log2_lt hm).mpr h)

theorem mantissa_shiftRight (em : ExtendedMantissa) (n : Nat) :
    (em >>> n).mantissa = em.mantissa / 2 ^ n := by
  change (n.repeat ExtendedMantissa.shiftRightOne em).mantissa = _
  induction n with
  | zero => simp [Nat.repeat]
  | succ n ih =>
    rw [Nat.repeat, ExtendedMantissa.shiftRightOne, ih, Nat.div_div_eq_div_mul, pow_succ]

theorem roundedMantissa_le (em : ExtendedMantissa) : em.roundedMantissa ≤ em.mantissa + 1 := by
  rcases em with ⟨m, round, sticky⟩
  have := Nat.mod_lt m two_pos
  cases round <;> cases sticky <;>
    simp only [ExtendedMantissa.roundedMantissa, ExtendedMantissa.accuracy,
      Accuracy.roundToNearestEven] <;> omega

/-- Bits that are dropped do not make a number larger. -/
theorem totalExponent_shiftRight {m s : Nat} (hm : m / 2 ^ s ≠ 0) (e : Int) :
    totalExponent (m / 2 ^ s) (e + s) ≤ totalExponent m e := by
  have hpos : m ≠ 0 := by
    rintro rfl
    simp at hm
  have hlt : m < 2 ^ (m.log2 + 1) := Nat.lt_log2_self
  have hs : s ≤ m.log2 := by
    by_contra hs
    refine hm (Nat.div_eq_of_lt (hlt.trans_le ?_))
    exact Nat.pow_le_pow_right two_pos (by omega)
  have hlog : (m / 2 ^ s).log2 ≤ m.log2 - s := by
    apply log2_le
    rw [Nat.div_lt_iff_lt_mul (by positivity), ← pow_add]
    exact hlt.trans_le (Nat.pow_le_pow_right two_pos (by omega))
  simp only [totalExponent]
  omega

/-- Rounding goes at most to the next power of two. -/
theorem below_roundWithAccuracy {k : Int} {m : Nat} {e : Int} (hk : -1073 ≤ k)
    (h : totalExponent m e ≤ k) (sign : Sign) (accuracy : Accuracy) :
    Below (k + 1) (roundWithAccuracy .binary64 sign m e accuracy) := by
  obtain ⟨s, hs⟩ : ∃ s : Nat,
      s = (Format.binary64.targetExponent (totalExponent m e) - e).toNat := ⟨_, rfl⟩
  obtain ⟨r, hr⟩ : ∃ r,
      r = (ExtendedMantissa.ofMantissaAndAccuracy m accuracy >>> s).roundedMantissa := ⟨_, rfl⟩
  have hle : r ≤ 2 ^ (m.log2 + 1 - s) := by
    have hmantissa : (ExtendedMantissa.ofMantissaAndAccuracy m accuracy).mantissa = m := by
      cases accuracy with
      | exact => rfl
      | inexact o => cases o <;> rfl
    have hround := roundedMantissa_le (ExtendedMantissa.ofMantissaAndAccuracy m accuracy >>> s)
    rw [mantissa_shiftRight, hmantissa] at hround
    have hlt : m / 2 ^ s < 2 ^ (m.log2 + 1 - s) := by
      rw [Nat.div_lt_iff_lt_mul (by positivity), ← pow_add]
      exact Nat.lt_log2_self.trans_le (Nat.pow_le_pow_right two_pos (by omega))
    omega
  have htotal : totalExponent r (e + s) ≤ k + 1 := by
    have hlog : r.log2 ≤ m.log2 + 1 - s :=
      log2_le (hle.trans_lt (Nat.pow_lt_pow_right one_lt_two (Nat.lt_succ_self _)))
    simp only [totalExponent, Format.targetExponent, Format.mantissaBits, Format.minExponent] at *
    omega
  simp only [roundWithAccuracy, shiftToTargetExponent, shiftToExponent, ← hs, ← hr]
  split
  · trivial
  · rename_i hne
    rw [mantissa_shiftRight] at hne
    simp only [Below, mantissa_shiftRight]
    exact (totalExponent_shiftRight hne _).trans htotal

/-- The exponent in the bits bounds the magnitude. -/
theorem below_unpack {k : Nat} {b : BitVec Format.binary64.numBits} (hk : k < 1025)
    (h : (unpackExponent b).toNat ≤ k + 1022) : Below k (unpack .binary64 b) := by
  have hfield : unpackExponent b ≠ -1#_ := by
    intro heq
    rw [heq] at h
    simp at h
    omega
  unfold unpack
  simp only [hfield, if_false]
  split
  · split
    · trivial
    · -- The mantissa has fewer than 53 bits, and the exponent is the smallest one.
      rename_i hzero _
      have hlog : (unpackMantissa b).toNat.log2 ≤ 51 := log2_le (unpackMantissa b).isLt
      simp only [Below, totalExponent, Format.exponentBias, hzero, BitVec.toNat_zero]
      omega
  · have hlog : (1#1 ++ unpackMantissa b).toNat.log2 ≤ 52 := log2_le (1#1 ++ unpackMantissa b).isLt
    simp only [Below, totalExponent, Format.exponentBias]
    omega

theorem unpackExponent_pack {k : Nat} {u : UnpackedFloat} (hk : k < 973) (h : Below k u) :
    (unpackExponent (pack .binary64 u)).toNat ≤ k + 1022 := by
  cases u with
  | zero sign => simp [pack, packedZero]
  | finite sign m e hm =>
    have hsmall : ¬ 2 ^ Format.binary64.exponentBits ≤ (e + Format.binary64.exponentBias +
        Format.binary64.mantissaBitsWithoutImplicit).toNat + 1 := by
      simp only [Below, totalExponent] at h
      simp only [Format.exponentBias]
      omega
    rw [pack]
    simp only [hsmall, if_false]
    split
    · rename_i hlog
      simp only [Below, totalExponent, Format.exponentBias, Format.mantissaBits,
        unpackExponent_packComponents, BitVec.toNat_ofNat] at h hlog ⊢
      refine (Nat.mod_le _ _).trans ?_
      omega
    · simp
  | _ => exact h.elim

theorem below_pack {k : Nat} {u : UnpackedFloat} (hk : k < 973) (h : Below k u) :
    Below k (unpack .binary64 (pack .binary64 u)) :=
  below_unpack (by omega) (unpackExponent_pack hk h)

theorem totalExponent_divCore {k : Int} {m₁ m₂ : Nat} {e₁ e₂ : Int} (hk : -1072 ≤ k) (hm : 0 < m₂)
    (h₁ : totalExponent m₁ e₁ ≤ k) (h₂ : 2 ≤ totalExponent m₂ e₂) :
    totalExponent (divCore .binary64 m₁ e₁ m₂ e₂).1 (divCore .binary64 m₁ e₁ m₂ e₂).2.1 ≤
      k - 1 := by
  obtain ⟨t, ht⟩ : ∃ t : Int, t = min (e₁ - e₂)
      (Format.binary64.targetExponent (totalExponent m₁ e₁ - totalExponent m₂ e₂)) := ⟨_, rfl⟩
  obtain ⟨s, hs⟩ : ∃ s : Nat, s = (e₁ - e₂ - t).toNat := ⟨_, rfl⟩
  simp only [divCore, ← ht, ← hs]
  have hlog : (m₁ <<< s / m₂).log2 ≤ m₁.log2 + s - m₂.log2 := by
    apply log2_le
    rw [Nat.div_lt_iff_lt_mul hm, Nat.shiftLeft_eq]
    calc m₁ * 2 ^ s
        < 2 ^ (m₁.log2 + 1) * 2 ^ s := Nat.mul_lt_mul_of_pos_right Nat.lt_log2_self (by positivity)
      _ = 2 ^ (m₁.log2 + s + 1) := by rw [← pow_add]; congr 1; omega
      _ ≤ 2 ^ (m₁.log2 + s - m₂.log2 + 1 + m₂.log2) := Nat.pow_le_pow_right two_pos (by omega)
      _ = 2 ^ (m₁.log2 + s - m₂.log2 + 1) * 2 ^ m₂.log2 := pow_add _ _ _
      _ ≤ 2 ^ (m₁.log2 + s - m₂.log2 + 1) * m₂ := Nat.mul_le_mul_left _ (Nat.log2_self_le hm.ne')
  simp only [totalExponent, Format.targetExponent, Format.mantissaBits, Format.minExponent] at *
  omega

/-- A number does not grow when it is divided by two or more. -/
theorem below_div {k : Int} {u v : UnpackedFloat} (hk : -1072 ≤ k) (hu : Below k u)
    (hv : AtLeastTwo v) : Below k (u.div .binary64 v) := by
  cases v with
  | finite sign₂ m₂ e₂ hm =>
    cases u with
    | zero sign => trivial
    | finite sign₁ m₁ e₁ _ =>
      have htotal := totalExponent_divCore hk hm hu (of_decide_eq_true hv)
      have hbelow := below_roundWithAccuracy (by omega) htotal (sign₁ / sign₂)
        (divCore .binary64 m₁ e₁ m₂ e₂).2.2
      rwa [sub_add_cancel] at hbelow
    | _ => exact hu.elim
  | _ => simp [AtLeastTwo] at hv

theorem isFinite_of_below_toModel {k : Int} {x : Float} (h : Below k x.toModel.unpack) :
    x.isFinite :=
  isFinite_of_below h

theorem isFinite_neg {x : Float} (h : x.isFinite) : (-x).isFinite := by
  have hfinite : x.toModel.unpack.isFinite := h
  change (-x).toModel.unpack.isFinite
  rw [unpack_float_neg]
  cases hunpack : x.toModel.unpack <;> simp_all [UnpackedFloat.neg, UnpackedFloat.isFinite]

theorem below_toModel_div {k : Nat} {x y : Float} (hk : k < 973) (hx : Below k x.toModel.unpack)
    (hy : AtLeastTwo y.toModel.unpack) : Below k (x / y).toModel.unpack :=
  below_pack hk (below_div (by omega) hx hy)

theorem roundHalfEven_le (num den : Nat) : Binary.roundHalfEven num den ≤ num / den + 1 := by
  have := Nat.mod_lt (num / den) two_pos
  simp only [Binary.roundHalfEven]
  split_ifs <;> omega

theorem scaledDown_le {n : Nat} {e : Int} (he : (n.log2 : Int) - 53 ≤ e) :
    Binary.scaledDown n 1 e ≤ 2 ^ 54 := by
  rw [Binary.scaledDown, one_mul]
  split
  · have hlt : n / 2 ^ e.toNat < 2 ^ 54 := by
      rw [Nat.div_lt_iff_lt_mul (by positivity), ← pow_add]
      exact Nat.lt_log2_self.trans_le (Nat.pow_le_pow_right two_pos (by omega))
    exact (roundHalfEven_le _ _).trans hlt
  · have hlt : n * 2 ^ (-e).toNat / 1 < 2 ^ 54 := by
      rw [Nat.div_one]
      calc n * 2 ^ (-e).toNat
          < 2 ^ (n.log2 + 1) * 2 ^ (-e).toNat :=
            Nat.mul_lt_mul_of_pos_right Nat.lt_log2_self (by positivity)
        _ = 2 ^ (n.log2 + 1 + (-e).toNat) := (pow_add _ _ _).symm
        _ ≤ 2 ^ 54 := Nat.pow_le_pow_right two_pos (by omega)
    exact (roundHalfEven_le _ _).trans hlt

theorem unpackExponent_toNat (bits : UInt64) :
    (@unpackExponent .binary64 bits.toBitVec).toNat = bits.toNat / 2 ^ 52 % 2 ^ 11 := by
  simp only [unpackExponent, BitVec.toNat_cast, BitVec.extractLsb_toNat, UInt64.toNat_toBitVec,
    Nat.shiftRight_eq_div_pow]

theorem unpackExponent_ofNat_le (bits : Nat) :
    (@unpackExponent .binary64 (UInt64.ofNat bits).toBitVec).toNat ≤ bits / 2 ^ 52 := by
  rw [unpackExponent_toNat, UInt64.toNat_ofNat']
  exact (Nat.mod_le _ _).trans (Nat.div_le_div_right (Nat.mod_le _ _))

theorem exponentFor_one {n : Nat} (h : n.log2 ≤ 63) :
    (n.log2 : Int) - 53 ≤ Binary.exponentFor n 1 ∧ Binary.exponentFor n 1 ≤ n.log2 - 52 := by
  have hone : Nat.log2 1 = 0 := by decide
  rw [Binary.exponentFor, hone]
  split_ifs <;> omega

/-- A whole number of 64 bits is far from the end of the range. -/
theorem below_nearest {n : Nat} (h : n < 2 ^ 64) :
    Below (67 : Nat) (Binary.nearest n 1).toModel.unpack := by
  rw [Binary.nearest]
  split
  · exact below_pack (by omega) (below_unpack (b := 0) (by omega) (by decide))
  · have hlog : n.log2 ≤ 63 := log2_le h
    obtain ⟨hlower, hupper⟩ := exponentFor_one hlog
    have hscaled := scaledDown_le hlower
    refine below_pack (by omega) (below_unpack (by omega) ?_)
    refine (unpackExponent_ofNat_le _).trans ?_
    simp only [Nat.pow_eq] at *
    omega

end Stencil

import Mathlib
import Stencil.Proofs.Number.Integers

/-!
# Floats as rational numbers

A finite float is a rational number. Its mantissa has at most 53 bits, and all of them unless the
exponent is the lowest one: so floats are ordered by exponent and mantissa as their numbers are. An
infinity stands where the next number behind the largest one would.
-/

namespace Stencil

open Float.Model (Format UnpackedFloat)
open Float.Model.UnpackedFloat

namespace Binary

def magnitude (m : Nat) (e : Int) : ℚ :=
  m * 2 ^ e

/-- The number that these parts make up. -/
def value (b : Binary) : ℚ :=
  if b.negative then -magnitude b.mantissa b.exponent else magnitude b.mantissa b.exponent

/-- The next number behind the largest float, were there one more exponent. -/
@[irreducible] def overflow : ℚ :=
  magnitude (2 ^ 52) 972

/-- The number that a float stands for. -/
def valueOf (x : Float) : ℚ :=
  match ofFloat? x with
  | some b => b.value
  | none => if x < 0.0 then -overflow else overflow

/-- A mantissa and an exponent of a float. -/
structure Canonical (m : Nat) (e : Int) : Prop where
  mantissa_lt : m < 2 ^ 53
  exponent_ge : -1074 ≤ e
  exponent_le : e ≤ 971
  full : e = -1074 ∨ 2 ^ 52 ≤ m

section

variable {m₁ m₂ : Nat} {e₁ e₂ : Int}

theorem magnitude_pos (h : 0 < m₁) : 0 < magnitude m₁ e₁ := by
  rw [magnitude]
  positivity

theorem magnitude_strictMono (e : Int) : StrictMono (magnitude · e) := by
  intro m n hmn
  have hcast : (m : ℚ) < n := by exact_mod_cast hmn
  simp only [magnitude]
  gcongr

/-- A greater exponent makes a greater number of a full mantissa. -/
theorem magnitude_lt (hm₁ : m₁ < 2 ^ 53) (hm₂ : 2 ^ 52 ≤ m₂) (he : e₁ < e₂) :
    magnitude m₁ e₁ < magnitude m₂ e₂ := by
  have hlt : (m₁ : ℚ) < 2 ^ 53 := by exact_mod_cast hm₁
  have hle : (2 : ℚ) ^ 52 ≤ m₂ := by exact_mod_cast hm₂
  calc (m₁ : ℚ) * 2 ^ e₁
      < 2 ^ 53 * 2 ^ e₁ := by gcongr
    _ = 2 ^ 52 * 2 ^ (e₁ + 1) := by rw [zpow_add_one₀ two_ne_zero]; ring
    _ ≤ 2 ^ 52 * 2 ^ e₂ := by gcongr; exacts [one_le_two, by omega]
    _ ≤ m₂ * 2 ^ e₂ := by gcongr

theorem Canonical.lt_of_exponent_lt (h₁ : Canonical m₁ e₁) (h₂ : Canonical m₂ e₂) (he : e₁ < e₂) :
    magnitude m₁ e₁ < magnitude m₂ e₂ := by
  have hlow := h₁.exponent_ge
  exact magnitude_lt h₁.mantissa_lt (h₂.full.resolve_left (by omega)) he

theorem Canonical.lt_overflow (h : Canonical m₁ e₁) : magnitude m₁ e₁ < overflow := by
  rw [overflow]
  exact magnitude_lt h.mantissa_lt le_rfl (Int.lt_add_one_of_le h.exponent_le)

/-- The order by exponents, and then by mantissas, is the order of the numbers. -/
theorem compare_magnitudes (h₁ : Canonical m₁ e₁) (h₂ : Canonical m₂ e₂) :
    (compare e₁ e₂).then (compare m₁ m₂) = compare (magnitude m₁ e₁) (magnitude m₂ e₂) := by
  rcases lt_trichotomy e₁ e₂ with he | rfl | he
  · rw [compare_lt_iff_lt.mpr he, compare_lt_iff_lt.mpr (h₁.lt_of_exponent_lt h₂ he)]
    rfl
  · have hcmp := (magnitude_strictMono e₁).cmp_map_eq m₁ m₂
    rw [cmp_eq_compare, cmp_eq_compare] at hcmp
    rw [compare_eq_iff_eq.mpr rfl, hcmp]
    rfl
  · rw [compare_gt_iff_gt.mpr he, compare_gt_iff_gt.mpr (h₂.lt_of_exponent_lt h₁ he)]
    rfl

theorem compare_neg_neg (p q : ℚ) : compare (-p) (-q) = (compare p q).swap := by
  have hanti : StrictAnti fun p : ℚ => -p := fun _ _ => neg_lt_neg
  have hcmp := hanti.cmp_map_eq p q
  rw [cmp_eq_compare, cmp_eq_compare] at hcmp
  rw [hcmp, ← Std.OrientedCmp.eq_swap]

end

theorem canonical_of_ofFloat? {x : Float} {b : Binary} (h : ofFloat? x = some b) :
    Canonical b.mantissa b.exponent := by
  simp only [ofFloat?, Nat.pow_eq, Int.ofNat_eq_natCast] at h
  split_ifs at h with hmax hmin
  · cases h
    refine ⟨?_, le_refl _, ?_, .inl rfl⟩ <;> simp only <;> omega
  · cases h
    constructor <;> simp only <;> omega

theorem unpackSign_toNat (bits : UInt64) :
    (@unpackSign .binary64 bits.toBitVec).toNat = bits.toNat / 2 ^ 63 := by
  have hlt := bits.toNat_lt
  simp only [unpackSign, BitVec.toNat_cast, BitVec.extractLsb_toNat, UInt64.toNat_toBitVec,
    Nat.shiftRight_eq_div_pow]
  omega

theorem unpackMantissa_toNat (bits : UInt64) :
    (@unpackMantissa .binary64 bits.toBitVec).toNat = bits.toNat % 2 ^ 52 := by
  simp only [unpackMantissa, BitVec.toNat_cast, BitVec.extractLsb_toNat, UInt64.toNat_toBitVec,
    Nat.shiftRight_zero]

theorem unpackSign_beq_negative (bits : UInt64) :
    (Sign.ofBitVec (@unpackSign .binary64 bits.toBitVec) == .negative) =
      decide (2 ^ 63 ≤ bits.toNat) := by
  have hlt := bits.toNat_lt
  have hsign : @unpackSign .binary64 bits.toBitVec = 0#1 ↔ ¬ 2 ^ 63 ≤ bits.toNat := by
    rw [← BitVec.toNat_inj, unpackSign_toNat]
    change _ = 0 ↔ _
    omega
  simp only [Sign.ofBitVec, hsign]
  by_cases h : 2 ^ 63 ≤ bits.toNat
  · rw [if_neg (not_not_intro h), decide_eq_true h]
    rfl
  · rw [if_pos h, decide_eq_false h]
    rfl

/-- The parts of an unpacked float, which has none if it is infinite or no number. -/
def ofUnpacked? : UnpackedFloat → Option Binary
  | .zero sign => some ⟨sign == .negative, 0, -1074⟩
  | .finite sign m e _ => some ⟨sign == .negative, m, e⟩
  | _ => none

theorem ofFloat?_eq (x : Float) : ofFloat? x = ofUnpacked? x.toModel.unpack := by
  have hexponent := unpackExponent_toNat x.toBits
  have hmantissa := unpackMantissa_toNat x.toBits
  have hmax : @unpackExponent .binary64 x.toBits.toBitVec = -1#_ ↔
      x.toBits.toNat / 2 ^ 52 % 2 ^ 11 = 2047 := by
    rw [← BitVec.toNat_inj, hexponent]
    rfl
  have hmin : @unpackExponent .binary64 x.toBits.toBitVec = 0#_ ↔
      x.toBits.toNat / 2 ^ 52 % 2 ^ 11 = 0 := by
    rw [← BitVec.toNat_inj, hexponent]
    rfl
  have hnull : @unpackMantissa .binary64 x.toBits.toBitVec = 0#_ ↔
      x.toBits.toNat % 2 ^ 52 = 0 := by
    rw [← BitVec.toNat_inj, hmantissa]
    rfl
  change ofFloat? x = ofUnpacked? (unpack .binary64 x.toBits.toBitVec)
  simp only [ofFloat?, Nat.pow_eq, ← unpackSign_beq_negative, unpack, hmax, hmin, hnull]
  split_ifs with hinfinite hfraction hlowest hzero
  · rfl
  · rfl
  · rw [hzero]
    rfl
  · simp only [ofUnpacked?, hmantissa, hmin.mpr hlowest]
    rfl
  · have hfull : (1#1 ++ @unpackMantissa .binary64 x.toBits.toBitVec).toNat =
        2 ^ 52 + x.toBits.toNat % 2 ^ 52 := by
      rw [BitVec.toNat_append, hmantissa, ← Nat.shiftLeft_add_eq_or_of_lt]
      · rfl
      · exact Nat.mod_lt _ (by decide)
    simp only [ofUnpacked?, hfull, hexponent]
    rfl

theorem isSome_ofFloat? (x : Float) : (ofFloat? x).isSome = x.isFinite := by
  change _ = x.toModel.unpack.isFinite
  rw [ofFloat?_eq]
  cases x.toModel.unpack <;> rfl

/-- The place of an unpacked float among the numbers. -/
def place : UnpackedFloat → ℚ
  | .zero _ => 0
  | .finite .positive m e _ => magnitude m e
  | .finite .negative m e _ => -magnitude m e
  | .infinity .negative => -overflow
  | _ => overflow

theorem valueOf_eq (x : Float) : valueOf x = place x.toModel.unpack := by
  have hlt : x < 0.0 ↔ x.toModel.unpack.compare (.zero .positive) = some .lt := float_lt_iff
  rw [valueOf, ofFloat?_eq]
  simp only [hlt]
  rcases x.toModel.unpack with (_ | _) | _ | (_ | _) | ⟨_ | _, m, e, hm⟩ <;>
    simp [ofUnpacked?, place, value, magnitude, UnpackedFloat.compare]

/-- The mantissa and the exponent of an unpacked number are those of a float. -/
def IsCanonical : UnpackedFloat → Prop
  | .finite _ m e _ => Canonical m e
  | _ => True

theorem isCanonical_unpack (x : Float) : IsCanonical x.toModel.unpack := by
  have hcanonical := @canonical_of_ofFloat? x
  rw [ofFloat?_eq] at hcanonical
  cases h : x.toModel.unpack with
  | finite sign m e hm =>
    rw [h] at hcanonical
    exact hcanonical rfl
  | _ => trivial

/-- Unpacked floats other than NaN are compared as their places are. -/
theorem compare_eq {u v : UnpackedFloat} (hu : IsCanonical u) (hv : IsCanonical v)
    (hu' : u ≠ .notANumber) (hv' : v ≠ .notANumber) :
    u.compare v = some (compare (place u) (place v)) := by
  have hoverflow : 0 < overflow := by
    rw [overflow]
    exact magnitude_pos (by decide)
  have hsigns : compare Sign.negative Sign.negative = .eq ∧
      compare Sign.positive Sign.positive = .eq ∧
      compare Sign.negative Sign.positive = .lt ∧ compare Sign.positive Sign.negative = .gt := by
    decide
  rcases u with (_ | _) | _ | (_ | _) | ⟨_ | _, m₁, e₁, hm₁⟩ <;>
    rcases v with (_ | _) | _ | (_ | _) | ⟨_ | _, m₂, e₂, hm₂⟩ <;>
    simp only [UnpackedFloat.compare, place]
  all_goals
    first
    | contradiction
    | rw [compare_neg_neg, compare_magnitudes hu hv]
    | rw [compare_magnitudes hu hv]
    | grind [compare_lt_iff_lt, compare_gt_iff_gt, compare_eq_iff_eq, magnitude_pos,
        Canonical.lt_overflow, IsCanonical]

section

variable {x y : Float}

theorem unpack_ne_notANumber (h : x.isNaN = false) : x.toModel.unpack ≠ .notANumber := by
  change x.toModel.unpack.isNaN = false at h
  intro hnan
  rw [hnan] at h
  cases h

theorem isNaN_of_isFinite (h : x.isFinite) : x.isNaN = false := by
  change x.toModel.unpack.isNaN = false
  change x.toModel.unpack.isFinite = true at h
  cases hunpack : x.toModel.unpack <;> simp_all [UnpackedFloat.isNaN, UnpackedFloat.isFinite]

theorem compareFloats_eq_compare (hx : x.isNaN = false) (hy : y.isNaN = false) :
    Number.compareFloats x y = some (compare (valueOf x) (valueOf y)) := by
  rw [Number.compareFloats_eq, valueOf_eq, valueOf_eq]
  exact compare_eq (isCanonical_unpack x) (isCanonical_unpack y) (unpack_ne_notANumber hx)
    (unpack_ne_notANumber hy)

theorem float_lt_iff_valueOf (hx : x.isNaN = false) (hy : y.isNaN = false) :
    x < y ↔ valueOf x < valueOf y := by
  rw [float_lt_iff, ← Number.compareFloats_eq, compareFloats_eq_compare hx hy, Option.some_inj,
    compare_lt_iff_lt]

theorem float_beq_iff_valueOf (hx : x.isNaN = false) (hy : y.isNaN = false) :
    x == y ↔ valueOf x = valueOf y := by
  rw [← Number.compareFloats_eq_some_eq_iff, compareFloats_eq_compare hx hy, Option.some_inj,
    compare_eq_iff_eq]

theorem float_le_iff_valueOf (hx : x.isNaN = false) (hy : y.isNaN = false) :
    x ≤ y ↔ valueOf x ≤ valueOf y := by
  have hle : x ≤ y ↔ (x.toModel.unpack.compare y.toModel.unpack).any (·.isLE) = true := by
    change decide (UnpackedFloat.le _ _ = true) = true ↔ _
    rw [decide_eq_true_eq, UnpackedFloat.le]
  rw [hle, ← Number.compareFloats_eq, compareFloats_eq_compare hx hy, Option.any_some,
    Ordering.isLE_iff_ne_gt]
  exact compare_le_iff_le

end

end Binary

end Stencil

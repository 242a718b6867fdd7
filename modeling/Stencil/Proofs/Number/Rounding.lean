import Stencil.Number.Arithmetic
import Stencil.Proofs.Number.Nearest

/-!
# Floats rounded to whole numbers

A float with a fraction has a mantissa of at most 53 bits before it is divided, so that the whole
number nearby has at most 53 bits, too, and is a float. Rounding is therefore exact. The integer of
64 bits for a whole float is its number, or the end of the range that it is beyond.
-/

namespace Stencil

open Float.Model (UnpackedFloat)
open Float.Model.UnpackedFloat

namespace Rounding

/-- The whole number for a fraction. A half goes away from zero under `nearest`. -/
def exact : Rounding → ℚ → ℤ
  | down, q => ⌊q⌋
  | up, q => ⌈q⌉
  | nearest, q => if 0 ≤ q then ⌊q + 1 / 2⌋ else ⌈q - 1 / 2⌉

theorem exact_intCast (r : Rounding) (z : ℤ) : r.exact z = z := by
  have hfloor : ⌊(1 / 2 : ℚ)⌋ = 0 := by norm_num
  have hceil : ⌈-(1 / 2 : ℚ)⌉ = 0 := by norm_num
  cases r with
  | down => exact Int.floor_intCast z
  | up => exact Int.ceil_intCast z
  | nearest =>
    rw [exact, Int.floor_intCast_add, sub_eq_add_neg, Int.ceil_intCast_add, hfloor, hceil, add_zero,
      ite_self]

/-- Under `nearest`, both signs are rounded alike. -/
theorem exact_nearest_neg {q : ℚ} (h : 0 ≤ q) : nearest.exact (-q) = -nearest.exact q := by
  rcases h.eq_or_lt with rfl | hpos
  · have hzero := exact_intCast nearest 0
    rw [Int.cast_zero] at hzero
    rw [neg_zero, hzero, neg_zero]
  · have hneg : ¬ 0 ≤ -q := by linarith
    rw [exact, exact, if_neg hneg, if_pos h, ← Int.ceil_neg]
    congr 1
    ring

section

variable {den : Nat}

theorem ceil_div (num : Nat) (h : 0 < den) :
    ⌈(num / den : ℚ)⌉ = ((num + (den - 1)) / den : Nat) := by
  obtain ⟨q, hq⟩ : ∃ q, q = (num + (den - 1)) / den := ⟨_, rfl⟩
  have hpos : (0 : ℚ) < den := by exact_mod_cast h
  have hlower : num ≤ q * den := by
    have hlt := Nat.lt_mul_div_succ (num + (den - 1)) h
    rw [← hq, mul_comm, add_mul] at hlt
    omega
  have hupper : q * den ≤ num + (den - 1) := by
    rw [hq]
    exact Nat.div_mul_le_self _ _
  have hupper' : q * den < num + den := by omega
  rw [← hq, Int.ceil_eq_iff, Int.cast_natCast]
  constructor
  · rw [lt_div_iff₀ hpos, sub_mul, one_mul, sub_lt_iff_lt_add]
    exact_mod_cast hupper'
  · rw [div_le_iff₀ hpos]
    exact_mod_cast hlower

theorem floor_div_add_half (num : Nat) (h : 0 < den) :
    ⌊(num / den : ℚ) + 1 / 2⌋ = ((2 * num + den) / (2 * den) : Nat) := by
  have hpos : (0 : ℚ) < den := by exact_mod_cast h
  have heq : (num / den : ℚ) + 1 / 2 = ((2 * num + den : Nat) : ℚ) / (2 * den : Nat) := by
    push_cast
    field_simp
  rw [heq, Rat.floor_natCast_div_natCast]
  norm_cast

/-- The rounded magnitude, with its sign, is the rounded number. -/
theorem exact_div (r : Rounding) (negative : Bool) (num : Nat) (h : 0 < den) :
    r.exact (if negative then -(num / den : ℚ) else num / den) =
      if negative then -(r.quotient negative num den : ℤ) else r.quotient negative num den := by
  have hnonneg : (0 : ℚ) ≤ num / den := by positivity
  have hdown : ⌊(num / den : ℚ)⌋ = (num / den : Nat) := by
    rw [Rat.floor_natCast_div_natCast]
    norm_cast
  have hup := ceil_div num h
  have hnearest : nearest.exact (num / den) = ((2 * num + den) / (2 * den) : Nat) := by
    rw [exact, if_pos hnonneg, floor_div_add_half num h]
  cases negative with
  | false =>
    cases r with
    | down => exact hdown
    | up => exact hup
    | nearest => exact hnearest
  | true =>
    simp only [if_true]
    cases r with
    | down => rw [exact, Int.floor_neg, hup, quotient]
    | up => rw [exact, Int.ceil_neg, hdown, quotient]
    | nearest => rw [exact_nearest_neg hnonneg, hnearest, quotient]

theorem quotient_le (r : Rounding) (negative : Bool) (num : Nat) (h : 0 < den) :
    r.quotient negative num den ≤ num := by
  have hmul : num ≤ num * den := Nat.le_mul_of_pos_right num h
  have hdown : num / den ≤ num := Nat.div_le_self num den
  have hup : (num + (den - 1)) / den ≤ num := by
    rw [← Nat.lt_succ_iff, Nat.div_lt_iff_lt_mul h, Nat.succ_mul]
    omega
  have hnearest : (2 * num + den) / (2 * den) ≤ num := by
    rw [← Nat.lt_succ_iff, Nat.div_lt_iff_lt_mul (by omega), mul_left_comm, Nat.succ_mul num]
    omega
  cases r <;> cases negative <;> assumption

end

end Rounding

namespace Binary

theorem magnitude_of_nonneg (m : Nat) {e : Int} (h : 0 ≤ e) :
    magnitude m e = ((m * 2 ^ e.toNat : Nat) : ℤ) := by
  obtain ⟨k, rfl⟩ := Int.eq_ofNat_of_zero_le h
  simp only [magnitude, Int.toNat_natCast, zpow_natCast]
  norm_cast

theorem magnitude_of_neg (m : Nat) {e : Int} (h : e < 0) :
    magnitude m e = m / ((2 ^ (-e).toNat : Nat) : ℚ) := by
  obtain ⟨k, hk⟩ := Int.eq_ofNat_of_zero_le (show 0 ≤ -e by omega)
  obtain rfl : e = -(k : Int) := by omega
  rw [magnitude, neg_neg, Int.toNat_natCast, zpow_neg, zpow_natCast, div_eq_mul_inv]
  norm_cast

theorem value_of_nonneg {b : Binary} (h : 0 ≤ b.exponent) : ∃ z : ℤ, b.value = z := by
  rw [value, magnitude_of_nonneg _ h]
  split
  · exact ⟨-((b.mantissa * 2 ^ b.exponent.toNat : Nat) : ℤ), by rw [Int.cast_neg]⟩
  · exact ⟨_, rfl⟩

variable {x : Float}

/-- Rounding a number gives a number, which is the rounded one exactly. -/
theorem rounds_onFloat (r : Rounding) (h : x.isFinite) :
    (r.onFloat x).isFinite ∧ valueOf (r.onFloat x) = r.exact (valueOf x) := by
  rw [← isSome_ofFloat?] at h
  obtain ⟨b, hb⟩ := Option.isSome_iff_exists.mp h
  have hvalue := valueOf_of_ofFloat? hb
  simp only [Rounding.onFloat, hb]
  split
  · rename_i he
    obtain ⟨z, hz⟩ := value_of_nonneg he
    rw [hvalue, hz, Rounding.exact_intCast]
    exact ⟨isFinite_of_ofFloat? hb, rfl⟩
  · rename_i he
    have hden : 0 < 2 ^ (-b.exponent).toNat := by positivity
    have hle := r.quotient_le b.negative b.mantissa hden
    have hlt := (canonical_of_ofFloat? hb).mantissa_lt
    simp only [Nat.pow_eq]
    constructor
    · exact isFinite_toFloat_whole _ (by omega)
    · rw [valueOf_toFloat_whole _ (by omega), valueOf_nearest_of_lt (by omega), hvalue, value,
        magnitude_of_neg _ (by omega), r.exact_div _ _ hden]
      split <;> push_cast <;> rfl

theorem isFinite_onFloat (r : Rounding) (h : x.isFinite) : (r.onFloat x).isFinite :=
  (rounds_onFloat r h).1

theorem valueOf_onFloat (r : Rounding) (h : x.isFinite) :
    valueOf (r.onFloat x) = r.exact (valueOf x) :=
  (rounds_onFloat r h).2

theorem magnitude_eq_mul (m k : Nat) (n : Nat) :
    magnitude m (-(n : Int)) = k ↔ m = k * 2 ^ n := by
  rw [magnitude, zpow_neg, zpow_natCast, ← div_eq_mul_inv, div_eq_iff (by positivity)]
  norm_cast

/-- Taking the mantissa of a whole number apart again gives the number. -/
theorem roundToInt_of_magnitude {m k : Nat} {e : Int} (sign : Sign) (h : magnitude m e = k) :
    roundToInt sign m e = sign.apply k := by
  have hmantissa : ∀ n, (ExtendedMantissa.ofMantissaAndAccuracy n .exact).mantissa = n :=
    fun _ => rfl
  simp only [roundToInt, decreaseExponent, shiftToExponent, sub_zero, mantissa_shiftRight,
    hmantissa, Nat.shiftLeft_eq]
  rcases le_or_gt 0 e with he | he
  · rw [magnitude_of_nonneg m he] at h
    have hk : m * 2 ^ e.toNat = k := by exact_mod_cast h
    have hshift : (0 - (e - (e.toNat : Int))).toNat = 0 := by omega
    rw [hshift, hk, pow_zero, Nat.div_one]
  · obtain ⟨n, hn⟩ := Int.eq_ofNat_of_zero_le (show 0 ≤ -e by omega)
    obtain rfl : e = -(n : Int) := by omega
    rw [magnitude_eq_mul] at h
    have hleft : (-(n : Int)).toNat = 0 := by omega
    have hshift : (0 - (-(n : Int) - (0 : Nat))).toNat = n := by omega
    rw [hleft, hshift, pow_zero, mul_one, h, Nat.mul_div_cancel _ (by positivity)]

theorem abs_place (sign : Sign) (m : Nat) (e : Int) (hm : 0 < m) :
    |place (.finite sign m e hm)| = magnitude m e := by
  cases sign with
  | positive => exact abs_of_nonneg (magnitude_nonneg m e)
  | negative => rw [place, abs_neg, abs_of_nonneg (magnitude_nonneg m e)]

theorem toInt_of_place {u : UnpackedFloat} {z lower upper : ℤ} (hfinite : u.isFinite)
    (h : place u = z) : u.toInt lower upper = z := by
  cases u with
  | notANumber => cases hfinite
  | infinity sign => cases hfinite
  | zero sign =>
    have hz : (0 : ℚ) = z := h
    exact_mod_cast hz
  | finite sign m e hm =>
    have hmagnitude : magnitude m e = z.natAbs := by
      rw [Nat.cast_natAbs, Int.cast_abs, ← h, abs_place]
    have hsigned : place (.finite sign m e hm) = (sign.apply z.natAbs : ℤ) := by
      cases sign with
      | positive => exact hmagnitude
      | negative =>
        rw [place, hmagnitude, Sign.apply, Int.cast_neg]
        rfl
    rw [UnpackedFloat.toInt, roundToInt_of_magnitude sign hmagnitude]
    exact_mod_cast hsigned.symm.trans h

theorem toModel_toInt64 {z : ℤ} (hfinite : x.isFinite) (h : valueOf x = z) :
    x.toModel.toInt64 = Int64.ofIntClamp z := by
  rw [valueOf_eq] at h
  exact congrArg Int64.ofIntClamp (toInt_of_place hfinite h)

theorem valueOf_ofInt_minValue : valueOf (ofInt Int64.minValue.toInt) = (-2 ^ 63 : ℤ) := by
  have hlog : Nat.log2 (2 ^ 63) = 63 := Nat.log2_two_pow
  have hscaled : scaledDown (2 ^ 63) 1 ((63 : Nat) - 52) = 2 ^ 52 := by decide +kernel
  have hvalue := valueOf_toFloat_whole true (n := 2 ^ 63) (by omega)
  rw [if_pos rfl, valueOf_nearest (by decide) (by decide), hlog, hscaled] at hvalue
  refine hvalue.trans ?_
  norm_num [magnitude]

/-- The greatest integer is not a float: the one next to it is one greater. -/
theorem valueOf_ofInt_maxValue : valueOf (ofInt Int64.maxValue.toInt) = (2 ^ 63 : ℤ) := by
  have hlog : Nat.log2 (2 ^ 63 - 1) = 62 := by decide +kernel
  have hscaled : scaledDown (2 ^ 63 - 1) 1 ((62 : Nat) - 52) = 2 ^ 53 := by decide +kernel
  have hvalue := valueOf_toFloat_whole false (n := 2 ^ 63 - 1) (by omega)
  rw [if_neg Bool.false_ne_true, valueOf_nearest (by decide) (by decide), hlog, hscaled] at hvalue
  refine hvalue.trans ?_
  norm_num [magnitude]

end Binary

namespace Number

open Binary (valueOf)

/-- Whether the number is this whole number: an integer if it fits into one, and else a float. -/
def IsWhole : Number → ℤ → Prop
  | integer n, z => n.toInt = z
  | float x, z => int64? z = none ∧ x.isFinite ∧ valueOf x = z

/-- A rounded number is exact but for the one that is next to the greatest integer. -/
theorem rounded_float (r : Rounding) {x : Float} (h : x.isFinite) :
    if r.exact (valueOf x) = 2 ^ 63 then (float x).rounded r = integer Int64.maxValue
    else ((float x).rounded r).IsWhole (r.exact (valueOf x)) := by
  have hfinite := Binary.isFinite_onFloat r h
  have hvalue := Binary.valueOf_onFloat r h
  have hnan := Binary.isNaN_of_isFinite hfinite
  have hmin := Binary.isNaN_of_isFinite (Binary.isFinite_ofInt Int64.minValue)
  have hmax := Binary.isNaN_of_isFinite (Binary.isFinite_ofInt Int64.maxValue)
  have hint := Binary.toModel_toInt64 hfinite hvalue
  generalize r.exact (valueOf x) = z at *
  have hlower : Binary.ofInt Int64.minValue.toInt ≤ r.onFloat x ↔ -2 ^ 63 ≤ z := by
    rw [Binary.float_le_iff_valueOf hmin hnan, Binary.valueOf_ofInt_minValue, hvalue]
    exact Int.cast_le
  have hupper : r.onFloat x ≤ Binary.ofInt Int64.maxValue.toInt ↔ z ≤ 2 ^ 63 := by
    rw [Binary.float_le_iff_valueOf hnan hmax, Binary.valueOf_ofInt_maxValue, hvalue]
    exact Int.cast_le
  simp only [rounded, hfinite, hlower, hupper, Bool.true_and, Bool.and_eq_true, decide_eq_true_eq,
    toInt64, hint]
  split_ifs with hend hrange hrange
  · rw [hend]
    rfl
  · omega
  · have hle : z ≤ Int64.maxValue.toInt := by
      rw [Int64.toInt_maxValue]
      omega
    exact Int64.toInt_ofIntClamp hrange.1 hle
  · refine ⟨?_, hfinite, hvalue⟩
    rw [int64?, if_neg (by omega)]

end Number

end Stencil

import Stencil.Proofs.Number.Rational

/-!
# Whole numbers as floats

The float nearest to a whole number has 53 bits of it, rounded. It is the number itself if that has
no more bits, and of two numbers the smaller one never has the greater float.
-/

namespace Stencil

open Float.Model (Format UnpackedFloat)
open Float.Model.UnpackedFloat

namespace Binary

theorem toBits_ofBits {bits : UInt64} (h : bits.toNat / 2 ^ 52 % 2 ^ 11 ≠ 2047) :
    (Float.ofBits bits).toBits = bits := by
  change UInt64.ofBitVec (pack .binary64 (unpack .binary64 bits.toBitVec)) = bits
  rw [@pack_unpack .binary64 bits.toBitVec (by decide), if_neg]
  intro hnan
  obtain ⟨hexponent, -⟩ := of_decide_eq_true hnan
  rw [← unpackExponent_toNat] at h
  exact h (congrArg BitVec.toNat hexponent)

/-- The bits of a float whose mantissa is full. -/
theorem ofFloat?_ofBits {s : Nat} {e : Int} (hs : 2 ^ 52 ≤ s) (hs' : s < 2 ^ 53) (he : -1074 ≤ e)
    (he' : e ≤ 971) :
    ofFloat? (Float.ofBits (UInt64.ofNat ((e + 1074).toNat * 2 ^ 52 + s))) =
      some ⟨false, s, e⟩ := by
  obtain ⟨bits, hbits⟩ : ∃ bits, bits = (e + 1074).toNat * 2 ^ 52 + s := ⟨_, rfl⟩
  have hofNat : (UInt64.ofNat bits).toNat = bits := by
    rw [UInt64.toNat_ofNat']
    omega
  have hexponent : bits / 2 ^ 52 % 2 ^ 11 = (e + 1075).toNat := by omega
  have hmantissa : bits % 2 ^ 52 = s - 2 ^ 52 := by omega
  have htoBits : (Float.ofBits (UInt64.ofNat bits)).toBits.toNat = bits := by
    rw [toBits_ofBits, hofNat]
    rw [hofNat]
    omega
  rw [← hbits, ofFloat?]
  simp only [Nat.pow_eq, htoBits, hexponent, hmantissa, Int.ofNat_eq_natCast]
  rw [if_neg (by omega), if_neg (by omega), Option.some_inj, Binary.mk.injEq]
  exact ⟨decide_eq_false (by omega), by omega, by omega⟩

theorem exponentFor_eq {n : Nat} (hn : n ≠ 0) (h : n < 2 ^ 64) :
    exponentFor n 1 = (n.log2 : Int) - 52 := by
  have hle : 2 ^ n.log2 ≤ n := Nat.log2_self_le hn
  have hlog : n.log2 ≤ 63 := log2_le h
  have hone : Nat.log2 1 = 0 := by decide
  have hwide : if 0 ≤ (n.log2 : Int) - 52 then 2 ^ 52 * 2 ^ ((n.log2 : Int) - 52).toNat ≤ n
      else 2 ^ 52 ≤ n * 2 ^ (-((n.log2 : Int) - 52)).toNat := by
    split_ifs with hlarge
    · rw [← pow_add]
      rwa [show 52 + ((n.log2 : Int) - 52).toNat = n.log2 by omega]
    · calc 2 ^ 52 = 2 ^ n.log2 * 2 ^ (-((n.log2 : Int) - 52)).toNat := by
            rw [← pow_add]
            congr 1
            omega
        _ ≤ n * 2 ^ (-((n.log2 : Int) - 52)).toNat := Nat.mul_le_mul_right _ hle
  simp only [exponentFor, hone, Nat.cast_zero, sub_zero, one_mul, mul_one, Nat.pow_eq, hwide,
    if_true]
  omega

theorem roundHalfEven_mono {m n : Nat} (den : Nat) (h : m ≤ n) :
    roundHalfEven m den ≤ roundHalfEven n den := by
  have hquotient : m / den ≤ n / den := Nat.div_le_div_right h
  have hm := Nat.div_add_mod m den
  have hn := Nat.div_add_mod n den
  simp only [roundHalfEven]
  rcases hquotient.lt_or_eq with hlt | heq
  · split_ifs <;> omega
  · rw [heq] at hm ⊢
    split_ifs <;> omega

theorem roundHalfEven_one (n : Nat) : roundHalfEven n 1 = n := by
  simp [roundHalfEven, Nat.mod_one]

theorem le_roundHalfEven (num den : Nat) : num / den ≤ roundHalfEven num den := by
  simp only [roundHalfEven]
  split_ifs <;> omega

/-- The mantissa has 53 bits, or is the next power of two after rounding. -/
theorem scaledDown_bounds {n : Nat} (hn : n ≠ 0) :
    2 ^ 52 ≤ scaledDown n 1 (n.log2 - 52) ∧ scaledDown n 1 (n.log2 - 52) ≤ 2 ^ 53 := by
  have hle : 2 ^ n.log2 ≤ n := Nat.log2_self_le hn
  have hlt : n < 2 ^ (n.log2 + 1) := Nat.lt_log2_self
  simp only [scaledDown, Nat.pow_eq, one_mul]
  split_ifs with hlarge
  · obtain ⟨k, hk⟩ : ∃ k, k = ((n.log2 : Int) - 52).toNat := ⟨_, rfl⟩
    have hlower : 2 ^ 52 ≤ n / 2 ^ k := by
      rw [Nat.le_div_iff_mul_le (by positivity), ← pow_add]
      exact le_trans (Nat.pow_le_pow_right two_pos (by omega)) hle
    have hupper : n / 2 ^ k < 2 ^ 53 := by
      rw [Nat.div_lt_iff_lt_mul (by positivity), ← pow_add]
      exact hlt.trans_le (Nat.pow_le_pow_right two_pos (by omega))
    have hround := le_roundHalfEven n (2 ^ k)
    have hround' := roundHalfEven_le n (2 ^ k)
    rw [← hk]
    omega
  · obtain ⟨k, hk⟩ : ∃ k, k = (-((n.log2 : Int) - 52)).toNat := ⟨_, rfl⟩
    rw [roundHalfEven_one, ← hk]
    constructor
    · calc 2 ^ 52 = 2 ^ n.log2 * 2 ^ k := by rw [← pow_add]; congr 1; omega
        _ ≤ n * 2 ^ k := Nat.mul_le_mul_right _ hle
    · calc n * 2 ^ k ≤ 2 ^ (n.log2 + 1) * 2 ^ k := Nat.mul_le_mul_right _ hlt.le
        _ = 2 ^ 53 := by rw [← pow_add]; congr 1; omega

theorem magnitude_mul_two (m : Nat) (e : Int) : magnitude (m * 2) e = magnitude m (e + 1) := by
  rw [magnitude, magnitude, zpow_add_one₀ two_ne_zero]
  push_cast
  ring

/-- The number that the nearest float stands for. -/
theorem ofFloat?_nearest {n : Nat} (hn : n ≠ 0) (h : n < 2 ^ 64) :
    ∃ b, ofFloat? (nearest n 1) = some b ∧
      b.value = magnitude (scaledDown n 1 (n.log2 - 52)) (n.log2 - 52) := by
  have hlog : n.log2 ≤ 63 := log2_le h
  obtain ⟨hlower, hupper⟩ := scaledDown_bounds hn
  rw [nearest, if_neg hn, exponentFor_eq hn h]
  simp only [Nat.pow_eq]
  generalize scaledDown n 1 (n.log2 - 52) = s at *
  rw [Nat.min_eq_left (by omega)]
  rcases hupper.lt_or_eq with hlt | rfl
  · exact ⟨_, ofFloat?_ofBits hlower hlt (by omega) (by omega), rfl⟩
  · have hcarry : ((n.log2 : Int) - 52 + 1074).toNat * 2 ^ 52 + 2 ^ 53 =
        ((n.log2 : Int) - 52 + 1 + 1074).toNat * 2 ^ 52 + 2 ^ 52 := by omega
    rw [hcarry]
    refine ⟨_, ofFloat?_ofBits le_rfl (by omega) (by omega) (by omega), ?_⟩
    exact (magnitude_mul_two (2 ^ 52) _).symm

theorem valueOf_of_ofFloat? {x : Float} {b : Binary} (h : ofFloat? x = some b) :
    valueOf x = b.value := by
  rw [valueOf, h]

theorem isFinite_of_ofFloat? {x : Float} {b : Binary} (h : ofFloat? x = some b) : x.isFinite := by
  rw [← isSome_ofFloat?, h]
  rfl

theorem isFinite_nearest {n : Nat} (h : n < 2 ^ 64) : (nearest n 1).isFinite :=
  isFinite_of_below_toModel (below_nearest h)

theorem valueOf_nearest {n : Nat} (hn : n ≠ 0) (h : n < 2 ^ 64) :
    valueOf (nearest n 1) = magnitude (scaledDown n 1 (n.log2 - 52)) (n.log2 - 52) := by
  obtain ⟨b, hb, hvalue⟩ := ofFloat?_nearest hn h
  rw [valueOf_of_ofFloat? hb, hvalue]

theorem valueOf_zero : valueOf 0.0 = 0 := by
  rw [valueOf_of_ofFloat? (b := ⟨false, 0, -1074⟩) rfl]
  simp [value, magnitude]

/-- A number of at most 53 bits is a float. -/
theorem valueOf_nearest_of_lt {n : Nat} (h : n < 2 ^ 53) : valueOf (nearest n 1) = n := by
  by_cases hn : n = 0
  · rw [hn, nearest, if_pos rfl, valueOf_zero, Nat.cast_zero]
  · have hlog : n.log2 ≤ 52 := log2_le h
    obtain ⟨k, hk⟩ : ∃ k : Nat, (n.log2 : Int) - 52 = -k := ⟨52 - n.log2, by omega⟩
    have hscaled : scaledDown n 1 (-k : Int) = n * 2 ^ k := by
      rw [scaledDown]
      split_ifs with hlarge
      · have hzero : k = 0 := by omega
        rw [hzero]
        simp [roundHalfEven_one]
      · rw [roundHalfEven_one, neg_neg, Int.toNat_natCast, Nat.pow_eq]
    rw [valueOf_nearest hn (by omega), hk, hscaled, magnitude]
    push_cast
    rw [mul_assoc, ← zpow_natCast, ← zpow_add₀ two_ne_zero, add_neg_cancel, zpow_zero, mul_one]

theorem scaledDown_mono {m n : Nat} (e : Int) (h : m ≤ n) :
    scaledDown m 1 e ≤ scaledDown n 1 e := by
  simp only [scaledDown]
  split_ifs
  · exact roundHalfEven_mono _ h
  · exact roundHalfEven_mono _ (Nat.mul_le_mul_right _ h)

theorem magnitude_nonneg (m : Nat) (e : Int) : 0 ≤ magnitude m e := by
  rw [magnitude]
  positivity

theorem valueOf_nearest_nonneg {n : Nat} (h : n < 2 ^ 64) : 0 ≤ valueOf (nearest n 1) := by
  by_cases hn : n = 0
  · rw [hn, nearest, if_pos rfl, valueOf_zero]
  · rw [valueOf_nearest hn h]
    exact magnitude_nonneg _ _

/-- Of two whole numbers the smaller one does not have the greater float. -/
theorem valueOf_nearest_mono {m n : Nat} (hmn : m ≤ n) (h : n < 2 ^ 64) :
    valueOf (nearest m 1) ≤ valueOf (nearest n 1) := by
  by_cases hm : m = 0
  · rw [hm, nearest, if_pos rfl, valueOf_zero]
    exact valueOf_nearest_nonneg h
  · have hn : n ≠ 0 := by omega
    have hlog : m.log2 ≤ n.log2 := (Nat.le_log2 hn).mpr ((Nat.log2_self_le hm).trans hmn)
    rw [valueOf_nearest hm (by omega), valueOf_nearest hn h]
    rcases hlog.lt_or_eq with hlt | heq
    · calc magnitude (scaledDown m 1 (m.log2 - 52)) (m.log2 - 52)
          ≤ magnitude (2 ^ 52 * 2) (m.log2 - 52) :=
            (magnitude_strictMono _).monotone (scaledDown_bounds hm).2
        _ = magnitude (2 ^ 52) (m.log2 - 52 + 1) := magnitude_mul_two _ _
        _ ≤ magnitude (2 ^ 52) (n.log2 - 52) := by
            simp only [magnitude]
            gcongr
            exacts [one_le_two, by omega]
        _ ≤ magnitude (scaledDown n 1 (n.log2 - 52)) (n.log2 - 52) :=
            (magnitude_strictMono _).monotone (scaledDown_bounds hn).1
    · rw [heq]
      exact (magnitude_strictMono _).monotone (scaledDown_mono _ hmn)

theorem place_neg {u : UnpackedFloat} (h : u ≠ .notANumber) : place u.neg = -place u := by
  rcases u with (_ | _) | _ | (_ | _) | ⟨_ | _, m, e, hm⟩ <;>
    first
    | contradiction
    | simp only [UnpackedFloat.neg, place, neg_neg, neg_zero]

theorem valueOf_neg {x : Float} (h : x.isNaN = false) : valueOf (-x) = -valueOf x := by
  rw [valueOf_eq, valueOf_eq, unpack_float_neg, place_neg (unpack_ne_notANumber h)]

/-- A magnitude with a sign, as a float. -/
theorem toFloat_whole (negative : Bool) (n : Nat) :
    toFloat ⟨negative, n, 0⟩ = if negative then -nearest n 1 else nearest n 1 := by
  have hone : n * Nat.pow 2 (Int.toNat 0) = n := Nat.mul_one n
  simp only [toFloat, le_refl, if_true, hone]

theorem isFinite_toFloat_whole (negative : Bool) {n : Nat} (h : n < 2 ^ 64) :
    (toFloat ⟨negative, n, 0⟩).isFinite := by
  rw [toFloat_whole]
  split
  · exact isFinite_neg (isFinite_nearest h)
  · exact isFinite_nearest h

theorem valueOf_toFloat_whole (negative : Bool) {n : Nat} (h : n < 2 ^ 64) :
    valueOf (toFloat ⟨negative, n, 0⟩) =
      if negative then -valueOf (nearest n 1) else valueOf (nearest n 1) := by
  rw [toFloat_whole, apply_ite valueOf, valueOf_neg (isNaN_of_isFinite (isFinite_nearest h))]

theorem isFinite_ofInt (n : Int64) : (ofInt n.toInt).isFinite := by
  have hle := n.le_toInt
  have hlt := n.toInt_lt
  exact isFinite_toFloat_whole _ (by omega)

/-- Integers keep their order as floats, though different ones may have the same float. -/
theorem valueOf_ofInt_mono {m n : Int64} (h : m.toInt ≤ n.toInt) :
    valueOf (ofInt m.toInt) ≤ valueOf (ofInt n.toInt) := by
  have hmle := m.le_toInt
  have hmlt := m.toInt_lt
  have hnle := n.le_toInt
  have hnlt := n.toInt_lt
  have hm : m.toInt.natAbs < 2 ^ 64 := by omega
  have hn : n.toInt.natAbs < 2 ^ 64 := by omega
  rw [ofInt, ofInt, valueOf_toFloat_whole _ hm, valueOf_toFloat_whole _ hn]
  have hmnonneg := valueOf_nearest_nonneg hm
  have hnnonneg := valueOf_nearest_nonneg hn
  simp only [decide_eq_true_eq]
  split_ifs with hmneg hnneg hnneg
  · exact neg_le_neg (valueOf_nearest_mono (by omega) hm)
  · linarith
  · omega
  · exact valueOf_nearest_mono (by omega) hn

end Binary

end Stencil

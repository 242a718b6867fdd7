import Stencil.Proofs.Number.Integers
import Stencil.Builtin

/-!
# Arithmetic on integers

An operation on two integers has an integer for its value if there is a whole result and it fits
into 64 bits, and a float otherwise. One remainder is left out: that of the least integer by minus
one, whose quotient does not fit.
-/

namespace Stencil

theorem int64?_eq_some_iff {n : Int} {m : Int64} : int64? n = some m ↔ m.toInt = n := by
  constructor
  · intro h
    rw [int64?, Option.ite_none_right_eq_some, Option.some_inj] at h
    obtain ⟨⟨hle, hlt⟩, rfl⟩ := h
    exact Int64.toInt_ofInt_of_le (by omega) (by omega)
  · rintro rfl
    have hle := m.le_toInt
    have hlt := m.toInt_lt
    rw [int64?, if_pos (by omega), Int64.ofInt_toInt]

theorem int64?_eq_none_iff {n : Int} :
    int64? n = none ↔ n < -9223372036854775808 ∨ 9223372036854775807 < n := by
  rw [int64?, ite_eq_right_iff]
  simp only [reduceCtorEq, imp_false]
  omega

/-- The quotient of 64 bit integers fits into 64 bits but for one. -/
theorem int64?_tdiv_eq_none_iff {a b : Int64} (hb : b ≠ 0) :
    int64? (a.toInt.tdiv b.toInt) = none ↔ a = Int64.minValue ∧ b = -1 := by
  have hle := a.le_toInt
  have hlt := a.toInt_lt
  have hne : b.toInt ≠ 0 := fun h => hb (Int64.toInt_inj.mp h)
  have hmin : a = Int64.minValue ↔ a.toInt = -9223372036854775808 := Int64.toInt_inj.symm
  have hminus : b = -1 ↔ b.toInt = -1 := Int64.toInt_inj.symm
  rw [int64?_eq_none_iff, hmin, hminus]
  by_cases hone : b.toInt = -1
  · rw [hone, Int.tdiv_neg, Int.tdiv_one]
    omega
  · have habs : (a.toInt.tdiv b.toInt).natAbs = a.toInt.natAbs / b.toInt.natAbs :=
      Int.natAbs_tdiv a.toInt b.toInt
    by_cases hpos : b.toInt = 1
    · rw [hpos, Int.tdiv_one]
      omega
    · have hhalf : a.toInt.natAbs / b.toInt.natAbs ≤ a.toInt.natAbs / 2 :=
        Nat.div_le_div_left (by omega) (by decide)
      omega

namespace Arith

/-- The whole number `r` is the mathematical result. A remainder is smaller than the divisor and has
the sign of the dividend. -/
def Exact : Arith → Int → Int → Int → Prop
  | add, a, b, r => r = a + b
  | sub, a, b, r => r = a - b
  | mul, a, b, r => r = a * b
  | div, a, b, r => b * r = a
  | rem, a, b, r => (∃ q, b * q + r = a) ∧ r.natAbs < b.natAbs ∧ (r = 0 ∨ r.sign = a.sign)

theorem exact_div_iff {a b q : Int} (hb : b ≠ 0) :
    div.Exact a b q ↔ a.tmod b = 0 ∧ q = a.tdiv b := by
  constructor
  · rintro rfl
    exact ⟨Int.mul_tmod_right b q, (Int.mul_tdiv_cancel_left q hb).symm⟩
  · rintro ⟨hmod, rfl⟩
    exact Int.mul_tdiv_cancel_of_tmod_eq_zero hmod

theorem tmod_eq_of_sign {a b q r : Int} (h : b * q + r = a) (hlt : r.natAbs < b.natAbs)
    (hsign : r = 0 ∨ r.sign = a.sign) : a.tmod b = r := by
  have hb : b ≠ 0 := by omega
  rcases Int.le_total 0 a with ha | ha
  · have hr : 0 ≤ r := by grind
    have hsum : r + b * q = a := by omega
    exact ((Int.tdiv_tmod_unique ha hb).mpr ⟨hsum, hr, by omega⟩).2
  · have hr : r ≤ 0 := by grind
    have hsum : -r + b * -q = -a := by
      rw [Int.mul_neg]
      omega
    have hmod : (-a).tmod b = -r :=
      ((Int.tdiv_tmod_unique (by omega) hb).mpr ⟨hsum, by omega, by omega⟩).2
    rw [Int.neg_tmod] at hmod
    omega

theorem exact_rem_iff {a b r : Int} (hb : b ≠ 0) : rem.Exact a b r ↔ r = a.tmod b := by
  constructor
  · rintro ⟨⟨q, h⟩, hlt, hsign⟩
    exact (tmod_eq_of_sign h hlt hsign).symm
  · rintro rfl
    refine ⟨⟨a.tdiv b, Int.mul_tdiv_add_tmod a b⟩, ?_, ?_⟩
    · have habs : (a.tmod b).natAbs = a.natAbs % b.natAbs := Int.natAbs_tmod a b
      rw [habs]
      exact Nat.mod_lt _ (by omega)
    · by_cases hdvd : b ∣ a
      · exact .inl (Int.tmod_eq_zero_of_dvd hdvd)
      · exact .inr (by rw [Int.sign_tmod, if_neg hdvd])

/-- The one operation whose result fits and is not found, since the quotient does not. -/
def Excepted (op : Arith) (a b : Int64) : Prop :=
  op = rem ∧ a = Int64.minValue ∧ b = -1

theorem not_excepted {op : Arith} (hop : op ≠ rem) (a b : Int64) : ¬ op.Excepted a b :=
  fun h => hop h.1

/-- The integers that an operation finds are the mathematical results that fit, but for one. -/
theorem onIntegers?_eq_some_iff {op : Arith} {a b n : Int64} (h : op.divides = true → b ≠ 0) :
    op.onIntegers? a.toInt b.toInt = some n ↔
      op.Exact a.toInt b.toInt n.toInt ∧ ¬ op.Excepted a b := by
  have hne (hb : b ≠ 0) : b.toInt ≠ 0 := fun h => hb (Int64.toInt_inj.mp h)
  cases op with
  | add | sub | mul =>
    rw [and_iff_left (not_excepted (by decide) a b)]
    exact int64?_eq_some_iff
  | div =>
    rw [and_iff_left (not_excepted (by decide) a b), exact_div_iff (hne (h rfl)), onIntegers?,
      Option.ite_none_right_eq_some, int64?_eq_some_iff]
  | rem =>
    have hquotient := int64?_tdiv_eq_none_iff (a := a) (h rfl)
    rw [exact_rem_iff (hne (h rfl)), Excepted, and_iff_right rfl, ← hquotient]
    change (int64? (a.toInt.tdiv b.toInt)).bind (fun _ => int64? (a.toInt.tmod b.toInt)) = some n ↔ _
    cases int64? (a.toInt.tdiv b.toInt) <;> simp [int64?_eq_some_iff]

end Arith

namespace Number

/-- Division by zero fails. Any other operation on integers has the result that is found, and else
the one of their floats. -/
theorem arith?_integers (op : Arith) (a b : Int64) :
    arith? op (integer a) (integer b) = if op.divides = true ∧ b = 0 then none else
      some (((op.onIntegers? a.toInt b.toInt).map integer).getD
        (onFloats op (integer a) (integer b))) := by
  have hzero : (op.divides && (integer b).toFloat == 0.0) = true ↔ op.divides = true ∧ b = 0 := by
    rw [Bool.and_eq_true]
    exact and_congr_right fun _ => Binary.ofInt_beq_zero_iff
  rw [arith?]
  simp only [hzero]

end Number

namespace Value

theorem binary_integers (op : Arith) (a b : Int64) :
    binary (.arith op) (integer a) (integer b) = if op.divides = true ∧ b = 0 then
        .error .divisionByZero
      else .ok (((op.onIntegers? a.toInt b.toInt).map integer).getD
        (float (op.onFloats (Binary.ofInt a.toInt) (Binary.ofInt b.toInt)))) := by
  have harith : binary (.arith op) (integer a) (integer b) = arith op (integer a) (integer b) := by
    cases op <;> rfl
  rw [harith]
  simp only [arith, numeric?, Number.arith?_integers]
  by_cases h : op.divides = true ∧ b = 0
  · rw [if_pos h, if_pos h]
  · rw [if_neg h, if_neg h]
    cases op.onIntegers? a.toInt b.toInt <;> rfl

end Value

namespace Eval

theorem evaluate_arith {op : Arith} {r : Registry} {limit depth : Nat} {here : Trail}
    {scope : Scope} {left right : Expr} {v w : Value}
    (hleft : evaluate r limit depth (here.part 0) left scope = .ok v)
    (hright : evaluate r limit depth (here.part 1) right scope = .ok w) :
    evaluate r limit (depth + 1) here (.binary (.arith op) left right) scope =
      v.binary (.arith op) w := by
  rw [evaluate, Level.expression]
  · simp only [hleft, hright]
    rfl
  · intro h
    cases h
  · intro h
    cases h

/-- Division by zero fails. The value of any other operation on integers is an integer or a float,
and the integer is the mathematical result. It is found whenever it fits, but for one remainder. -/
theorem evaluate_arith_integers (op : Arith) {r : Registry} {limit depth : Nat} {here : Trail}
    {scope : Scope} {left right : Expr} {a b : Int64} {result : Outcome}
    (hleft : evaluate r limit depth (here.part 0) left scope = .ok (.integer a))
    (hright : evaluate r limit depth (here.part 1) right scope = .ok (.integer b))
    (hresult : evaluate r limit (depth + 1) here (.binary (.arith op) left right) scope = result) :
    (op.divides = true ∧ b = 0 → result = .error .divisionByZero) ∧
      (¬ (op.divides = true ∧ b = 0) →
        (∀ n, result = .ok (.integer n) ↔
          op.Exact a.toInt b.toInt n.toInt ∧ ¬ op.Excepted a b) ∧
        ((∃ n, result = .ok (.integer n)) ∨ ∃ x, result = .ok (.float x))) ∧
      (op.Excepted a b → op.Exact a.toInt b.toInt 0 ∧ ∃ x, result = .ok (.float x)) := by
  have hvalue := (evaluate_arith hleft hright).symm.trans hresult
  rw [Value.binary_integers] at hvalue
  subst hvalue
  refine ⟨fun h => if_pos h, fun h => ?_, ?_⟩
  · rw [if_neg h]
    have hfound (n : Int64) := Arith.onIntegers?_eq_some_iff (a := a) (n := n) (not_and.mp h)
    simp only [← hfound]
    cases op.onIntegers? a.toInt b.toInt <;> simp
  · rintro ⟨rfl, rfl, rfl⟩
    have hzero : (-1 : Int64).toInt * 9223372036854775808 + 0 = Int64.minValue.toInt := by decide
    have hnone : Arith.rem.onIntegers? Int64.minValue.toInt (-1 : Int64).toInt = none := by decide
    rw [if_neg (by decide), hnone]
    exact ⟨⟨⟨_, hzero⟩, by decide, .inl rfl⟩, _, rfl⟩

theorem evaluate_arith_integers_of_remainder :
    evaluate .builtins 256 255 (Trail.part [] 0) (.integer (-7)) [] = .ok (.integer (-7)) ∧
      evaluate .builtins 256 255 (Trail.part [] 1) (.integer 2) [] = .ok (.integer 2) ∧
      evaluate .builtins 256 256 []
          (.binary (.arith .rem) (.integer (-7)) (.integer 2)) [] = .ok (.integer (-1)) := by
  have hleft :
      evaluate .builtins 256 255 (Trail.part [] 0) (.integer (-7)) [] = .ok (.integer (-7)) := rfl
  have hright : evaluate .builtins 256 255 (Trail.part [] 1) (.integer 2) [] = .ok (.integer 2) :=
    rfl
  have hexact : Arith.rem.Exact (-7 : Int64).toInt (2 : Int64).toInt (-1 : Int64).toInt :=
    ⟨⟨-3, by decide⟩, by decide, by decide⟩
  have hexcepted : ¬ Arith.rem.Excepted (-7) 2 := fun h => absurd h.2.1 (by decide)
  obtain ⟨-, hvalue, -⟩ := evaluate_arith_integers .rem hleft hright rfl
  exact ⟨hleft, hright, ((hvalue (by decide)).1 (-1)).mpr ⟨hexact, hexcepted⟩⟩

end Eval

end Stencil

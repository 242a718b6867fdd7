import Stencil.Eval.Operators
import Stencil.Proofs.Number.Integers
import Stencil.Proofs.Value.Matching

/-!
# Equality and order

The order looks at integers as they are, also where one of them is written as a text, and the
equality of a number and a text looks at their floats. The two agree but for integers too large to
be told apart as floats. Both are the same from either side, and neither sees the order of members.
-/

namespace Stencil

namespace Number

/-- Different integers that have the same float. -/
def Collides (a b : Number) : Prop :=
  ∃ m n, a = integer m ∧ b = integer n ∧ m ≠ n ∧ Binary.ofInt m.toInt == Binary.ofInt n.toInt

theorem compare?_integers_eq_eq {m n : Int64} {o : Ordering}
    (h : (integer m).compare? (integer n) = some o) : o = .eq ↔ m = n := by
  rw [← Option.some_inj.mp h, Std.LawfulEqCmp.compare_eq_iff_eq, Int64.toInt_inj]

theorem not_collides_of_compare?_eq {a b : Number} (h : a.compare? b = some .eq) :
    ¬ a.Collides b := by
  rintro ⟨m, n, rfl, rfl, hne, -⟩
  exact hne ((compare?_integers_eq_eq h).mp rfl)

/-- Numbers that compare have the same float if they are equal, and if they collide. -/
theorem toFloat_beq_iff {a b : Number} {o : Ordering} (h : a.compare? b = some o) :
    a.toFloat == b.toFloat ↔ o = .eq ∨ a.Collides b := by
  have hfloats (hcompare : compareFloats a.toFloat b.toFloat = some o)
      (hcollides : ¬ a.Collides b) : a.toFloat == b.toFloat ↔ o = .eq ∨ a.Collides b := by
    rw [← compareFloats_eq_some_eq_iff, hcompare, Option.some_inj, or_iff_left hcollides]
  cases a with
  | float x => exact hfloats h (by simp [Collides])
  | integer m =>
    cases b with
    | float y => exact hfloats h (by simp [Collides])
    | integer n =>
      rw [compare?_integers_eq_eq h]
      constructor
      · intro hfloat
        by_cases hmn : m = n
        · exact .inl hmn
        · exact .inr ⟨m, n, rfl, rfl, hmn, hfloat⟩
      · rintro (rfl | ⟨_, _, ⟨rfl⟩, ⟨rfl⟩, -, hfloat⟩)
        · exact Binary.ofInt_beq_self m
        · exact hfloat

end Number

namespace Value

variable {v w : Value}

theorem compareChars_eq_eq_iff {as bs : List Char} :
    compare?.compareChars as bs = .eq ↔ as = bs := by
  induction as generalizing bs with
  | nil => cases bs <;> simp [compare?.compareChars]
  | cons a as ih =>
    cases bs with
    | nil => simp [compare?.compareChars]
    | cons b bs =>
      rw [compare?.compareChars, Ordering.then_eq_eq, ih, Std.LawfulEqCmp.compare_eq_iff_eq,
        Char.toNat_inj, List.cons.injEq]

theorem compareChars_swap (as bs : List Char) :
    compare?.compareChars bs as = (compare?.compareChars as bs).swap := by
  induction as generalizing bs with
  | nil => cases bs <;> rfl
  | cons a as ih =>
    cases bs with
    | nil => rfl
    | cons b bs =>
      rw [compare?.compareChars, compare?.compareChars, Ordering.swap_then, Nat.compare_swap, ih]

/-- One of the values is a text, and what it writes collides with the other one. -/
def Collides (v w : Value) : Prop :=
  v.isString ≠ w.isString ∧ ∃ a b, v.number? = some a ∧ w.number? = some b ∧ a.Collides b

/-- The order of two values that are not both texts is the one of their numbers. -/
theorem compare?_eq_bind (h : v.isString = false ∨ w.isString = false) :
    v.compare? w = v.number?.bind fun a => w.number?.bind fun b => a.compare? b := by
  cases v <;> cases w <;> first | rfl | simp [isString] at h

theorem compare?_eq_some_iff {o : Ordering} (h : v.isString = false ∨ w.isString = false) :
    v.compare? w = some o ↔
      ∃ a b, v.number? = some a ∧ w.number? = some b ∧ a.compare? b = some o := by
  rw [compare?_eq_bind h]
  simp only [Option.bind_eq_some_iff, exists_and_left]

/-- A number and a text, or an integer and a float, are equal if their floats are. -/
theorem equals_eq_toFloat {a b : Number} (ha : v.number? = some a) (hb : w.number? = some b)
    (hkind : v.kind ≠ w.kind) : v.equals w = (a.toFloat == b.toFloat) := by
  have hnumbers : v.equalNumbers w = (a.toFloat == b.toFloat) := by
    rw [equalNumbers, ha, hb]
  rw [← hnumbers]
  cases v <;> cases w <;>
    first | rfl | exact absurd rfl hkind | simp [number?] at ha hb

theorem not_collides_of_kind_eq (h : v.kind = w.kind) : ¬ v.Collides w := by
  have hstring {u : Value} : u.isString = decide (u.kind = .string) := by cases u <;> rfl
  rintro ⟨hne, -⟩
  exact hne (by rw [hstring, hstring, h])

theorem collides_iff {a b : Number} (ha : v.number? = some a) (hb : w.number? = some b) :
    v.Collides w ↔ v.isString ≠ w.isString ∧ a.Collides b := by
  simp [Collides, ha, hb]

theorem collides_iff_of_kind_ne {a b : Number} (ha : v.number? = some a) (hb : w.number? = some b)
    (hkind : v.kind ≠ w.kind) : v.Collides w ↔ a.Collides b := by
  rw [collides_iff ha hb, and_iff_right_iff_imp]
  rintro ⟨m, n, rfl, rfl, -⟩
  cases v <;> cases w <;> simp_all [isString, kind, number?]

/-- Values that compare are equal if the order says so, and if they collide. -/
theorem equals_iff_of_compare?_eq {o : Ordering} (h : v.compare? w = some o) :
    v.equals w ↔ o = .eq ∨ v.Collides w := by
  by_cases hkind : v.kind = w.kind
  · rw [or_iff_left (not_collides_of_kind_eq hkind)]
    cases v <;> cases w <;> simp [kind] at hkind
    case integer.integer m n =>
      rw [Number.compare?_integers_eq_eq h]
      simp [equals, equalScalars]
    case float.float x y =>
      change (x == y) = true ↔ _
      rw [← Number.compareFloats_eq_some_eq_iff, show Number.compareFloats x y = some o from h,
        Option.some_inj]
    case string.string s t =>
      rw [← Option.some_inj.mp h, compareChars_eq_eq_iff, String.toList_inj]
      simp [equals, equalScalars]
    all_goals simp [compare?, number?] at h
  · have htexts : v.isString = false ∨ w.isString = false := by
      cases v <;> cases w <;> simp_all [isString, kind]
    obtain ⟨a, b, ha, hb, hab⟩ := (compare?_eq_some_iff htexts).mp h
    rw [equals_eq_toFloat ha hb hkind, Number.toFloat_beq_iff hab,
      collides_iff_of_kind_ne ha hb hkind]

theorem compare?_ne_eq_of_collides {o : Ordering} (h : v.compare? w = some o)
    (hcollides : v.Collides w) : o ≠ .eq := by
  rintro rfl
  have htexts : v.isString = false ∨ w.isString = false := by
    have hne := hcollides.1
    cases hv : v.isString <;> simp_all
  obtain ⟨a, b, ha, hb, h⟩ := (compare?_eq_some_iff htexts).mp h
  exact Number.not_collides_of_compare?_eq h ((collides_iff ha hb).mp hcollides).2

/-- Equality says the same as the order unless the values collide. Only values that collide are
equal and one less than the other. -/
theorem equals_iff_compare? {o : Ordering} (h : v.compare? w = some o) :
    ((v.equals w ↔ o = .eq) ↔ ¬ v.Collides w) ∧
      (binary .equal v w = .ok (boolean true) ∧
        (binary (.order .less) v w = .ok (boolean true) ∨
          binary (.order .greater) v w = .ok (boolean true)) ↔ v.Collides w) := by
  have hequals := equals_iff_of_compare?_eq h
  have hne := compare?_ne_eq_of_collides h
  have horder (op : Comparison) : order op v w = .ok (boolean (op.holds o)) := by
    rw [order, h]
  have hholds : Comparison.less.holds o ∨ Comparison.greater.holds o ↔ o ≠ .eq := by
    cases o <;> simp [Comparison.holds]
  constructor
  · rw [hequals]
    tauto
  · simp only [binary, horder, Except.ok.injEq, boolean.injEq, hholds, hequals]
    tauto

/-- An integer whose successor has the same float. -/
theorem equals_iff_compare?_of_large :
    (integer 9007199254740992).compare? (string "9007199254740993") = some .lt ∧
      (integer 9007199254740992).Collides (string "9007199254740993") ∧
      binary .equal (integer 9007199254740992) (string "9007199254740993") = .ok (boolean true) := by
  have h : (integer 9007199254740992).compare? (string "9007199254740993") = some .lt := by decide
  have hcollides : (integer 9007199254740992).Collides (string "9007199254740993") :=
    ⟨by decide, .integer 9007199254740992, .integer 9007199254740993, rfl, rfl, 9007199254740992,
      9007199254740993, rfl, rfl, by decide, by decide⟩
  exact ⟨h, hcollides, ((equals_iff_compare? h).2.mpr hcollides).1⟩

theorem equalNumbers_comm (v w : Value) : w.equalNumbers v = v.equalNumbers w := by
  rw [equalNumbers, equalNumbers]
  cases v.number? with
  | none => cases w.number? <;> rfl
  | some a =>
    cases w.number? with
    | none => rfl
    | some b => exact Number.float_beq_comm b.toFloat a.toFloat

theorem equalScalars_comm (v w : Value) : equalScalars w v = equalScalars v w := by
  cases v <;> cases w <;> simp only [equalScalars] <;>
    first | exact equalNumbers_comm _ _ | simp only [eq_comm]

theorem equalScalars_of_sameScalars (h : sameScalars v w) : equalScalars v w := by
  cases v <;> cases w <;> first | exact h | cases h

theorem compare?_swap (v w : Value) : w.compare? v = (v.compare? w).map Ordering.swap := by
  by_cases h : v.isString = false ∨ w.isString = false
  · rw [compare?_eq_bind h, compare?_eq_bind h.symm]
    cases v.number? with
    | none => cases w.number? <;> rfl
    | some a =>
      cases w.number? with
      | none => rfl
      | some b => exact Number.compare?_swap a b
  · cases v <;> cases w <;> simp [isString] at h
    exact congrArg some (compareChars_swap _ _)

theorem compare?_of_isNode (h : v.isNode = true) (w : Value) : v.compare? w = none := by
  cases v <;> first | rfl | simp [isNode] at h

theorem compare?_congr_left {v' : Value} (hv : Reordered v v') (w : Value) :
    v'.compare? w = v.compare? w := by
  cases hv with
  | leaf _ _ h => rw [h]
  | _ => rw [compare?_of_isNode rfl, compare?_of_isNode rfl]

theorem compare?_congr {v' w' : Value} (hv : Reordered v v') (hw : Reordered w w') :
    v'.compare? w' = v.compare? w := by
  rw [compare?_congr_left hv, compare?_swap w', compare?_congr_left hw, ← compare?_swap]

/-- Both equalities and the order are the same from either side and for any order of members, and
what is the same is equal. -/
theorem comparisons_symmetric (hv : v.Distinct) (hw : w.Distinct) :
    w.equals v = v.equals w ∧ w.compare? v = (v.compare? w).map Ordering.swap ∧
      (v.same w → v.equals w) ∧
      ∀ v' w' : Value, v'.Distinct → w'.Distinct → Reordered v v' → Reordered w w' →
        v'.equals w' = v.equals w ∧ v'.same w' = v.same w ∧ v'.compare? w' = v.compare? w := by
  refine ⟨?_, compare?_swap v w, ?_, ?_⟩
  · rw [Bool.eq_iff_iff, compares_equals.iff_matches hv hw, compares_equals.iff_matches hw hv]
    have hcomm (v w : Value) : equalScalars w v → equalScalars v w := by
      rw [equalScalars_comm]
      exact id
    exact ⟨fun h => h.flip.mono hcomm, fun h => h.flip.mono hcomm⟩
  · rw [compares_same.iff_matches hv hw, compares_equals.iff_matches hv hw]
    exact Matches.mono fun _ _ => equalScalars_of_sameScalars
  · intro v' w' hv' hw' hvv' hww'
    refine ⟨?_, ?_, compare?_congr hvv' hww'⟩
    · rw [Bool.eq_iff_iff, compares_equals.iff_matches hv hw, compares_equals.iff_matches hv' hw',
        matches_congr hvv' hww']
    · rw [Bool.eq_iff_iff, compares_same.iff_matches hv hw, compares_same.iff_matches hv' hw',
        matches_congr hvv' hww']

/-- The members of a pair of coordinates. -/
def coordinates : Fields Value :=
  [("x", .integer 1), ("y", .ofItems [.string "2", .null])]

/-- The same coordinates, written in another way and in the other order. -/
def spelledCoordinates : Value :=
  .ofMembers [("y", .ofItems [.float 2.0, .null]), ("x", .string "1")]

theorem comparisons_symmetric_of_coordinates :
    (ofMembers coordinates).Distinct ∧ spelledCoordinates.Distinct ∧
      Reordered (ofMembers coordinates) (ofMembers coordinates.reverse) ∧
      spelledCoordinates.equals (ofMembers coordinates) = true ∧
      (ofMembers coordinates.reverse).equals spelledCoordinates = true ∧
      (ofMembers coordinates.reverse).compare? spelledCoordinates = none := by
  have hv : (ofMembers coordinates).Distinct := by decide
  have hw : spelledCoordinates.Distinct := by decide
  have hv' : (ofMembers coordinates.reverse).Distinct := by decide
  have hreordered : Reordered (ofMembers coordinates) (ofMembers coordinates.reverse) :=
    Reordered.of_perm (by decide) (List.reverse_perm _).symm
  have hequals : (ofMembers coordinates).equals spelledCoordinates = true := by decide
  obtain ⟨hcomm, -, -, hcongr⟩ := comparisons_symmetric hv hw
  obtain ⟨hturned, -, hcompare⟩ := hcongr _ _ hv' hw hreordered (Reordered.refl _)
  exact ⟨hv, hw, hreordered, hcomm.trans hequals, hturned.trans hequals, hcompare⟩

end Value
end Stencil

import Stencil.Proofs.Eval.Applications
import Stencil.Proofs.Value.Comparison

/-!
# Elements of arrays

Whether an array contains a text or a number is asked of two overloads, and the kind of what is
looked for picks one of them. A text is contained if it is an element. A number is contained if
some number in the array is equal to it, or is another integer that has the same float.
-/

namespace Stencil

namespace Value

/-- Some number in an array is equal to the value. -/
def HasEqual (items : List Value) (v : Value) : Prop :=
  ∃ a : Number, ofNumber a ∈ items ∧ binary .equal (ofNumber a) v = .ok (boolean true)

/-- Some integer in an array is another one than the number, and has the same float. -/
def HasColliding (items : List Value) (n : Number) : Prop :=
  ∃ a : Number, ofNumber a ∈ items ∧ a.Collides n

/-- Numbers have the same float if they are equal, and if they collide. -/
theorem toFloat_beq_iff_equal (a b : Number) :
    a.toFloat == b.toFloat ↔
      binary .equal (ofNumber a) (ofNumber b) = .ok (boolean true) ∨ a.Collides b := by
  have hequal : binary .equal (ofNumber a) (ofNumber b) = .ok (boolean true) ↔
      (ofNumber a).equals (ofNumber b) = true := by
    simp [binary]
  rw [hequal]
  cases a with
  | float x =>
    have hcollides : ¬ (Number.float x).Collides b := by simp [Number.Collides]
    rw [or_iff_left hcollides]
    cases b <;> exact Iff.rfl
  | integer m =>
    cases b with
    | float y =>
      have hcollides : ¬ (Number.integer m).Collides (.float y) := by simp [Number.Collides]
      rw [or_iff_left hcollides]
      exact Iff.rfl
    | integer n =>
      have hcompare : (Number.integer m).compare? (.integer n) =
          some (compare m.toInt n.toInt) := rfl
      rw [Number.toFloat_beq_iff hcompare, Number.compare?_integers_eq_eq hcompare]
      simp [ofNumber, equals, equalScalars]

end Value

namespace Builtin

theorem any_string_iff {items : List Value} {s : String} :
    (items.any fun
      | .string t => t = s
      | _ => false) = true ↔ Value.string s ∈ items := by
  rw [List.any_eq_true]
  constructor
  · rintro ⟨v, hv, hmatch⟩
    cases v <;> simp at hmatch
    exact hmatch ▸ hv
  · exact fun h => ⟨_, h, by simp⟩

theorem any_number_iff {items : List Value} {n : Number} :
    (items.any fun
      | .integer m => Binary.ofInt m.toInt == n.toFloat
      | .float x => x == n.toFloat
      | _ => false) = true ↔ Value.HasEqual items (.ofNumber n) ∨ Value.HasColliding items n := by
  have hany : (items.any fun
      | .integer m => Binary.ofInt m.toInt == n.toFloat
      | .float x => x == n.toFloat
      | _ => false) = true ↔ ∃ a : Number, Value.ofNumber a ∈ items ∧ a.toFloat == n.toFloat := by
    rw [List.any_eq_true]
    constructor
    · rintro ⟨v, hv, hmatch⟩
      cases v with
      | integer m => exact ⟨.integer m, hv, hmatch⟩
      | float x => exact ⟨.float x, hv, hmatch⟩
      | _ => cases hmatch
    · rintro ⟨a, ha, hmatch⟩
      refine ⟨_, ha, ?_⟩
      cases a <;> exact hmatch
  simp only [hany, Value.toFloat_beq_iff_equal, Value.HasEqual, Value.HasColliding, and_or_left,
    exists_or]

end Builtin

namespace Eval

variable {limit depth : Nat} {here : Trail} {scope : Scope} {e : Expr} {onTarget : Bool}
  {node : Node} {items : List Value}

theorem candidates_contains (onTarget : Bool) :
    Registry.builtins.candidates "contains" 2 onTarget =
      [Builtin.containsString, Builtin.containsNumber] := by
  cases onTarget <;> rfl

theorem resolve_contains_string (node : Node) (items : List Value) (s : String) (onTarget : Bool) :
    Registry.builtins.resolve "contains" [.array node items, .string s] onTarget =
      .ok (Builtin.containsString, [.array node items, .string s]) := by
  apply Registry.resolve_of_best?
  · rw [List.length_cons, List.length_singleton, candidates_contains, Registry.best?_pair]
    exact if_neg (show ¬ 2 < 1 by decide)
  · rfl

theorem resolve_contains_number (node : Node) (items : List Value) (n : Number) (onTarget : Bool) :
    Registry.builtins.resolve "contains" [.array node items, .ofNumber n] onTarget =
      .ok (Builtin.containsNumber, [.array node items, .ofNumber n]) := by
  apply Registry.resolve_of_best?
  · rw [List.length_cons, List.length_singleton, candidates_contains, Registry.best?_pair]
    cases n <;> exact if_pos (show 1 < 2 by decide)
  · cases n <;> rfl

/-- An array contains the texts that are its elements, and the numbers that are equal to one of its
elements. It contains one more kind of integers, those with the float of another integer. -/
theorem evaluate_contains {needle : Value}
    (h : Applies (levelAt .builtins limit (depth + 1)) here scope "contains" e
      [.array node items, needle] onTarget) :
    (∀ s, needle = .string s →
      ∃ found, evaluate .builtins limit (depth + 2) here e scope = .ok (.boolean found) ∧
        (found = true ↔ Value.string s ∈ items)) ∧
      ∀ n, needle = .ofNumber n →
        ∃ found, evaluate .builtins limit (depth + 2) here e scope = .ok (.boolean found) ∧
          (found = true ↔ Value.HasEqual items (.ofNumber n) ∨ Value.HasColliding items n) := by
  constructor
  · rintro s rfl
    refine ⟨_, ?_, Builtin.any_string_iff⟩
    rw [h.evaluate_eq_body (resolve_contains_string node items s onTarget)]
    rfl
  · rintro n rfl
    refine ⟨_, ?_, Builtin.any_number_iff⟩
    rw [h.evaluate_eq_body (resolve_contains_number node items n onTarget)]
    cases n <;> rfl

theorem evaluate_contains_of_colliding :
    Applies (levelAt .builtins 256 255) [] [] "contains"
        (.call (some (.array [.integer 9007199254740993])) "contains" [.integer 9007199254740992])
        [.ofItems [.integer 9007199254740993], .integer 9007199254740992] true ∧
      evaluate .builtins 256 256 []
          (.call (some (.array [.integer 9007199254740993])) "contains"
            [.integer 9007199254740992]) [] =
        .ok (.boolean true) ∧
      Value.binary .equal (.integer 9007199254740993) (.integer 9007199254740992) =
        .ok (.boolean false) := by
  have happlies : Applies (levelAt .builtins 256 255) [] [] "contains"
      (.call (some (.array [.integer 9007199254740993])) "contains" [.integer 9007199254740992])
      [.ofItems [.integer 9007199254740993], .integer 9007199254740992] true :=
    .behind rfl rfl rfl
  have hcollides : Value.HasColliding [.integer 9007199254740993] (.integer 9007199254740992) :=
    ⟨.integer 9007199254740993, List.mem_singleton_self _, 9007199254740993, 9007199254740992, rfl,
      rfl, by decide, by decide⟩
  obtain ⟨found, hvalue, hfound⟩ :=
    (evaluate_contains happlies).2 (.integer 9007199254740992) rfl
  rw [hfound.mpr (.inr hcollides)] at hvalue
  exact ⟨happlies, hvalue, rfl⟩

end Eval

end Stencil

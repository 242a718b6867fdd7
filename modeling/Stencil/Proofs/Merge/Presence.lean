import Stencil.Proofs.Merge.Settling
import Mathlib.Data.List.Infix

/-!
# What becomes of a name in a row of merges

A value that is no deletion stays through all merges: a scalar as itself or as the first item of an
array, an array as the front of an array. A deletion stays until an array or object is merged under
it, and is used up by that one. So a deleted name comes back exactly if an array or object for it
has a value right behind it that is no deletion.
-/

namespace Stencil

namespace Value

/-- A scalar keeps its place or becomes the first item of an array. -/
theorem Settles.scalar {v : Value} (hnode : v.isNode = false) (hdel : v.isDeletion = false)
    {vs : List Value} {o : Option Value} (h : Settles vs (some v) o) :
    o = some v ∨ ∃ node rest, o = some (array node (v :: rest)) := by
  refine Settles.invariant
    (P := fun o => o = some v ∨ ∃ node rest, o = some (array node (v :: rest))) ?_ h (.inl rfl)
  intro parent _ o o' ho hstep
  cases hstep with
  | copied => simp at ho
  | kept => exact ho
  | removed _ hown =>
    rcases ho with ho | ⟨node, rest, ho⟩
    · rw [Option.some.inj ho, hdel] at hown
      simp at hown
    · rw [Option.some.inj ho] at hown
      simp [isDeletion] at hown
  | joined =>
    rcases ho with ho | ⟨node, rest, ho⟩
    · rw [Option.some.inj ho]
      cases v with
      | array => simp [isNode] at hnode
      | _ => exact .inr ⟨none, _, rfl⟩
    · rw [Option.some.inj ho]
      exact .inr ⟨none, _, rfl⟩
  | appended =>
    rcases ho with ho | ⟨node, rest, ho⟩
    · simp [← Option.some.inj ho, isNode] at hnode
    · injection Option.some.inj ho with _ hitems
      rw [hitems]
      exact .inr ⟨none, _, rfl⟩
  | merged =>
    rcases ho with ho | ⟨node, rest, ho⟩
    · simp [← Option.some.inj ho, isNode] at hnode
    · simp at ho

/-- Items are only added behind those of an array. -/
theorem Settles.array {node : Node} {items vs : List Value} {o : Option Value}
    (h : Settles vs (some (array node items)) o) :
    ∃ node' rest, o = some (.array node' (items ++ rest)) := by
  refine Settles.invariant (P := fun o => ∃ node' rest, o = some (.array node' (items ++ rest)))
    ?_ h ⟨node, [], by simp⟩
  rintro parent - o o' ⟨node', rest, rfl⟩ hstep
  cases hstep with
  | kept => exact ⟨node', rest, rfl⟩
  | removed _ hown => simp [isDeletion] at hown
  | joined => exact ⟨none, rest ++ _, by rw [joined, ofItems, List.append_assoc]⟩
  | appended => exact ⟨none, rest ++ _, by rw [ofItems, List.append_assoc]⟩

end Value

/-- Whether a name has no value, a deletion, or a value that counts. -/
inductive Presence where
  | absent
  | deleted
  | present
deriving DecidableEq

namespace Presence

def of : Option Value → Presence
  | none => absent
  | some v => if v.isDeletion then deleted else present

/-- A value merged under a name. -/
def merge (p : Presence) (parent : Value) : Presence :=
  match p with
  | absent => of (some parent)
  | deleted => if parent.isNode then absent else deleted
  | present => present

theorem of_eq_present_iff (o : Option Value) :
    of o = present ↔ ∃ v, o = some v ∧ v.isDeletion = false := by
  cases o with
  | none => simp [of]
  | some v => cases h : v.isDeletion <;> simp [of, h]

theorem of_ne_present_iff (o : Option Value) : of o ≠ present ↔ o.all Value.isDeletion := by
  cases o with
  | none => simp [of]
  | some v => cases h : v.isDeletion <;> simp [of, h]

theorem of_mergesTo {parent : Value} {o o' : Option Value} (h : parent.MergesTo o o') :
    of o' = (of o).merge parent := by
  cases h with
  | copied => simp [of, merge]
  | @kept own hnode => cases hown : own.isDeletion <;> simp [of, merge, hown, hnode]
  | removed hnode hown => simp [of, merge, hown, hnode]
  | @joined own _ items _ hown =>
    have hjoined : (own.joined items).isDeletion = false := by
      cases own <;> simp [Value.joined, Value.ofItems, Value.isDeletion]
    simp [of, merge, hown, hjoined]
  | appended => simp [of, merge, Value.isDeletion, Value.ofItems]
  | merged => simp [of, merge, Value.isDeletion, Value.ofMembers]

theorem of_settles {vs : List Value} {o o' : Option Value} (h : Value.Settles vs o o') :
    of o' = vs.foldl merge (of o) := by
  induction h with
  | nil => rfl
  | cons hstep _ ih => rw [ih, of_mergesTo hstep, List.foldl_cons]

/-- An array or object with a value right behind it that is no deletion. -/
def Revived (vs : List Value) : Prop :=
  ∃ c v, [c, v] <:+: vs ∧ c.isNode ∧ v.isDeletion = false

theorem not_revived_nil : ¬ Revived [] := by
  rintro ⟨c, v, h, -⟩
  simp at h

theorem revived_cons_iff (c : Value) (vs : List Value) :
    Revived (c :: vs) ↔
      (c.isNode ∧ ∃ v, vs.head? = some v ∧ v.isDeletion = false) ∨ Revived vs := by
  constructor
  · rintro ⟨c', v, h, hc, hv⟩
    rcases List.infix_cons_iff.mp h with hfront | hlater
    · obtain ⟨rfl, rest, rfl⟩ := List.cons_prefix_cons.mp hfront
      exact .inl ⟨hc, v, rfl, hv⟩
    · exact .inr ⟨c', v, hlater, hc, hv⟩
  · rintro (⟨hc, v, hhead, hv⟩ | ⟨c', v, h, hc, hv⟩)
    · obtain ⟨rest, rfl⟩ := List.head?_eq_some_iff.mp hhead
      exact ⟨c, v, ⟨[], rest, rfl⟩, hc, hv⟩
    · exact ⟨c', v, List.infix_cons h, hc, hv⟩

theorem foldl_merge_present (vs : List Value) : vs.foldl merge present = present := by
  induction vs with
  | nil => rfl
  | cons v vs ih => exact ih

/-- Both starts at once, since each leads to the other. -/
theorem foldl_merge_eq_present_iff (vs : List Value) :
    (vs.foldl merge deleted = present ↔ Revived vs) ∧
      (vs.foldl merge absent = present ↔
        (∃ v, vs.head? = some v ∧ v.isDeletion = false) ∨ Revived vs) := by
  induction vs with
  | nil => simp [not_revived_nil]
  | cons v vs ih =>
    rw [revived_cons_iff, List.foldl_cons, List.foldl_cons]
    constructor
    · cases hnode : v.isNode with
      | true => simp [merge, hnode, ih.2]
      | false => simp [merge, hnode, ih.1]
    · cases hdel : v.isDeletion with
      | true =>
        have hnode : v.isNode = false := by cases v <;> simp_all [Value.isDeletion, Value.isNode]
        simp [merge, of, hdel, hnode, ih.1]
      | false => simp [merge, of, hdel, foldl_merge_present]

/-- The first value is a deletion, the last one an array or object, and the name is not revived in
between: so the last one uses a deletion up. -/
def UsedUp (vs : List Value) : Prop :=
  (∃ v, vs.head? = some v ∧ v.isDeletion) ∧ (∃ c, vs.getLast? = some c ∧ c.isNode) ∧ ¬ Revived vs

/-- Again both starts at once. -/
theorem foldl_merge_eq_absent_iff (vs : List Value) :
    (vs.foldl merge deleted = absent ↔
        (∃ c, vs.getLast? = some c ∧ c.isNode) ∧ ¬ Revived vs) ∧
      (vs.foldl merge absent = absent ↔ vs = [] ∨ UsedUp vs) := by
  induction vs with
  | nil => simp
  | cons v vs ih =>
    have hlast (hvs : vs ≠ []) : (v :: vs).getLast? = vs.getLast? := by
      obtain ⟨w, ws, rfl⟩ := List.exists_cons_of_ne_nil hvs
      exact List.getLast?_cons_cons
    rw [UsedUp, revived_cons_iff, List.foldl_cons, List.foldl_cons]
    constructor
    · cases hnode : v.isNode with
      | true =>
        simp only [merge, hnode, if_true, ih.2, UsedUp]
        cases vs with
        | nil => simp [hnode, not_revived_nil]
        | cons w ws =>
          rw [hlast (by simp)]
          cases hw : w.isDeletion <;> simp [hw]
      | false =>
        simp only [merge, hnode, Bool.false_eq_true, if_false, ih.1, false_and, false_or]
        cases vs with
        | nil => simp [hnode]
        | cons w ws => rw [hlast (by simp)]
    · cases hdel : v.isDeletion with
      | true =>
        have hnode : v.isNode = false := by cases v <;> simp_all [Value.isDeletion, Value.isNode]
        simp only [merge, of, hdel, hnode, if_true, ih.1, Bool.false_eq_true, false_and, false_or]
        cases vs with
        | nil => simp [hnode]
        | cons w ws =>
          rw [hlast (by simp)]
          simp [hdel]
      | false => simp [merge, of, hdel, foldl_merge_present]

/-- A deleted name stays without a value unless it is revived. -/
theorem ne_present_of_settles_deleted {vs : List Value} {v : Value} {o : Option Value}
    (hv : v.isDeletion) (h : Value.Settles vs (some v) o) :
    o.all Value.isDeletion ↔ ¬ Revived vs := by
  rw [← of_ne_present_iff, of_settles h, ← (foldl_merge_eq_present_iff vs).1]
  simp [of, hv]

end Presence

end Stencil

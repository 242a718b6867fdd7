import Stencil.Json.Basic
import Stencil.Value.Display
import Stencil.Value.Json
import Stencil.Value.Merge
import Mathlib.Data.List.Basic

/-!
# Induction on values

A fact holds of every value if it holds of an array once it holds of its items, of an object once
it holds of its members, and of each value that is neither. The functions that walk a value treat
its items and members one by one, which is said here as equations with `map` and `filter`.
-/

namespace Stencil

private theorem sizeOf_snd_lt {α : Type} [SizeOf α] {members : List (String × α)}
    {m : String × α} (h : m ∈ members) : sizeOf m.2 < sizeOf members := by
  obtain ⟨k, v⟩ := m
  have := List.sizeOf_lt_of_mem h
  simp only [Prod.mk.sizeOf_spec] at this
  change sizeOf v < _
  omega

theorem Value.rec_nodes {motive : Value → Prop}
    (onArray : ∀ node items, (∀ v ∈ items, motive v) → motive (.array node items))
    (onObject : ∀ node members, (∀ m ∈ members, motive m.2) → motive (.object node members))
    (onLeaf : ∀ v : Value, v.kind ≠ .array → v.kind ≠ .object → motive v) (v : Value) :
    motive v :=
  match v with
  | .array node items => onArray node items fun v _ => rec_nodes onArray onObject onLeaf v
  | .object node members =>
    onObject node members fun m _ => rec_nodes onArray onObject onLeaf m.2
  | .null | .boolean _ | .integer _ | .float _ | .string _ | .lambda .. | .function _ =>
    onLeaf _ (by simp [kind]) (by simp [kind])
termination_by sizeOf v
decreasing_by
  · have := List.sizeOf_lt_of_mem ‹v ∈ items›
    simp only [Value.array.sizeOf_spec]
    omega
  · have := sizeOf_snd_lt ‹m ∈ members›
    simp only [Value.object.sizeOf_spec]
    omega

theorem Json.rec_nodes {motive : Json → Prop}
    (onArray : ∀ items, (∀ v ∈ items, motive v) → motive (.array items))
    (onObject : ∀ members, (∀ m ∈ members, motive m.2) → motive (.object members))
    (onLeaf : ∀ v : Json, (∀ items, v ≠ .array items) → (∀ members, v ≠ .object members) → motive v)
    (v : Json) : motive v :=
  match v with
  | .array items => onArray items fun v _ => rec_nodes onArray onObject onLeaf v
  | .object members => onObject members fun m _ => rec_nodes onArray onObject onLeaf m.2
  | .null | .boolean _ | .integer _ | .float _ | .string _ => onLeaf _ (by simp) (by simp)
termination_by sizeOf v
decreasing_by
  · have := List.sizeOf_lt_of_mem ‹v ∈ items›
    simp only [Json.array.sizeOf_spec]
    omega
  · have := sizeOf_snd_lt ‹m ∈ members›
    simp only [Json.object.sizeOf_spec]
    omega

namespace Value

theorem copyItems_eq_map (items : List Value) : copyItems items = items.map deepCopy := by
  induction items with
  | nil => rfl
  | cons v vs ih => rw [copyItems, ih, List.map_cons]

theorem copyMembers_eq_map (members : List (String × Value)) :
    copyMembers members = members.map fun m => (m.1, m.2.deepCopy) := by
  induction members with
  | nil => rfl
  | cons m ms ih => rw [copyMembers, ih, List.map_cons]

@[simp] theorem isDeletion_deepCopy (v : Value) : v.deepCopy.isDeletion = v.isDeletion := by
  cases v <;> rfl

theorem stripItems_eq_map (items : List Value) :
    stripItems items = (items.filter (!·.isDeletion)).map stripNulls := by
  induction items with
  | nil => rfl
  | cons v vs ih =>
    rw [stripItems, ih]
    by_cases h : v.isDeletion <;> simp [h]

theorem stripMembers_eq_map (members : List (String × Value)) :
    stripMembers members =
      (members.filter (!·.2.isDeletion)).map fun m => (m.1, m.2.stripNulls) := by
  induction members with
  | nil => rfl
  | cons m ms ih =>
    rw [stripMembers, ih]
    by_cases h : m.2.isDeletion <;> simp [h]

@[simp] theorem isDeletion_stripNulls (v : Value) : v.stripNulls.isDeletion = v.isDeletion := by
  cases v <;> rfl

theorem ofJsonItems_eq_map (items : List Json) : ofJsonItems items = items.map ofJson := by
  induction items with
  | nil => rfl
  | cons v vs ih => rw [ofJsonItems, ih, List.map_cons]

theorem ofJsonMembers_eq_map (members : List (String × Json)) :
    ofJsonMembers members = members.map fun m => (m.1, ofJson m.2) := by
  induction members with
  | nil => rfl
  | cons m ms ih => rw [ofJsonMembers, ih, List.map_cons]

theorem get?_ofJsonMembers (members : Fields Json) (name : String) :
    (ofJsonMembers members).get? name = (members.get? name).map ofJson := by
  rw [ofJsonMembers_eq_map, Fields.get?_map]

theorem names_ofJsonMembers (members : Fields Json) :
    (ofJsonMembers members).names = members.names := by
  rw [ofJsonMembers_eq_map, Fields.names_map]

theorem displayItems_eq_map (items : List Value) : displayItems items = items.map display := by
  induction items with
  | nil => rfl
  | cons v vs ih => rw [displayItems, ih, List.map_cons]

theorem displayMembers_eq_map (members : List (String × Value)) :
    displayMembers members = members.map fun m => Text.quoted m.1 ++ ":" ++ m.2.display := by
  induction members with
  | nil => rfl
  | cons m ms ih => rw [displayMembers, ih, List.map_cons]

end Value

end Stencil

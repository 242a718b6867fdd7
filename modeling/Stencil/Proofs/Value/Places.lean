import Stencil.Path
import Stencil.Proofs.Success
import Stencil.Proofs.Value.Induction

/-!
# Places inside values and documents

`v.At p u` says that `u` stands in `v` at the end of the path `p`. A value and the document for it
have the same places, and stripping leaves no deletion at any place but the root.
-/

namespace Stencil

inductive Json.At : Json → List Segment → Json → Prop
  | here {v} : At v [] v
  | item {items i u p v} : items[i]? = some u → At u p v → At (.array items) (.index i :: p) v
  | member {members name u p v} : (name, u) ∈ members → At u p v →
      At (.object members) (.field name :: p) v

namespace Value

inductive At : Value → List Segment → Value → Prop
  | here {v} : At v [] v
  | item {node items i u p v} : items[i]? = some u → At u p v →
      At (array node items) (.index i :: p) v
  | member {node members name u p v} : (name, u) ∈ members → At u p v →
      At (object node members) (.field name :: p) v

theorem at_nil_iff {v u : Value} : v.At [] u ↔ u = v := by
  constructor
  · rintro ⟨⟩
    rfl
  · rintro rfl
    exact .here

theorem toJsonItems_eq_ok {vs : List Value} {js : List Json} :
    toJsonItems vs = .ok js ↔ vs.map toJson = js.map .ok := by
  induction vs generalizing js with
  | nil => cases js <;> simp [toJsonItems]
  | cons v vs ih => cases js <;> simp [toJsonItems, ih]

theorem toJsonMembers_eq_ok {ms : List (String × Value)} {js : List (String × Json)} :
    toJsonMembers ms = .ok js ↔
      ms.map (fun m => (m.1, m.2.toJson)) = js.map fun m => (m.1, .ok m.2) := by
  induction ms generalizing js with
  | nil => cases js <;> simp [toJsonMembers]
  | cons m ms ih =>
    cases js with
    | nil => simp [toJsonMembers]
    | cons j js =>
      obtain ⟨k, v⟩ := m
      obtain ⟨l, j⟩ := j
      simp only [toJsonMembers, bind_eq_ok, pure_eq_ok, List.map_cons, List.cons.injEq,
        Prod.mk.injEq, ← ih]
      constructor
      · rintro ⟨_, hv, _, hvs, ⟨rfl, rfl⟩, rfl⟩
        exact ⟨⟨rfl, hv⟩, hvs⟩
      · rintro ⟨⟨rfl, hv⟩, hvs⟩
        exact ⟨j, hv, js, hvs, ⟨rfl, rfl⟩, rfl⟩

theorem toJson_array {node : Node} {items : List Value} {j : Json} :
    (array node items).toJson = .ok j ↔ ∃ js, toJsonItems items = .ok js ∧ .array js = j := by
  simp [toJson]

theorem toJson_object {node : Node} {members : Fields Value} {j : Json} :
    (object node members).toJson = .ok j ↔
      ∃ js, toJsonMembers members = .ok js ∧ .object js = j := by
  simp [toJson]

theorem names_of_toJsonMembers {ms : Fields Value} {js : Fields Json}
    (h : toJsonMembers ms = .ok js) : js.names = ms.names := by
  have hnames := congrArg (List.map (·.1)) (toJsonMembers_eq_ok.mp h)
  simpa [Fields.names, Function.comp_def] using hnames.symm

/-- The document for a value has at each place the document for what the value has there. -/
theorem at_toJson_iff {v : Value} {j : Json} (h : v.toJson = .ok j) (p : List Segment) (u : Json) :
    j.At p u ↔ ∃ w, v.At p w ∧ w.toJson = .ok u := by
  induction p generalizing v j with
  | nil =>
    constructor
    · rintro ⟨⟩
      exact ⟨v, .here, h⟩
    · rintro ⟨w, ⟨⟩, hw⟩
      rw [h, Except.ok.injEq] at hw
      exact hw ▸ .here
  | cons s p ih =>
    cases v with
    | array node items =>
      obtain ⟨js, hjs, rfl⟩ := toJson_array.mp h
      have hitem (i : Nat) : items[i]?.map toJson = js[i]?.map .ok := by
        rw [← List.getElem?_map, ← List.getElem?_map, toJsonItems_eq_ok.mp hjs]
      constructor
      · rintro ⟨⟩
        rename_i i u' hi hu
        have hi' := hitem i
        rw [hi, Option.map_some, Option.map_eq_some_iff] at hi'
        obtain ⟨w', hw', hwu'⟩ := hi'
        obtain ⟨w, hw, hwu⟩ := (ih hwu').mp hu
        exact ⟨w, .item hw' hw, hwu⟩
      · rintro ⟨w, hw, hwu⟩
        cases hw
        rename_i i w' hi hw
        have hi' := (hitem i).symm
        rw [hi, Option.map_some, Option.map_eq_some_iff] at hi'
        obtain ⟨u', hu', hwu'⟩ := hi'
        exact .item hu' ((ih hwu'.symm).mpr ⟨w, hw, hwu⟩)
    | object node members =>
      obtain ⟨js, hjs, rfl⟩ := toJson_object.mp h
      have hmembers := toJsonMembers_eq_ok.mp hjs
      constructor
      · rintro ⟨⟩
        rename_i name u' hname hu
        have hname' : (name, .ok u') ∈ members.map fun m => (m.1, m.2.toJson) :=
          hmembers ▸ List.mem_map.mpr ⟨_, hname, rfl⟩
        obtain ⟨m, hm, heq⟩ := List.mem_map.mp hname'
        injection heq with hk hwu'
        obtain ⟨w, hw, hwu⟩ := (ih hwu').mp hu
        exact ⟨w, .member (hk ▸ hm) hw, hwu⟩
      · rintro ⟨w, hw, hwu⟩
        cases hw
        rename_i name w' hname hw
        have hname' : (name, w'.toJson) ∈ js.map fun m => (m.1, Except.ok m.2) :=
          hmembers ▸ List.mem_map.mpr ⟨_, hname, rfl⟩
        obtain ⟨m, hm, heq⟩ := List.mem_map.mp hname'
        injection heq with hk hwu'
        exact .member (hk ▸ hm) ((ih hwu'.symm).mpr ⟨w, hw, hwu⟩)
    | _ =>
      constructor
      · intro hu
        simp only [toJson, Except.ok.injEq, reduceCtorEq] at h
        try (split at h)
        all_goals (subst h; cases hu)
      · rintro ⟨w, ⟨⟩, -⟩

theorem isDeletion_of_at_stripNulls {v u : Value} {p : List Segment} (hp : p ≠ [])
    (h : v.stripNulls.At p u) : u.isDeletion = false := by
  induction p generalizing v with
  | nil => exact absurd rfl hp
  | cons s p ih =>
    have hbelow {w : Value} (hw : w.isDeletion = false) (hu : w.stripNulls.At p u) :
        u.isDeletion = false := by
      cases p with
      | nil =>
        rw [at_nil_iff.mp hu, isDeletion_stripNulls, hw]
      | cons s' p => exact ih (by simp) hu
    cases v with
    | array node items =>
      rw [stripNulls, ofItems, stripItems_eq_map] at h
      cases h
      rename_i i u' hi hu
      obtain ⟨w, hw, rfl⟩ := List.mem_map.mp (List.mem_of_getElem? hi)
      exact hbelow (by simpa using (List.mem_filter.mp hw).2) hu
    | object node members =>
      rw [stripNulls, ofMembers, stripMembers_eq_map] at h
      cases h
      rename_i name u' hname hu
      obtain ⟨m, hm, heq⟩ := List.mem_map.mp hname
      injection heq with _ hu'
      subst hu'
      exact hbelow (by simpa using (List.mem_filter.mp hm).2) hu
    | _ => cases h

end Value

end Stencil

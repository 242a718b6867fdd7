import Stencil.Eval.Error
import Stencil.Proofs.Value.Callables
import Stencil.Proofs.Value.Parts

/-!
# Displays and documents

The display of a value is the compact text of the document for it, if there is one and all floats
are finite. There is one unless a callable stands in the value.
-/

namespace Stencil

namespace Json

theorem compactItems_eq_map (items : List Json) : compactItems items = items.map compact := by
  induction items with
  | nil => rfl
  | cons v vs ih => rw [compactItems, ih, List.map_cons]

theorem compactMembers_eq_map (members : List (String × Json)) :
    compactMembers members = members.map fun m => Text.quoted m.1 ++ ":" ++ m.2.compact := by
  induction members with
  | nil => rfl
  | cons m ms ih => rw [compactMembers, ih, List.map_cons]

end Json

namespace Value

/-- The compact text of the document for a value, or that there is none. -/
def jsonText (v : Value) : Except EvalError String :=
  (v.toJson.mapError fun kind => .type (.toJson kind)).map Json.compact

/-- All floats inside are finite. -/
def Finite (v : Value) : Prop :=
  ∀ p x, v.At p (float x) → x.isFinite

theorem finite_array {node : Node} {items : List Value} :
    (array node items).Finite ↔ ∀ v ∈ items, v.Finite := by
  constructor
  · intro h v hv p x hx
    obtain ⟨i, hi⟩ := List.getElem?_of_mem hv
    exact h _ x (.item hi hx)
  · rintro h p x (_ | ⟨hi, hx⟩)
    exact h _ (List.mem_of_getElem? hi) _ x hx

theorem finite_object {node : Node} {members : List (String × Value)} :
    (object node members).Finite ↔ ∀ m ∈ members, m.2.Finite := by
  constructor
  · exact fun h m hm _ x hx => h _ x (.member hm hx)
  · rintro h p x (_ | _ | ⟨hm, hx⟩)
    exact h _ hm _ x hx

theorem finite_leaf {v : Value} (hv : v.isNode = false) :
    v.Finite ↔ ∀ x, v = float x → x.isFinite := by
  constructor
  · rintro h x rfl
    exact h [] x .here
  · rintro h p x (_ | _ | _)
    · exact h x rfl
    all_goals cases hv

theorem forall₂_of_toJsonItems {items : List Value} {js : List Json}
    (h : toJsonItems items = .ok js) : List.Forall₂ (fun v j => v.toJson = .ok j) items js := by
  have hmap := toJsonItems_eq_ok.mp h
  rwa [← List.forall₂_eq_eq_eq, List.forall₂_map_left_iff, List.forall₂_map_right_iff] at hmap

theorem forall₂_of_toJsonMembers {members : List (String × Value)} {js : List (String × Json)}
    (h : toJsonMembers members = .ok js) :
    List.Forall₂ (fun m j => m.1 = j.1 ∧ m.2.toJson = .ok j.2) members js := by
  have hmap := toJsonMembers_eq_ok.mp h
  rw [← List.forall₂_eq_eq_eq, List.forall₂_map_left_iff, List.forall₂_map_right_iff] at hmap
  exact hmap.imp fun _ _ => Prod.mk.inj

/-- The document for a value in which all floats are finite is written as the value is displayed. -/
theorem compact_of_toJson {v : Value} {j : Json} (hfinite : v.Finite) (h : v.toJson = .ok j) :
    j.compact = v.display := by
  induction v using rec_nodes generalizing j with
  | onArray node items ih =>
    obtain ⟨js, hjs, rfl⟩ := toJson_array.mp h
    have hparts : items.map display = js.map Json.compact :=
      map_eq_map_of_forall₂ (forall₂_of_toJsonItems hjs) fun v hv j hj =>
        (ih v hv (finite_array.mp hfinite v hv) hj).symm
    rw [Json.compact, display, Json.compactItems_eq_map, displayItems_eq_map, hparts]
  | onObject node members ih =>
    obtain ⟨js, hjs, rfl⟩ := toJson_object.mp h
    have hparts : (members.map fun m => Text.quoted m.1 ++ ":" ++ m.2.display) =
        js.map fun m => Text.quoted m.1 ++ ":" ++ m.2.compact :=
      map_eq_map_of_forall₂ (forall₂_of_toJsonMembers hjs) fun m hm j hj => by
        rw [hj.1, ih m hm (finite_object.mp hfinite m hm) hj.2]
    rw [Json.compact, display, Json.compactMembers_eq_map, displayMembers_eq_map, hparts]
  | onLeaf v harray hobject =>
    cases v with
    | array => exact absurd rfl harray
    | object => exact absurd rfl hobject
    | float x =>
      have hx : x.isFinite := hfinite [] x .here
      rw [toJson, if_pos hx, Except.ok.injEq] at h
      subst h
      have hcompact : (Json.float x).compact = Style.value.render x := if_pos hx
      exact hcompact
    | lambda | function => cases h
    | _ =>
      cases h
      rfl

/-- A value that has a document holds no callable. -/
theorem not_holds_of_toJson {v c : Value} {j : Json} (h : v.toJson = .ok j) : ¬ v.Holds c := by
  induction v using rec_nodes generalizing j with
  | onArray node items ih =>
    obtain ⟨js, hjs, rfl⟩ := toJson_array.mp h
    rw [holds_array]
    rintro ⟨v, hv, hc⟩
    obtain ⟨j, -, hj⟩ := exists_of_forall₂ (forall₂_of_toJsonItems hjs) hv
    exact ih v hv hj hc
  | onObject node members ih =>
    obtain ⟨js, hjs, rfl⟩ := toJson_object.mp h
    rw [holds_object]
    rintro ⟨m, hm, hc⟩
    obtain ⟨j, -, -, hj⟩ := exists_of_forall₂ (forall₂_of_toJsonMembers hjs) hm
    exact ih m hm hj hc
  | onLeaf v harray hobject =>
    cases v with
    | array => exact absurd rfl harray
    | object => exact absurd rfl hobject
    | lambda | function => cases h
    | _ => exact fun hc => Bool.false_ne_true ((holds_leaf rfl).mp hc).1

/-- If no callable stands in a value and all floats in it are finite, its JSON text is its display.
With a type error, and in no other way, there is none if and only if a callable stands in the value;
the error names the kind of such a callable. -/
theorem jsonText_agrees (v : Value) :
    ((∀ c, ¬ v.Holds c) → v.Finite → v.jsonText = .ok v.display) ∧
    ((∃ fault, v.jsonText = .error (.type fault)) ↔ ∃ c, v.Holds c) ∧
    ∀ e, v.jsonText = .error e → ∃ c, v.Holds c ∧ e = .type (.toJson c.kind) := by
  cases h : v.toJson with
  | ok j =>
    have htext : v.jsonText = .ok j.compact := by rw [jsonText, h]; rfl
    have hnone : ∀ c, ¬ v.Holds c := fun c => not_holds_of_toJson h
    rw [htext]
    refine ⟨fun _ hfinite => ?_, iff_of_false nofun (not_exists.mpr hnone), nofun⟩
    rw [compact_of_toJson hfinite h]
  | error k =>
    have htext : v.jsonText = .error (.type (.toJson k)) := by rw [jsonText, h]; rfl
    obtain ⟨c, hc, hkind⟩ := holds_of_toJson_eq_error h
    rw [htext]
    refine ⟨fun hnone => absurd hc (hnone c), iff_of_true ⟨_, rfl⟩ ⟨c, hc⟩, ?_⟩
    rintro _ ⟨⟩
    exact ⟨c, hc, by rw [hkind]⟩

/-- Members, items, an empty array and a float. -/
def inventory : Value :=
  .object (some 1)
    [("a\"b", .array none [.float 2.5, .integer (-7), .null]), ("z", .array (some 2) [])]

theorem finite_inventory : inventory.Finite := by
  simp only [inventory, finite_object, finite_array, List.forall_mem_cons]
  refine ⟨⟨(finite_leaf rfl).mpr ?_, (finite_leaf rfl).mpr nofun, (finite_leaf rfl).mpr nofun,
    nofun⟩, nofun, nofun⟩
  rintro _ ⟨⟩
  decide +kernel

theorem jsonText_agrees_inventory :
    (∀ c, ¬ inventory.Holds c) ∧ inventory.Finite ∧ inventory.jsonText = .ok inventory.display ∧
    inventory.display = "\x7b\"a\\\"b\":[2.5,-7,null],\"z\":[]\x7d" := by
  have hnone : ∀ c, ¬ inventory.Holds c := fun c =>
    not_holds_of_toJson (show inventory.toJson = .ok _ from rfl)
  exact ⟨hnone, finite_inventory, (jsonText_agrees inventory).1 hnone finite_inventory,
    by decide +kernel⟩

end Value

end Stencil

import Stencil.Proofs.Json.Distinct
import Stencil.Proofs.Merge.Settling

/-!
# Well-formed values

Every object has each of its names once, also in what lambdas have captured. Documents that were
read are well-formed, and so is what copying and merging make of such values.
-/

namespace Stencil

namespace Value

inductive WellFormed : Value → Prop
  | null : WellFormed null
  | boolean (b) : WellFormed (boolean b)
  | integer (n) : WellFormed (integer n)
  | float (x) : WellFormed (float x)
  | string (s) : WellFormed (string s)
  | array {node items} : (∀ v ∈ items, WellFormed v) → WellFormed (array node items)
  | object {node members} : (Fields.names members).Nodup → (∀ m ∈ members, WellFormed m.2) →
      WellFormed (object node members)
  | lambda {origin params body scope} : (∀ layer ∈ scope, ∀ m ∈ layer, WellFormed m.2) →
      WellFormed (lambda origin params body scope)
  | function (name) : WellFormed (function name)

attribute [simp] WellFormed.null WellFormed.boolean WellFormed.integer WellFormed.float
  WellFormed.string WellFormed.function

theorem wellFormed_array {node : Node} {items : List Value} :
    (array node items).WellFormed ↔ ∀ v ∈ items, v.WellFormed := by
  constructor
  · rintro ⟨⟩
    assumption
  · exact .array

theorem wellFormed_object {node : Node} {members : Fields Value} :
    (object node members).WellFormed ↔ members.names.Nodup ∧ ∀ m ∈ members, m.2.WellFormed := by
  constructor
  · rintro ⟨⟩
    exact ⟨by assumption, by assumption⟩
  · exact fun h => .object h.1 h.2

@[simp] theorem wellFormed_ofItems {items : List Value} :
    (ofItems items).WellFormed ↔ ∀ v ∈ items, v.WellFormed :=
  wellFormed_array

theorem wellFormed_ofMembers {members : Fields Value} :
    (ofMembers members).WellFormed ↔ members.names.Nodup ∧ ∀ m ∈ members, m.2.WellFormed :=
  wellFormed_object

@[simp] theorem wellFormed_ofNumber (n : Number) : (ofNumber n).WellFormed := by
  cases n with
  | integer n => exact .integer n
  | float x => exact .float x

theorem WellFormed.of_get? {node : Node} {members : Fields Value} {name : String} {v : Value}
    (h : (Value.object node members).WellFormed) (hget : members.get? name = some v) :
    v.WellFormed :=
  (wellFormed_object.mp h).2 (name, v) (Fields.mem_of_get? hget)

theorem wellFormed_of_get? {node : Node} {members : Fields Value} (hnames : members.names.Nodup)
    (h : ∀ name v, members.get? name = some v → v.WellFormed) :
    (object node members).WellFormed :=
  wellFormed_object.mpr ⟨hnames, fun m hm => h m.1 m.2 ((Fields.mem_iff_get? hnames m.1 m.2).mp hm)⟩

theorem wellFormed_ofList {members : List (String × Value)} (h : ∀ m ∈ members, m.2.WellFormed) :
    (ofMembers (Fields.ofList members)).WellFormed :=
  .object (Fields.nodup_names_ofList members) fun m hm => h m (Fields.mem_of_mem_ofList hm)

theorem WellFormed.deepCopy {v : Value} (h : v.WellFormed) : v.deepCopy.WellFormed := by
  induction v using rec_nodes with
  | onArray node items ih =>
    rw [wellFormed_array] at h
    rw [Value.deepCopy, copyItems_eq_map, wellFormed_ofItems, List.forall_mem_map]
    exact fun v hv => ih v hv (h v hv)
  | onObject node members ih =>
    rw [wellFormed_object] at h
    rw [Value.deepCopy, copyMembers_eq_map, wellFormed_ofMembers, Fields.names_map,
      List.forall_mem_map]
    exact ⟨h.1, fun m hm => ih m hm (h.2 m hm)⟩
  | onLeaf v harray hobject =>
    cases v <;> first | exact h | simp [kind] at harray hobject

theorem wellFormed_ofJson {v : Json} (h : v.Distinct) : (ofJson v).WellFormed := by
  induction v using Json.rec_nodes with
  | onArray items ih =>
    rw [ofJson, ofJsonItems_eq_map, wellFormed_ofItems, List.forall_mem_map]
    exact fun v hv => ih v hv (h.item hv)
  | onObject members ih =>
    rw [ofJson, ofJsonMembers_eq_map, wellFormed_ofMembers, Fields.names_map, List.forall_mem_map]
    exact ⟨h _ _ .here, fun m hm => ih m hm (h.member hm)⟩
  | onLeaf v harray hobject =>
    cases v with
    | array items => exact absurd rfl (harray items)
    | object members => exact absurd rfl (hobject members)
    | _ => simp [ofJson]

theorem WellFormed.joined {own : Value} {items : List Value} (hown : own.WellFormed)
    (h : ∀ v ∈ items, v.WellFormed) : (own.joined items).WellFormed := by
  have hcopies : ∀ v ∈ copyItems items, v.WellFormed := by
    rw [copyItems_eq_map, List.forall_mem_map]
    exact fun v hv => (h v hv).deepCopy
  cases own with
  | array node own =>
    exact wellFormed_ofItems.mpr (List.forall_mem_append.mpr ⟨wellFormed_array.mp hown, hcopies⟩)
  | _ => exact wellFormed_ofItems.mpr (List.forall_mem_cons.mpr ⟨hown, hcopies⟩)

theorem wellFormed_of_settles {given : String → List Value} {own fields : Fields Value}
    {node node' : Node} (hown : (object node own).WellFormed) (h : SettlesTo given own fields)
    (hstep : ∀ name, ∀ v ∈ given name, ∀ o o' : Option Value, (∀ w ∈ o, w.WellFormed) →
      MergesTo v o o' → ∀ w ∈ o', w.WellFormed) : (object node' fields).WellFormed := by
  refine wellFormed_of_get? (h.nodup (wellFormed_object.mp hown).1) fun name v hv => ?_
  have hsettled : ∀ w ∈ fields.get? name, w.WellFormed :=
    Settles.invariant (hstep name) (h.get? name) fun w hw => hown.of_get? hw
  exact hsettled v hv

/-- What a name comes to, if merging under the members of the parent's value keeps to well-formed
values. -/
theorem wellFormed_of_mergesTo_of_members {parent : Value} (hparent : parent.WellFormed)
    (hmembers : ∀ node members, parent = object node members → ∀ m ∈ members,
      ∀ o o' : Option Value, (∀ w ∈ o, w.WellFormed) → m.2.MergesTo o o' → ∀ w ∈ o', w.WellFormed)
    {o o' : Option Value} (ho : ∀ v ∈ o, v.WellFormed) (h : parent.MergesTo o o') :
    ∀ v ∈ o', v.WellFormed := by
  cases h with
  | copied => simpa using hparent.deepCopy
  | kept => exact ho
  | removed => simp
  | joined heq =>
    subst heq
    simpa using (ho _ rfl).joined (wellFormed_array.mp hparent)
  | appended heq =>
    have hitems := wellFormed_array.mp (ho _ rfl)
    simpa using List.forall_mem_append.mpr ⟨hitems, List.forall_mem_singleton.mpr hparent.deepCopy⟩
  | merged heq hconflict =>
    have hgiven (name : String) (v : Value) (hv : v ∈ Fields.valuesOf _ name) :=
      hmembers _ _ heq (name, v) (Fields.mem_valuesOf_iff.mp hv)
    simpa [ofMembers] using wellFormed_of_settles (ho _ rfl) (settlesTo_of_mergeMembers hconflict) hgiven

theorem wellFormed_of_mergesTo {parent : Value} (hparent : parent.WellFormed)
    {o o' : Option Value} (ho : ∀ v ∈ o, v.WellFormed) (h : parent.MergesTo o o') :
    ∀ v ∈ o', v.WellFormed := by
  induction parent using rec_nodes generalizing o o' with
  | onArray node items ih => exact wellFormed_of_mergesTo_of_members hparent (by simp) ho h
  | onObject node members ih =>
    refine wellFormed_of_mergesTo_of_members hparent ?_ ho h
    rintro _ _ ⟨⟩ m hm o o' ho h
    exact ih m hm ((wellFormed_object.mp hparent).2 m hm) ho h
  | onLeaf v harray hobject =>
    refine wellFormed_of_mergesTo_of_members hparent ?_ ho h
    rintro _ _ rfl
    exact absurd rfl hobject

theorem WellFormed.mergeAt {path : Path} {template parent : Value}
    (htemplate : template.WellFormed) (hparent : parent.WellFormed)
    (h : (Value.mergeAt path parent template).conflict = none) :
    (Value.mergeAt path parent template).result.WellFormed := by
  unfold Value.mergeAt at h ⊢
  split at h
  · cases h
  rename_i hsame
  rw [if_neg hsame]
  split at h
  · refine wellFormed_of_settles htemplate (settlesTo_of_mergeMembers h) fun name v hv o o' ho => ?_
    refine wellFormed_of_mergesTo ?_ ho
    exact (wellFormed_object.mp hparent).2 (name, v) (Fields.mem_valuesOf_iff.mp hv)
  · exact htemplate.joined (wellFormed_array.mp hparent)
  · exact wellFormed_ofItems.mpr (List.forall_mem_append.mpr
      ⟨wellFormed_array.mp htemplate, List.forall_mem_singleton.mpr hparent.deepCopy⟩)
  · cases h
  · cases h
  · exact htemplate

theorem WellFormed.merge {template parent r : Value} (htemplate : template.WellFormed)
    (hparent : parent.WellFormed) (h : template.merge parent = .ok r) : r.WellFormed := by
  rw [Value.merge, merged] at h
  cases hconflict : (Value.mergeAt .root parent template).conflict with
  | some c => simp [hconflict] at h
  | none =>
    simp only [hconflict, Except.ok.injEq] at h
    exact h ▸ htemplate.mergeAt hparent hconflict

end Value

/-- All bindings are well-formed. -/
def Scope.WellFormed (scope : Scope) : Prop :=
  ∀ layer ∈ scope, ∀ m ∈ layer, m.2.WellFormed

theorem Value.wellFormed_lambda {origin : Trail} {params : List String} {body : Expr}
    {scope : Scope} : (lambda origin params body scope).WellFormed ↔ scope.WellFormed := by
  constructor
  · rintro ⟨⟩
    assumption
  · exact .lambda

namespace Scope.WellFormed

variable {scope : Scope}

theorem nil : Scope.WellFormed [] :=
  fun _ h => nomatch h

theorem cons {layer : Fields Value} (hlayer : ∀ m ∈ layer, m.2.WellFormed)
    (h : scope.WellFormed) : Scope.WellFormed (layer :: scope) :=
  List.forall_mem_cons.mpr ⟨hlayer, h⟩

theorem get? {name : String} {v : Value} (h : scope.WellFormed) (hget : scope.get? name = some v) :
    v.WellFormed := by
  obtain ⟨layer, hlayer, hv⟩ := List.exists_of_findSome?_eq_some hget
  exact h layer hlayer (name, v) (Fields.mem_of_get? hv)

end Scope.WellFormed

end Stencil

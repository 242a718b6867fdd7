import Mathlib
import Stencil.Proofs.Merge.Settling
import Stencil.Proofs.Value.Parts

/-!
# Members of a merged object

A merge of two objects that succeeds, told name by name: the names of the template stay in their
order, but for the deleted ones that an array or object of the parent uses up, and the other names
of the parent follow in theirs. What stands under a name depends on the values that the two objects
have for it, and if these are objects it is the merge of the two.
-/

namespace Stencil

/-- The place that a path leads to from the end of another one. -/
def Path.below (base path : Path) : Path :=
  ⟨base.segments ++ path.segments⟩

theorem Path.field_below (base path : Path) (name : String) :
    (base.below path).field name = base.below (path.field name) := by
  simp [below, field]

theorem Path.below_root (base : Path) : base.below .root = base := by
  simp [below, root]

def MergeConflict.below (base : Path) (c : MergeConflict) : MergeConflict :=
  { c with path := base.below c.path }

/-- The same outcome, with the conflict at a place further down. -/
def Merged.below {α : Type} (base : Path) (m : Merged α) : Merged α :=
  { m with conflict := m.conflict.map (.below base) }

namespace Value

/-- The outcome of a merge does not depend on where it takes place. -/
def Relocates (parent : Value) : Prop :=
  ∀ base path template,
    mergeAt (base.below path) parent template = (mergeAt path parent template).below base

theorem mergeMember_below {parent : Value} (hparent : parent.Relocates) (base path : Path)
    (name : String) (own : Fields Value) :
    mergeMember (base.below path) name parent own =
      (mergeMember path name parent own).below base := by
  rw [mergeMember, mergeMember, Path.field_below]
  cases own.get? name with
  | none => rfl
  | some v =>
    by_cases hsame : v.sameNode parent
    · simp [hsame, Merged.below, MergeConflict.below]
    · by_cases hdel : v.isDeletion
      · cases parent <;> simp [hsame, hdel, Merged.below]
      · cases parent with
        | object node members => simp [hsame, hdel, hparent base, Merged.below]
        | _ => simp [hsame, hdel, Merged.below]

theorem mergeMembers_below {members : List (String × Value)}
    (hmembers : ∀ m ∈ members, m.2.Relocates) (base path : Path) (own : Fields Value) :
    mergeMembers (base.below path) members own = (mergeMembers path members own).below base := by
  induction members generalizing own with
  | nil => rfl
  | cons m rest ih =>
    rcases m with ⟨name, parent⟩
    rw [mergeMembers_cons, mergeMembers_cons, mergeMember_below (hmembers _ List.mem_cons_self)]
    cases hconflict : (mergeMember path name parent own).conflict with
    | some c => simp [Merged.below, hconflict]
    | none =>
      simp only [Merged.below, hconflict, Option.map_none]
      exact ih (fun m hm => hmembers m (List.mem_cons_of_mem _ hm)) _

theorem relocates (parent : Value) : parent.Relocates := by
  induction parent using rec_nodes with
  | onObject node members ih =>
    intro base path template
    unfold mergeAt
    by_cases hsame : template.sameNode (object node members)
    · simp [hsame, Merged.below, MergeConflict.below]
    · cases template <;>
        simp [hsame, mergeMembers_below ih, Merged.below, MergeConflict.below]
  | onArray node items ih =>
    intro base path template
    unfold mergeAt
    by_cases hsame : template.sameNode (array node items)
    · simp [hsame, Merged.below, MergeConflict.below]
    · cases template <;> simp [hsame, Merged.below, MergeConflict.below]
  | onLeaf v harray hobject =>
    intro base path template
    unfold mergeAt
    cases v with
    | array => simp [kind] at harray
    | object => simp [kind] at hobject
    | _ => cases template <;> simp [sameNode, Merged.below]

theorem mergeAt_eq_below (path : Path) (parent template : Value) :
    mergeAt path parent template = (template.merged parent).below path := by
  have h := relocates parent path .root template
  rwa [Path.below_root] at h

theorem conflict_mergeMember_congr {own own' : Fields Value} {name : String}
    (h : own.get? name = own'.get? name) (path : Path) (parent : Value) :
    (mergeMember path name parent own).conflict = (mergeMember path name parent own').conflict := by
  rw [mergeMember, mergeMember, h]
  cases own'.get? name with
  | none => rfl
  | some v =>
    by_cases hsame : v.sameNode parent
    · simp [hsame]
    · by_cases hdel : v.isDeletion
      · cases parent <;> simp [hsame, hdel]
      · cases parent <;> simp [hsame, hdel]

/-- Each member meets the value that the template has for its name from the start. -/
theorem conflict_mergeMembers {path : Path} {members own : Fields Value}
    (hmembers : members.names.Nodup) :
    (mergeMembers path members own).conflict =
      members.findSome? fun m => (mergeMember path m.1 m.2 own).conflict := by
  induction members generalizing own with
  | nil => rfl
  | cons m rest ih =>
    rcases m with ⟨name, parent⟩
    obtain ⟨hnew, hrest⟩ := List.nodup_cons.mp hmembers
    rw [mergeMembers_cons, List.findSome?_cons]
    cases hconflict : (mergeMember path name parent own).conflict with
    | some c => rfl
    | none =>
      simp only
      rw [ih hrest, ← List.head?_filterMap, ← List.head?_filterMap]
      apply congrArg List.head?
      apply List.filterMap_congr
      intro m hm
      have hne : m.1 ≠ name := by
        rintro rfl
        exact hnew (List.mem_map.mpr ⟨m, hm, rfl⟩)
      exact conflict_mergeMember_congr ((mergesTo_of_mergeMember hconflict).1.get? m.1 hne) path m.2

theorem sameNode_of_mergeMembers {path : Path} {members own : Fields Value} {k : String}
    {u v : Value} (hmembers : members.names.Nodup)
    (h : (mergeMembers path members own).conflict = none) (hu : members.get? k = some u)
    (hv : own.get? k = some v) : v.sameNode u = false := by
  rw [conflict_mergeMembers hmembers, List.findSome?_eq_none_iff] at h
  have hmember := h (k, u) (Fields.mem_of_get? hu)
  by_contra hsame
  rw [Bool.not_eq_false] at hsame
  simp [mergeMember, hv, hsame] at hmember

theorem mergesTo_of_mergeMembers {path : Path} {members own : Fields Value} {k : String} {u : Value}
    (hmembers : members.names.Nodup) (h : (mergeMembers path members own).conflict = none)
    (hu : members.get? k = some u) :
    MergesTo u (own.get? k) ((mergeMembers path members own).result.get? k) := by
  have hk := (settlesTo_of_mergeMembers h).get? k
  rw [Fields.valuesOf_of_nodup hmembers, hu, Option.toList_some] at hk
  cases hk with
  | cons hstep hrest =>
    rw [hrest.of_nil]
    exact hstep

theorem get?_mergeMembers_of_none {path : Path} {members own : Fields Value} {k : String}
    (hmembers : members.names.Nodup) (h : (mergeMembers path members own).conflict = none)
    (hk : members.get? k = none) : (mergeMembers path members own).result.get? k = own.get? k := by
  have hsettles := (settlesTo_of_mergeMembers h).get? k
  rw [Fields.valuesOf_of_nodup hmembers, hk, Option.toList_none] at hsettles
  exact hsettles.of_nil

/-- A member of the parent is added at the end, or uses up a deletion, or leaves the names alone. -/
theorem mergeMember_cases {path : Path} {name : String} {parent : Value} {own : Fields Value}
    (h : (mergeMember path name parent own).conflict = none) :
    (own.get? name = none ∧
      (mergeMember path name parent own).result = own.insert name parent.deepCopy) ∨
    ∃ v, own.get? name = some v ∧
      ((v.isDeletion && parent.isNode) = true ∧
          (mergeMember path name parent own).result = own.erase name ∨
        (v.isDeletion && parent.isNode) = false ∧
          ∃ w, (mergeMember path name parent own).result = own.insert name w) := by
  rw [mergeMember] at h ⊢
  cases hget : own.get? name with
  | none => exact .inl ⟨rfl, rfl⟩
  | some v =>
    refine .inr ⟨v, rfl, ?_⟩
    simp only [hget] at h ⊢
    by_cases hsame : v.sameNode parent
    · simp [hsame] at h
    · by_cases hdel : v.isDeletion
      · cases parent with
        | array | object => exact .inl ⟨by simp [hdel, isNode], by simp [hsame, hdel]⟩
        | _ =>
          refine .inr ⟨by simp [isNode], v, ?_⟩
          simp [hsame, Fields.insert_of_get? hget]
      · refine .inr ⟨by simp [hdel], ?_⟩
        cases parent with
        | array | object => exact ⟨_, by simp [hsame, hdel]; rfl⟩
        | _ => exact ⟨v, by simp [hsame, Fields.insert_of_get? hget]⟩

/-- A name whose deletion is used up by an array or object of the parent. -/
def usedUp (own members : Fields Value) (k : String) : Bool :=
  (own.get? k).any isDeletion && (members.get? k).any isNode

/-- The names of the template without those that are used up, and then the new ones. -/
def mergedNames (own members : Fields Value) : List String :=
  own.names.filter (fun k => !usedUp own members k) ++ members.names.filter fun k => !own.has k

theorem usedUp_singleton (own : Fields Value) (name k : String) (parent : Value) :
    usedUp own [(name, parent)] k =
      (decide (k = name) && ((own.get? k).any isDeletion && parent.isNode)) := by
  rw [usedUp, Fields.get?_cons]
  by_cases hk : k = name <;> simp [hk, Fields.get?]

theorem names_mergeMember {path : Path} {name : String} {parent : Value} {own : Fields Value}
    (h : (mergeMember path name parent own).conflict = none) :
    (mergeMember path name parent own).result.names = mergedNames own [(name, parent)] := by
  have hkeep (hnot : ((own.get? name).any isDeletion && parent.isNode) = false) :
      own.names.filter (fun k => !usedUp own [(name, parent)] k) = own.names := by
    apply List.filter_eq_self.mpr
    intro k _
    rw [usedUp_singleton]
    by_cases hk : k = name
    · rw [hk, hnot, Bool.and_false, Bool.not_false]
    · simp [hk]
  have hnew : (Fields.names [(name, parent)]).filter (fun k => !own.has k) =
      if own.has name then [] else [name] := by
    by_cases hhas : own.has name <;> simp [Fields.names, hhas]
  rw [mergedNames, hnew]
  rcases mergeMember_cases h with ⟨hget, hresult⟩ | ⟨v, hget, hcases⟩
  · have hhas : own.has name = false := by simp [Fields.has_eq_isSome, hget]
    rw [hresult, Fields.insert_of_not_has own name _ hhas, hkeep (by simp [hget]), hhas]
    simp [Fields.names]
  · have hhas : own.has name = true := by simp [Fields.has_eq_isSome, hget]
    rw [if_pos hhas, List.append_nil]
    rcases hcases with ⟨hused, hresult⟩ | ⟨hnot, w, hresult⟩
    · rw [hresult, Fields.names_erase]
      apply List.filter_congr
      intro k _
      rw [usedUp_singleton]
      by_cases hk : k = name
      · simp [hk, hget, hused]
      · simp [hk]
    · rw [hresult, Fields.names_insert_of_has own name w hhas, hkeep (by simpa [hget] using hnot)]

/-- Merging the first member and then the others gives the names of merging them all. -/
theorem mergedNames_cons {own own₁ rest : Fields Value} {name : String} {parent : Value}
    (hnames : own₁.names = mergedNames own [(name, parent)])
    (hother : ∀ k, k ≠ name → own₁.get? k = own.get? k) (hnew : name ∉ rest.names) :
    mergedNames own₁ rest = mergedNames own ((name, parent) :: rest) := by
  have hnone : rest.get? name = none := (Fields.get?_eq_none_iff rest name).mpr hnew
  have hused (k : String) : usedUp own ((name, parent) :: rest) k =
      (usedUp own₁ rest k || usedUp own [(name, parent)] k) := by
    rw [usedUp_singleton, usedUp, usedUp, Fields.get?_cons]
    by_cases hk : k = name
    · simp [hk, hnone]
    · simp [hk, hother k hk]
  have hhas : rest.names.filter (fun k => !own₁.has k) = rest.names.filter fun k => !own.has k := by
    apply List.filter_congr
    intro k hk
    have hne : k ≠ name := fun heq => hnew (heq ▸ hk)
    rw [Fields.has_eq_isSome, Fields.has_eq_isSome, hother k hne]
  have hadded : ([name].filter fun k => !own.has k).filter (fun k => !usedUp own₁ rest k) =
      [name].filter fun k => !own.has k := by
    apply List.filter_eq_self.mpr
    intro k hk
    rw [List.mem_singleton.mp (List.mem_filter.mp hk).1, usedUp, hnone]
    simp
  calc mergedNames own₁ rest
      = (mergedNames own [(name, parent)]).filter (fun k => !usedUp own₁ rest k) ++
          rest.names.filter (fun k => !own.has k) := by rw [mergedNames, hnames, hhas]
    _ = own.names.filter (fun k => !usedUp own ((name, parent) :: rest) k) ++
          ([name].filter (fun k => !own.has k) ++ rest.names.filter fun k => !own.has k) := by
        rw [mergedNames, List.filter_append, List.filter_filter, ← List.append_assoc]
        simp only [hused, Bool.not_or]
        exact congrArg (_ ++ · ++ _) hadded
    _ = mergedNames own ((name, parent) :: rest) := by
        rw [← List.filter_append]
        rfl

theorem names_mergeMembers {path : Path} {members own : Fields Value}
    (hmembers : members.names.Nodup) (h : (mergeMembers path members own).conflict = none) :
    (mergeMembers path members own).result.names = mergedNames own members := by
  induction members generalizing own with
  | nil => simp [mergeMembers, mergedNames, usedUp, Fields.names, Fields.get?]
  | cons m rest ih =>
    rcases m with ⟨name, parent⟩
    obtain ⟨hnew, hrest⟩ := List.nodup_cons.mp hmembers
    rw [mergeMembers_cons] at h ⊢
    cases hconflict : (mergeMember path name parent own).conflict with
    | some c => simp [hconflict] at h
    | none =>
      simp only [hconflict] at h ⊢
      rw [ih hrest h]
      have hothers := (mergesTo_of_mergeMember hconflict).1.get?
      exact mergedNames_cons (names_mergeMember hconflict) hothers hnew

/-- Two objects at any path: their members are merged. -/
theorem merge_object {node node' : Node} {own members : Fields Value}
    (hsame : (object node own).sameNode (object node' members) = false) (path : Path)
    (h : (mergeMembers path members own).conflict = none) :
    (object node own).merge (object node' members) =
      .ok (ofMembers (mergeMembers path members own).result) := by
  have hbelow : mergeMembers (path.below .root) members own =
      (mergeMembers .root members own).below path :=
    mergeMembers_below (fun m _ => relocates m.2) path .root own
  rw [Path.below_root] at hbelow
  rw [hbelow, Merged.below, Option.map_eq_none_iff] at h
  rw [hbelow, merge, merged, mergeAt, hsame]
  simp [h, Merged.below]

theorem merge_object_eq_ok {node node' : Node} {own members : Fields Value} {r : Value}
    (h : (object node own).merge (object node' members) = .ok r) :
    (mergeMembers .root members own).conflict = none ∧
      r = ofMembers (mergeMembers .root members own).result := by
  rw [merge, merged, mergeAt] at h
  by_cases hsame : (object node own).sameNode (object node' members)
  · simp [hsame] at h
  · cases hconflict : (mergeMembers .root members own).conflict with
    | some c => simp [hsame, hconflict] at h
    | none => simpa [hsame, hconflict, eq_comm] using h

/-- What the values of a name in a template and in a parent are combined to. -/
inductive Combines : Option Value → Option Value → Option Value → Prop
  | absent : Combines none none none
  | copied {u w} : u.Alike w → Combines none (some u) (some w)
  | kept {v parent} : (∀ u, parent = some u → u.isNode = false) → Combines (some v) parent (some v)
  | removed {v u} : v.isDeletion → u.isNode → Combines (some v) (some u) none
  | joined {node items node' added copies} : List.Forall₂ Alike added copies →
      Combines (some (array node items)) (some (array node' added)) (some (ofItems (items ++ copies)))
  | appended {node items node' members w} : Alike (object node' members) w →
      Combines (some (array node items)) (some (object node' members)) (some (ofItems (items ++ [w])))
  | prepended {v node added copies} : v.kind ≠ .array → v.isDeletion = false →
      List.Forall₂ Alike added copies →
      Combines (some v) (some (array node added)) (some (ofItems (v :: copies)))
  | merged {node own node' members w} :
      (object node own).merge (object node' members) = .ok w →
      Combines (some (object node own)) (some (object node' members)) (some w)

theorem combines_of_mergesTo {parent : Value} {own result : Option Value}
    (h : parent.MergesTo own result) (hsame : ∀ v, own = some v → v.sameNode parent = false) :
    Combines own (some parent) result := by
  cases h with
  | copied => exact .copied (alike_deepCopy parent)
  | kept hparent => exact .kept fun u hu => Option.some.inj hu ▸ hparent
  | removed hnode hdel => exact .removed hdel hnode
  | @joined own node items hparent hdel =>
    subst hparent
    have hcopies := forall₂_alike_copyItems items
    cases own with
    | array node' own => exact .joined hcopies
    | _ => exact .prepended (by simp [kind]) hdel hcopies
  | appended hparent =>
    subst hparent
    exact .appended (alike_deepCopy _)
  | @merged path node own node' members hparent hconflict =>
    subst hparent
    exact .merged (merge_object (hsame _ rfl) path hconflict)

/-- What a merge of two objects comes to if it succeeds: its names with their order, and the value
of each. -/
theorem members_of_merge {node node' : Node} {own members : Fields Value} {r : Value}
    (hmembers : members.names.Nodup)
    (h : (object node own).merge (object node' members) = .ok r) :
    ∃ fields : Fields Value, r = ofMembers fields ∧ fields.names = mergedNames own members ∧
      ∀ k, Combines (own.get? k) (members.get? k) (fields.get? k) := by
  obtain ⟨hconflict, hr⟩ := merge_object_eq_ok h
  refine ⟨_, hr, names_mergeMembers hmembers hconflict, fun k => ?_⟩
  cases hu : members.get? k with
  | none =>
    rw [get?_mergeMembers_of_none hmembers hconflict hu]
    cases own.get? k with
    | none => exact .absent
    | some v => exact .kept nofun
  | some u =>
    apply combines_of_mergesTo (mergesTo_of_mergeMembers hmembers hconflict hu)
    exact fun v hv => sameNode_of_mergeMembers hmembers hconflict hu hv

/-- A template and a parent with a name for each rule. -/
def manifold : Fields Value :=
  [("kept", .integer 1), ("gone", .string "null"), ("list", .array (some 1) [.integer 1]),
    ("open", .array (some 2) []), ("one", .boolean true), ("inner", .object (some 3) [("a", .null)]),
    ("null", .null)]

def manifoldParent : Fields Value :=
  [("new", .array (some 11) [.object (some 12) []]), ("gone", .array (some 13) []),
    ("list", .array (some 14) [.integer 2]), ("open", .object (some 15) []),
    ("one", .array (some 16) [.integer 2]), ("null", .integer 3),
    ("inner", .object (some 17) [("a", .object (some 18) []), ("b", .function "keys")])]

theorem members_of_manifold :
    manifoldParent.names.Nodup ∧ ∃ r fields,
      (object (some 0) manifold).merge (object (some 10) manifoldParent) = .ok r ∧
      r = ofMembers fields ∧ fields.names = ["kept", "list", "open", "one", "inner", "null", "new"] ∧
      (∀ k, Combines (manifold.get? k) (manifoldParent.get? k) (Fields.get? fields k)) ∧
      Fields.get? fields "list" = some (ofItems [.integer 1, .integer 2]) ∧
      Fields.get? fields "open" = some (ofItems [ofMembers []]) ∧
      Fields.get? fields "one" = some (ofItems [.boolean true, .integer 2]) ∧
      Fields.get? fields "inner" = some (ofMembers [("b", .function "keys")]) := by
  have hnames : manifoldParent.names.Nodup := by decide
  have h : (object (some 0) manifold).merge (object (some 10) manifoldParent) =
      .ok (ofMembers [("kept", .integer 1), ("list", ofItems [.integer 1, .integer 2]),
        ("open", ofItems [ofMembers []]), ("one", ofItems [.boolean true, .integer 2]),
        ("inner", ofMembers [("b", .function "keys")]), ("null", .null),
        ("new", ofItems [ofMembers []])]) := by
    cbv
  obtain ⟨fields, hr, hfields, hcombines⟩ := members_of_merge hnames h
  injection hr with _ hr
  subst hr
  exact ⟨hnames, _, _, h, rfl, rfl, hcombines, rfl, rfl, rfl, rfl⟩

end Value

end Stencil

import Stencil.Proofs.Comment.Merging
import Stencil.Proofs.Template.OwnMembers

/-!
# Resolving with and without comments

Resolving skips comments, and what it makes of the rest does not depend on them, with two
exceptions: two comments can make a merge fail, and an item of an array is taken for an expansion
only if it has no other member, not even a comment.
-/

namespace Stencil

/-- A merge failed at a comment. -/
def TemplateError.InComment : TemplateError → Prop
  | .eval _ (.mergeConflict conflict) => conflict.InComment
  | _ => False

namespace Template

/-- Whether a member with this key stands for what it expands to. -/
def Key.isExpansion : Key → Bool
  | .iteration .. | .conditional _ => true
  | _ => false

/-- An object with an expansion and no other members but comments. -/
def HidesExpansion : Value → Prop
  | .object _ members => Fields.has members commentKey ∧
      ∃ key body, uncommented members = [(key, body)] ∧ (classify key).isExpansion
  | _ => False

/-- The body of a directive. -/
def mergedBody (ws : Workspace) (path : Path) (members : Fields Value) : Result Value := do
  let modules ← extendedModules ws (path.field extendKey) (members.get? extendKey)
  (modules.filterMap (·.template)).foldlM (mergeAt (path.field templateKey))
    ((members.get? templateKey).getD .null)

/-- Among the nodes that resolving a value comes to is an array in which a comment hides an
expansion. -/
inductive MeetsHidden (ws : Workspace) : Value → Prop
  | found {node items item} : item ∈ items → HidesExpansion item →
      MeetsHidden ws (.array node items)
  | item {node items item} : item ∈ items → MeetsHidden ws item →
      MeetsHidden ws (.array node items)
  | member {node members m} : Fields.has members templateKey = false →
      m ∈ uncommented members → MeetsHidden ws m.2 → MeetsHidden ws (.object node members)
  | scope {node members v} : Fields.has members templateKey →
      Fields.get? members scopeKey = some v → MeetsHidden ws v →
      MeetsHidden ws (.object node members)
  | body {node members path v} : Fields.has members templateKey →
      mergedBody ws path members = .ok v → MeetsHidden ws v →
      MeetsHidden ws (.object node members)

/-- The outcomes are the same unless the second is a conflict at a comment. -/
abbrev Agree {α : Type} (x' x : Result α) : Prop :=
  AgreeUnless TemplateError.InComment x' x

/-- A value with its comments and one without them resolve to the same. -/
def IgnoresComments (resolve' resolve : Resolver) (v : Value) : Prop :=
  ∀ here path scope, Agree (resolve' here path scope v.stripComments) (resolve here path scope v)

variable {ws : Workspace} {resolve' resolve : Resolver} {here : Trail} {path : Path} {scope : Scope}

theorem rounds_stripComments {k : Nat} {name : String} {body : Value}
    (hbody : IgnoresComments resolve' resolve body) (i : Nat) (vs : List Value) :
    Agree (rounds resolve' here k path scope name body.stripComments i vs)
      (rounds resolve here k path scope name body i vs) := by
  induction vs generalizing i with
  | nil => exact .refl _ _
  | cons v vs ih =>
    apply AgreeUnless.bind_same (hbody _ _ _)
    intro result _
    exact .bind_same (ih (i + 1)) fun _ _ => .refl _ _

theorem iterate_stripComments {k : Nat} {source name : String} {body : Value}
    (hbody : IgnoresComments resolve' resolve body) :
    Agree (iterate ws.stripComments resolve' here k path scope source name body.stripComments)
      (iterate ws resolve here k path scope source name body) := by
  apply AgreeUnless.bind_same (.refl _ (evaluate ws (here.key k) path scope source))
  intro v _
  cases v with
  | array node items => exact rounds_stripComments hbody 0 items
  | _ => exact .refl _ _

theorem choose_stripComments {k : Nat} {source : String} {body : Value}
    (hbody : IgnoresComments resolve' resolve body) :
    Agree (choose ws.stripComments resolve' here k path scope source body.stripComments)
      (choose ws resolve here k path scope source body) := by
  apply AgreeUnless.bind_same (.refl _ (evaluate ws (here.key k) path scope source))
  intro test _
  by_cases htest : test.truthy
  · rw [if_pos htest, if_pos htest]
    exact .bind_same (hbody _ _ _) fun _ _ => .refl _ _
  · rw [if_neg htest, if_neg htest]
    exact .refl _ _

theorem expand_eq_none {k : Nat} {body : Value} {key : Key} (hkey : key.isExpansion = false) :
    expand ws resolve here k path scope body key = none := by
  cases key <;> simp [Key.isExpansion, expand] at hkey ⊢

theorem expand_stripComments {k : Nat} {body : Value} {key : Key}
    (hbody : key.isExpansion → IgnoresComments resolve' resolve body) :
    Option.Rel Agree (expand ws.stripComments resolve' here k path scope body.stripComments key)
      (expand ws resolve here k path scope body key) := by
  cases key with
  | iteration source name => exact .some (iterate_stripComments (hbody rfl))
  | conditional source => exact .some (choose_stripComments (hbody rfl))
  | _ => exact .none

theorem stripComments_object (node : Node) (members : Fields Value) :
    (Value.object node members).stripComments =
      .object node ((uncommented members).map fun m => (m.1, m.2.stripComments)) := by
  rw [Value.stripComments, Value.stripCommentMembers_eq_map]
  rfl

theorem isExpansion_commentKey : (classify commentKey).isExpansion = false := by
  simp [classify, Key.isExpansion]

theorem ne_templateKey {key : String} (hkey : (classify key).isExpansion) : templateKey ≠ key := by
  rintro rfl
  have htemplate : (classify templateKey).isExpansion = false := by decide +kernel
  rw [htemplate] at hkey
  simp at hkey

theorem uncommented_singleton {key : String} {body : Value}
    (hkey : (classify key).isExpansion) : uncommented [(key, body)] = [(key, body)] := by
  have hne : key ≠ commentKey := by
    rintro rfl
    simp [isExpansion_commentKey] at hkey
  simp [uncommented, hne]

theorem expandItem_eq_none {node : Node} {members : Fields Value}
    (h : ∀ key body, members = [(key, body)] → (classify key).isExpansion = false) :
    expandItem ws resolve here path scope (.object node members) = none := by
  match members, h with
  | [], _ => rfl
  | [(key, body)], h => exact expand_eq_none (h key body rfl)
  | _ :: _ :: _, _ => rfl

theorem expandItem_stripComments {item : Value} (hitem : ¬ HidesExpansion item)
    (hbody : ∀ node key body, item = .object node [(key, body)] → (classify key).isExpansion →
      IgnoresComments resolve' resolve body) :
    Option.Rel Agree (expandItem ws.stripComments resolve' here path scope item.stripComments)
      (expandItem ws resolve here path scope item) := by
  cases item with
  | object node members =>
    rw [stripComments_object]
    by_cases hkept : ∃ key body, uncommented members = [(key, body)] ∧ (classify key).isExpansion
    · obtain ⟨key, body, hmembers, hkey⟩ := hkept
      have hcomment : Fields.has members commentKey = false :=
        Bool.eq_false_iff.mpr fun hhas => hitem ⟨hhas, key, body, hmembers, hkey⟩
      have hall : members = [(key, body)] :=
        (Fields.erase_of_not_has hcomment).symm.trans hmembers
      rw [hmembers, hall]
      exact expand_stripComments fun _ => hbody node key body (hall ▸ rfl) hkey
    · have hleft : expandItem ws.stripComments resolve' here path scope
          (.object node ((uncommented members).map fun m => (m.1, m.2.stripComments))) = none := by
        apply expandItem_eq_none
        intro key body hmap
        rcases List.map_eq_singleton_iff.mp hmap with ⟨m, hm, heq⟩
        rw [Prod.mk.injEq] at heq
        rw [Bool.eq_false_iff]
        exact fun hkey => hkept ⟨m.1, m.2, hm, heq.1 ▸ hkey⟩
      have hright : expandItem ws resolve here path scope (.object node members) = none := by
        apply expandItem_eq_none
        rintro key body rfl
        rw [Bool.eq_false_iff]
        exact fun hkey => hkept ⟨key, body, uncommented_singleton hkey, hkey⟩
      rw [hleft, hright]
      exact .none
  | _ => exact .none

theorem resolveItem_stripComments {item : Value} (hitem : ¬ HidesExpansion item)
    (hself : IgnoresComments resolve' resolve item)
    (hbody : ∀ node key body, item = .object node [(key, body)] → (classify key).isExpansion →
      IgnoresComments resolve' resolve body) :
    Agree (resolveItem ws.stripComments resolve' here path scope item.stripComments)
      (resolveItem ws resolve here path scope item) := by
  have hexpand : Option.Rel Agree
      (expandItem ws.stripComments resolve' here path scope item.stripComments)
      (expandItem ws resolve here path scope item) := expandItem_stripComments hitem hbody
  rw [resolveItem, resolveItem]
  revert hexpand
  generalize expandItem ws.stripComments resolve' here path scope item.stripComments = left
  generalize expandItem ws resolve here path scope item = right
  rintro (h | -)
  · exact h.map
  · exact (hself here path scope).map

theorem resolveItems_stripComments {items : List Value} (i : Nat)
    (hitems : ∀ item ∈ items, ¬ HidesExpansion item ∧ IgnoresComments resolve' resolve item ∧
      ∀ node key body, item = .object node [(key, body)] → (classify key).isExpansion →
        IgnoresComments resolve' resolve body) :
    Agree (resolveItems ws.stripComments resolve' here path scope i (items.map Value.stripComments))
      (resolveItems ws resolve here path scope i items) := by
  induction items generalizing i with
  | nil => exact .refl _ _
  | cons item items ih =>
    rcases hitems item List.mem_cons_self with ⟨hhidden, hself, hbody⟩
    apply AgreeUnless.bind_same (resolveItem_stripComments hhidden hself hbody)
    intro elements _
    have hrest := ih (i + 1) fun item hitem => hitems item (List.mem_cons_of_mem _ hitem)
    exact .bind_same hrest fun _ _ => .refl _ _

theorem resolveMember_stripComments {k : Nat} {key : String} {body : Value}
    (hbody : IgnoresComments resolve' resolve body) :
    Agree (resolveMember ws.stripComments resolve' here k path scope key body.stripComments)
      (resolveMember ws resolve here k path scope key body) := by
  rw [resolveMember, resolveMember]
  cases classify key with
  | comment => exact .refl _ _
  | literal => exact .bind_same (hbody _ _ _) fun _ _ => .refl _ _
  | computed source =>
    apply AgreeUnless.bind_same (.refl _ (computedName ws (here.key k) path scope source))
    intro name _
    exact .bind_same (hbody _ _ _) fun _ _ => .refl _ _
  | iteration source name => exact .bind_same (iterate_stripComments hbody) fun _ _ => .refl _ _
  | conditional source => exact .bind_same (choose_stripComments hbody) fun _ _ => .refl _ _

theorem resolveMembers_stripComments {members : Fields Value} (k : Nat)
    (hmembers : ∀ m ∈ members, IgnoresComments resolve' resolve m.2) :
    Agree (resolveMembers ws.stripComments resolve' here path scope k
        (members.map fun m => (m.1, m.2.stripComments)))
      (resolveMembers ws resolve here path scope k members) := by
  induction members generalizing k with
  | nil => exact .refl _ _
  | cons m members ih =>
    rcases m with ⟨key, body⟩
    apply AgreeUnless.bind_same (resolveMember_stripComments (hmembers _ List.mem_cons_self))
    intro piece _
    have hrest := ih (k + 1) fun m hm => hmembers m (List.mem_cons_of_mem _ hm)
    exact .bind_same hrest fun _ _ => .refl _ _

theorem uncommented_map (members : Fields Value) :
    uncommented ((uncommented members).map fun m => (m.1, m.2.stripComments)) =
      (uncommented members).map fun m => (m.1, m.2.stripComments) := by
  simp only [uncommented_eq_erase, Fields.erase_map, Fields.erase_erase]

theorem resolveObject_stripComments {members : Fields Value}
    (hmembers : ∀ m ∈ uncommented members, IgnoresComments resolve' resolve m.2) :
    Agree (resolveObject ws.stripComments resolve' here path scope
        ((uncommented members).map fun m => (m.1, m.2.stripComments)))
      (resolveObject ws resolve here path scope members) := by
  have hpieces : Agree (resolveMembers ws.stripComments resolve' here path scope 0
      (uncommented ((uncommented members).map fun m => (m.1, m.2.stripComments))))
      (resolveMembers ws resolve here path scope 0 (uncommented members)) := by
    rw [uncommented_map]
    exact resolveMembers_stripComments 0 hmembers
  exact .bind_same hpieces fun _ _ => .refl _ _

theorem checkKeys_stripComments {allowed : List String} (hallowed : commentKey ∈ allowed)
    (path : Path) (members : Fields Value) :
    checkKeys path allowed (Value.stripCommentMembers members) = checkKeys path allowed members := by
  have hfind : (Value.stripCommentMembers members).names.find? (!allowed.contains ·) =
      members.names.find? (!allowed.contains ·) := by
    rw [Value.stripCommentMembers_eq_map, Fields.names_map, Fields.names_erase, List.find?_filter]
    congr 1
    funext key
    by_cases hkey : key = commentKey
    · simp [hkey, hallowed]
    · simp [hkey]
  rw [checkKeys, checkKeys, hfind]

theorem extendedNames_stripComments (path : Path) (node : Option Value) :
    extendedNames path (node.map Value.stripComments) = extendedNames path node := by
  cases node with
  | none => rfl
  | some v =>
    cases v with
    | array mark items =>
      rw [Option.map_some, Value.stripComments, Value.stripCommentItems_eq_map, extendedNames,
        List.mapM_map]
      congr 1
      funext item
      cases item <;> rfl
    | _ => rfl

theorem extendedModules_stripComments (ws : Workspace) (path : Path) (node : Option Value) :
    extendedModules ws.stripComments path (node.map Value.stripComments) =
      List.map Module.stripComments <$> extendedModules ws path node := by
  rw [extendedModules, extendedModules, extendedNames_stripComments, map_bind]
  congr 1
  funext names
  induction names with
  | nil => rfl
  | cons name names ih =>
    have hget : ws.stripComments.modules.get? name =
        (ws.modules.get? name).map Module.stripComments := Fields.get?_map _ _ _
    rw [List.mapM_cons, List.mapM_cons, ih, hget]
    cases ws.modules.get? name with
    | none => rfl
    | some m =>
      simp only [Option.map_some, map_bind, map_pure, bind_map_left, List.map_cons]
      rfl

theorem inheritedBindings_stripComments (path : Path) (modules : List Module) :
    inheritedBindings path (modules.map Module.stripComments) = inheritedBindings path modules := by
  rw [inheritedBindings, inheritedBindings, List.foldlM_map]
  rfl

theorem directiveBindings_stripComments {inherited : Fields Value} {node : Option Value}
    (hnode : ∀ v, node = some v → IgnoresComments resolve' resolve v) :
    Agree (directiveBindings resolve' here path scope inherited (node.map Value.stripComments))
      (directiveBindings resolve here path scope inherited node) := by
  cases node with
  | none => exact .refl _ _
  | some v =>
    refine .bind_same ?_ fun own _ => .refl _ _
    exact .bind_same (hnode v rfl _ _ _) fun _ _ => .refl _ _

theorem mergeAt_stripComments (path : Path) (template parent : Value) :
    Agree (mergeAt path template.stripComments parent.stripComments)
      (Value.stripComments <$> mergeAt path template parent) := by
  have hmerge := (Value.merge_stripComments template parent).mapError
    (f := fun conflict => TemplateError.eval path (.mergeConflict conflict))
    (Q := TemplateError.InComment) fun _ h => h
  have hmap : Value.stripComments <$> mergeAt path template parent =
      (Value.stripComments <$> template.merge parent).mapError
        fun conflict => TemplateError.eval path (.mergeConflict conflict) := by
    rw [mergeAt]
    cases template.merge parent <;> rfl
  rw [hmap]
  exact hmerge

/-- The templates of modules merged into a body. -/
theorem mergeTemplates_stripComments (path : Path) (modules : List Module) (body : Value) :
    Agree (((modules.map Module.stripComments).filterMap (·.template)).foldlM (mergeAt path)
        body.stripComments)
      (Value.stripComments <$> (modules.filterMap (·.template)).foldlM (mergeAt path) body) := by
  have htemplates : (modules.map Module.stripComments).filterMap (·.template) =
      (modules.filterMap (·.template)).map Value.stripComments := by
    rw [List.filterMap_map, List.map_filterMap]
    rfl
  rw [htemplates]
  exact .foldlM (mergeAt_stripComments path) _ body

theorem directive_stripComments {members : Fields Value}
    (hscope : ∀ v, Fields.get? members scopeKey = some v → IgnoresComments resolve' resolve v) :
    Agree (directive ws.stripComments resolve' here path scope (Value.stripCommentMembers members))
      ((fun r => (r.1, r.2.stripComments)) <$> directive ws resolve here path scope members) := by
  have hextend : extendKey ≠ commentKey := by decide
  rw [directive, directive, Value.get?_stripCommentMembers hextend,
    Value.get?_stripCommentMembers scopeKey_ne_commentKey,
    Value.get?_stripCommentMembers templateKey_ne_commentKey,
    extendedModules_stripComments, map_bind]
  apply AgreeUnless.bind (.refl _ _)
  intro modules _
  rw [inheritedBindings_stripComments, map_bind]
  apply AgreeUnless.bind_same (.refl _ _)
  intro inherited _
  rw [map_bind]
  apply AgreeUnless.bind_same (directiveBindings_stripComments hscope)
  intro bindings _
  rw [map_bind]
  have hbody : ((Fields.get? members templateKey).map Value.stripComments).getD .null =
      ((Fields.get? members templateKey).getD .null).stripComments := by
    cases Fields.get? members templateKey <;> rfl
  rw [hbody]
  exact .bind (mergeTemplates_stripComments _ modules _) fun body _ => .refl _ _

theorem mergedBody_of_directive {members : Fields Value} {working : Scope} {body : Value}
    (h : directive ws resolve here path scope members = .ok (working, body)) :
    mergedBody ws path members = .ok body := by
  simp only [directive, bind_eq_ok, pure_eq_ok] at h
  rcases h with ⟨modules, hmodules, _, _, _, _, body', hbody, heq⟩
  rw [Prod.mk.injEq] at heq
  rw [mergedBody, hmodules]
  exact heq.2 ▸ hbody

theorem resolveNode_stripComments
    (hresolve : ∀ v, ¬ MeetsHidden ws v → IgnoresComments resolve' resolve v) {v : Value}
    (hv : ¬ MeetsHidden ws v) :
    IgnoresComments (resolveNode ws.stripComments resolve') (resolveNode ws resolve) v := by
  intro here path scope
  cases v with
  | array node items =>
    rw [Value.stripComments, Value.stripCommentItems_eq_map]
    refine (resolveItems_stripComments 0 fun item hitem => ?_).map
    refine ⟨fun h => hv (.found hitem h), hresolve item fun h => hv (.item hitem h), ?_⟩
    rintro mark key body rfl hkey
    apply hresolve
    intro hbody
    refine hv (.item hitem (.member ?_ (m := (key, body)) ?_ hbody))
    · rw [Fields.has_eq_isSome, Fields.get?_cons, if_neg (ne_templateKey hkey)]
      rfl
    · rw [uncommented_singleton hkey]
      exact List.mem_singleton_self _
  | object node members =>
    rw [Value.stripComments, resolveNode, resolveNode,
      Value.has_stripCommentMembers templateKey_ne_commentKey]
    by_cases hhas : Fields.has members templateKey
    · rw [if_pos hhas, if_pos hhas, checkKeys_stripComments (by simp)]
      apply AgreeUnless.bind_same (.refl _ _)
      intro _ _
      have hdirective : Agree
          (directive ws.stripComments resolve' here path scope (Value.stripCommentMembers members))
          ((fun r => (r.1, r.2.stripComments)) <$> directive ws resolve here path scope members) :=
        directive_stripComments fun v hget =>
          hresolve v fun h => hv (.scope hhas hget h)
      apply AgreeUnless.bind hdirective
      intro r hr
      have hbody := mergedBody_of_directive hr
      exact hresolve r.2 (fun h => hv (.body hhas hbody h)) _ _ _
    · rw [if_neg hhas, if_neg hhas, Value.stripCommentMembers_eq_map]
      refine resolveObject_stripComments fun m hm => hresolve m.2 fun h => ?_
      exact hv (.member (Bool.eq_false_iff.mpr hhas) hm h)
  | _ => exact .refl _ _

theorem resolve_stripComments {depth : Nat} {v : Value} (hv : ¬ MeetsHidden ws v) :
    IgnoresComments (Template.resolve ws.stripComments depth) (Template.resolve ws depth) v := by
  induction depth generalizing v with
  | zero => exact fun _ _ _ => .refl _ _
  | succ depth ih => exact resolveNode_stripComments (fun v hv => ih hv) hv

end Template

end Stencil

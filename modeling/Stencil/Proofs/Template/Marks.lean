import Stencil.Proofs.Merge.Marks
import Stencil.Proofs.Template.Limit
import Stencil.Proofs.Template.OwnMembers
import Stencil.Template.Workspace

/-!
# Nodes that resolving makes

What a node resolves to has no marks, whatever marks there are in the scope: expressions give
copies, and all else is made anew. A node that is not new comes into a merge from a text alone, as
part of a body or of the template of a module. So a value is not merged into itself as long as a
body has no node in common with the templates, and merging a template into a body keeps it so.
-/

namespace Stencil

open Value (Unmarked)

/-- A value was to be merged into itself. -/
def TemplateError.IsSelfMerge : TemplateError → Prop
  | .eval _ (.mergeConflict conflict) => conflict.fault = .itself
  | _ => False

namespace Template

/-- No value was to be merged into itself, and the result, if there is one, satisfies `P`. -/
def Safe {α : Type} (P : α → Prop) : Result α → Prop
  | .ok a => P a
  | .error e => ¬ e.IsSelfMerge

namespace Safe

variable {α β : Type} {P P' : α → Prop} {Q : β → Prop} {x : Result α}

theorem bind {f : α → Result β} (h : Safe P x) (hf : ∀ a, P a → Safe Q (f a)) :
    Safe Q (x >>= f) := by
  cases x with
  | ok a => exact hf a h
  | error e => exact h

theorem map {f : α → β} (h : Safe P x) (hf : ∀ a, P a → Q (f a)) : Safe Q (x.map f) := by
  cases x with
  | ok a => exact hf a h
  | error e => exact h

theorem mono (h : Safe P x) (hP : ∀ a, P a → P' a) : Safe P' x := by
  cases x with
  | ok a => exact hP a h
  | error e => exact h

theorem avoids (h : Safe P x) : Avoids TemplateError.IsSelfMerge x := by
  rintro e rfl
  exact h

theorem foldlM {step : α → β → Result α} {bs : List β}
    (hstep : ∀ a, ∀ b ∈ bs, P a → Safe P (step a b)) {a : α} (ha : P a) :
    Safe P (bs.foldlM step a) := by
  induction bs generalizing a with
  | nil => exact ha
  | cons b bs ih =>
    rw [List.foldlM_cons]
    exact (hstep a b List.mem_cons_self ha).bind fun a' ha' =>
      ih (fun a b hb => hstep a b (List.mem_cons_of_mem _ hb)) ha'

theorem mapM {f : β → Result α} {bs : List β} (hf : ∀ b ∈ bs, Safe P (f b)) :
    Safe (fun as => ∀ a ∈ as, P a) (bs.mapM f) := by
  induction bs with
  | nil => simp [Safe, pure, Except.pure]
  | cons b bs ih =>
    rw [List.mapM_cons]
    apply (hf b List.mem_cons_self).bind
    intro a ha
    apply (ih fun b hb => hf b (List.mem_cons_of_mem _ hb)).bind
    exact fun as has => List.forall_mem_cons.mpr ⟨ha, has⟩

end Safe

/-- No node of a module's template is in the value. -/
def Fresh (ws : Workspace) (v : Value) : Prop :=
  ∀ m ∈ ws.modules, ∀ t, m.2.template = some t → v.Apart t

theorem Fresh.of_nodesFrom {ws : Workspace} {v w : Value} (h : Fresh ws v) (hfrom : w.NodesFrom v) :
    Fresh ws w :=
  fun m hm t ht => (h m hm t ht).of_nodesFrom hfrom

theorem Fresh.of_unmarked {ws : Workspace} {v : Value} (h : v.Unmarked) : Fresh ws v :=
  fun _ _ t _ => h.apart t

/-- Expressions do not fail because of merges, and values with no node of a template are resolved
to values without marks. -/
structure MakesNew (ws : Workspace) (resolve : Resolver) : Prop where
  evaluate : ∀ here path scope source, Safe (fun _ => True) (evaluate ws here path scope source)
  resolve : ∀ here path scope v, Fresh ws v → Safe Unmarked (resolve here path scope v)

theorem safe_evaluate {ws : Workspace} (hr : ws.engine.registry.AsksCallbacks) (here : Trail)
    (path : Path) (scope : Scope) (source : String) :
    Safe (fun _ => True) (evaluate ws here path scope source) := by
  have hrun : Avoids EvalError.IsConflict (ws.engine.run here source scope) := by
    rw [Engine.run]
    cases hsource : Expr.ofSource source with
    | error e =>
      rintro _ ⟨⟩ hconflict
      exact not_isPassedOn_of_ofSource hsource (EvalError.isPassedOn_iff.mpr (.inr hconflict))
    | ok e => exact Eval.avoids_conflict hr _ ws.engine.limit (.evaluate here e scope)
  rw [evaluate]
  cases houtcome : ws.engine.run here source scope with
  | ok v => trivial
  | error e =>
    intro hself
    cases e with
    | mergeConflict conflict => exact hrun _ houtcome trivial
    | _ => exact hself

variable {ws : Workspace} {resolve : Resolver} {here : Trail} {path : Path} {scope : Scope}

theorem safe_mergeAt {template parent : Value} (h : template.Apart parent) :
    Safe (·.NodesFrom template) (mergeAt path template parent) := by
  rw [mergeAt]
  cases hmerge : template.merge parent with
  | ok v => exact Value.nodesFrom_of_merge hmerge
  | error c => exact Value.fault_of_merge h hmerge

theorem safe_mergeAt_new {template parent : Value} (h : template.Unmarked) :
    Safe Unmarked (mergeAt path template parent) :=
  (safe_mergeAt (h.apart parent)).mono fun _ hfrom => h.of_nodesFrom hfrom

theorem safe_rounds (h : MakesNew ws resolve) {k : Nat} {name : String} {body : Value}
    (hbody : Fresh ws body) (i : Nat) (vs : List Value) :
    Safe (∀ v ∈ ·, v.Unmarked) (rounds resolve here k path scope name body i vs) := by
  induction vs generalizing i with
  | nil => simp [rounds, Safe]
  | cons v vs ih =>
    apply (h.resolve _ _ _ body hbody).bind
    intro result hresult
    exact (ih (i + 1)).bind fun _ hrest => List.forall_mem_cons.mpr ⟨hresult, hrest⟩

theorem safe_iterate (h : MakesNew ws resolve) {k : Nat} {source name : String} {body : Value}
    (hbody : Fresh ws body) :
    Safe (∀ v ∈ ·, v.Unmarked) (iterate ws resolve here k path scope source name body) := by
  apply (h.evaluate _ _ _ _).bind
  intro v _
  cases v with
  | array node items => exact safe_rounds h hbody 0 items
  | _ => exact id

theorem safe_choose (h : MakesNew ws resolve) {k : Nat} {source : String} {body : Value}
    (hbody : Fresh ws body) :
    Safe (∀ v ∈ ·, v.Unmarked) (choose ws resolve here k path scope source body) := by
  apply (h.evaluate _ _ _ _).bind
  intro test _
  by_cases htest : test.truthy
  · rw [if_pos htest]
    exact (h.resolve _ _ _ body hbody).bind fun v hv => List.forall_mem_singleton.mpr hv
  · rw [if_neg htest]
    exact List.forall_mem_nil _

theorem safe_expand (h : MakesNew ws resolve) {k : Nat} {body : Value} (hbody : Fresh ws body)
    {key : Key} {expansions : Result (List Value)}
    (hexpand : expand ws resolve here k path scope body key = some expansions) :
    Safe (∀ v ∈ ·, v.Unmarked) expansions := by
  cases key with
  | iteration source name => exact Option.some.inj hexpand ▸ safe_iterate h hbody
  | conditional source => exact Option.some.inj hexpand ▸ safe_choose h hbody
  | _ => cases hexpand

theorem safe_expandItem (h : MakesNew ws resolve) {item : Value} (hitem : Fresh ws item)
    {expansions : Result (List Value)}
    (hexpand : expandItem ws resolve here path scope item = some expansions) :
    Safe (∀ v ∈ ·, v.Unmarked) expansions := by
  unfold expandItem at hexpand
  split at hexpand
  · exact safe_expand h (hitem.of_nodesFrom fun _ hu _ =>
      Value.mem_parts_of_member (List.mem_singleton_self _) hu) hexpand
  · cases hexpand

theorem unmarked_of_mem_spliced {v u : Value} (h : v.Unmarked) (hu : u ∈ spliced v) :
    u.Unmarked := by
  unfold spliced at hu
  split at hu
  · exact h.item hu
  · exact List.mem_singleton.mp hu ▸ h

theorem safe_resolveItem (h : MakesNew ws resolve) {item : Value} (hitem : Fresh ws item) :
    Safe (∀ v ∈ ·, v.Unmarked) (resolveItem ws resolve here path scope item) := by
  rw [resolveItem]
  cases hexpand : expandItem ws resolve here path scope item with
  | some expansions =>
    apply (safe_expandItem h hitem hexpand).map
    intro vs hvs u hu
    obtain ⟨v, hv, hu⟩ := List.mem_flatMap.mp hu
    exact unmarked_of_mem_spliced (hvs v hv) hu
  | none => exact (h.resolve _ _ _ item hitem).map fun v hv => List.forall_mem_singleton.mpr hv

theorem safe_resolveItems (h : MakesNew ws resolve) {items : List Value}
    (hitems : ∀ item ∈ items, Fresh ws item) (i : Nat) :
    Safe (∀ v ∈ ·, v.Unmarked) (resolveItems ws resolve here path scope i items) := by
  induction items generalizing i with
  | nil => simp [resolveItems, Safe]
  | cons item items ih =>
    obtain ⟨hitem, hrest⟩ := List.forall_mem_cons.mp hitems
    apply (safe_resolveItem h hitem).bind
    intro elements helements
    exact (ih hrest (i + 1)).bind fun _ hothers => List.forall_mem_append.mpr ⟨helements, hothers⟩

def Pieces.Unmarked (pieces : Pieces) : Prop :=
  (∀ m ∈ pieces.own, m.2.Unmarked) ∧ ∀ expansion ∈ pieces.expansions, expansion.2.Unmarked

theorem safe_computedName (h : MakesNew ws resolve) {source : String} :
    Safe (fun _ => True) (computedName ws here path scope source) := by
  apply (h.evaluate _ _ _ _).bind
  intro name _
  by_cases hname : name.isCallable
  · rw [if_pos hname]
    exact id
  · rw [if_neg hname]
    trivial

theorem safe_resolveMember (h : MakesNew ws resolve) {k : Nat} {key : String} {body : Value}
    (hbody : Fresh ws body) :
    Safe Pieces.Unmarked (resolveMember ws resolve here k path scope key body) := by
  have hresolve : Safe Value.Unmarked (resolve (here.part k) path scope body) :=
    h.resolve _ _ _ body hbody
  have hown (name : String) (v : Value) (hv : v.Unmarked) : Pieces.Unmarked ⟨[(name, v)], []⟩ :=
    ⟨List.forall_mem_singleton.mpr hv, List.forall_mem_nil _⟩
  have hexpansions (vs : List Value) (hvs : ∀ v ∈ vs, v.Unmarked) :
      Pieces.Unmarked ⟨[], vs.map (path, ·)⟩ :=
    ⟨List.forall_mem_nil _, List.forall_mem_map.mpr hvs⟩
  rw [resolveMember]
  cases classify key with
  | comment => exact ⟨List.forall_mem_nil _, List.forall_mem_nil _⟩
  | literal => exact hresolve.bind (hown key)
  | computed source => exact (safe_computedName h).bind fun name _ => hresolve.bind (hown name)
  | iteration source name => exact (safe_iterate h hbody).bind hexpansions
  | conditional source => exact (safe_choose h hbody).bind hexpansions

theorem safe_resolveMembers (h : MakesNew ws resolve) {members : Fields Value}
    (hmembers : ∀ m ∈ members, Fresh ws m.2) (k : Nat) :
    Safe Pieces.Unmarked (resolveMembers ws resolve here path scope k members) := by
  induction members generalizing k with
  | nil => exact ⟨List.forall_mem_nil _, List.forall_mem_nil _⟩
  | cons m members ih =>
    rcases m with ⟨key, body⟩
    obtain ⟨hbody, hrest⟩ := List.forall_mem_cons.mp hmembers
    apply (safe_resolveMember h hbody).bind
    intro piece hpiece
    apply (ih hrest (k + 1)).bind
    intro pieces hpieces
    exact ⟨List.forall_mem_append.mpr ⟨hpiece.1, hpieces.1⟩,
      List.forall_mem_append.mpr ⟨hpiece.2, hpieces.2⟩⟩

theorem safe_addExpansion {object : Value} (hobject : object.Unmarked) (expansion : Path × Value) :
    Safe Unmarked (addExpansion object expansion) := by
  rw [addExpansion]
  cases expansion.2 with
  | object node members => exact safe_mergeAt_new hobject
  | null => exact hobject
  | _ => exact id

theorem safe_resolveObject (h : MakesNew ws resolve) {members : Fields Value}
    (hmembers : ∀ m ∈ members, Fresh ws m.2) :
    Safe Unmarked (resolveObject ws resolve here path scope members) := by
  have hkept : ∀ m ∈ uncommented members, Fresh ws m.2 :=
    fun m hm => hmembers m (List.mem_filter.mp hm).1
  apply (safe_resolveMembers h hkept 0).bind
  intro pieces hpieces
  have hown : (Value.ofMembers (Fields.ofList pieces.own)).Unmarked :=
    Value.unmarked_ofMembers fun m hm => hpieces.1 m (Fields.mem_of_mem_ofList hm)
  exact Safe.foldlM (fun object expansion _ hobject => safe_addExpansion hobject expansion) hown

theorem safe_checkKeys (path : Path) (allowed : List String) (members : Fields Value) :
    Safe (fun _ => True) (checkKeys path allowed members) := by
  rw [checkKeys]
  cases members.names.find? (!allowed.contains ·) with
  | some key => exact id
  | none => trivial

theorem safe_extendedNames (path : Path) (node : Option Value) :
    Safe (fun _ => True) (extendedNames path node) := by
  cases node with
  | none => trivial
  | some v =>
    cases v with
    | string name => trivial
    | array mark items =>
      refine (Safe.mapM (P := fun _ => True) fun item _ => ?_).mono fun _ _ => trivial
      cases item with
      | string name => trivial
      | _ => exact id
    | _ => exact id

theorem safe_extendedModules (ws : Workspace) (path : Path) (node : Option Value) :
    Safe (∀ m ∈ ·, ∃ name, ws.modules.get? name = some m) (extendedModules ws path node) := by
  apply (safe_extendedNames path node).bind
  intro names _
  apply Safe.mapM
  intro name _
  cases hget : ws.modules.get? name with
  | some m => exact ⟨name, hget⟩
  | none => exact id

/-- What is inherited is copied, and put under what has been inherited already. -/
theorem safe_inheritedBindings (path : Path) (modules : List Module) :
    Safe (fun _ => True) (inheritedBindings path modules) := by
  have hmerged : Safe Unmarked (modules.foldlM
      (fun b m => mergeAt path b (.ofMembers m.scope)) (.ofMembers [])) :=
    Safe.foldlM (fun b m _ hb => safe_mergeAt_new hb)
      (Value.unmarked_ofMembers (List.forall_mem_nil _))
  apply hmerged.bind
  intro merged _
  cases merged <;> trivial

theorem safe_resolveBindings (h : MakesNew ws resolve) {node : Value} (hnode : Fresh ws node) :
    Safe (∀ m ∈ ·, m.2.Unmarked) (resolveBindings resolve here path scope node) := by
  apply (h.resolve _ _ _ node hnode).bind
  intro v hv
  cases v with
  | object mark members => exact fun m hm => hv.member hm
  | _ => exact id

theorem safe_combinedBindings {own : Fields Value} (hown : ∀ m ∈ own, m.2.Unmarked)
    (inherited : Fields Value) :
    Safe (fun _ => True) (combinedBindings path own inherited) := by
  apply (safe_mergeAt_new (Value.unmarked_ofMembers hown)).bind
  intro merged _
  cases merged <;> trivial

/-- The bindings of a directive are new even if they come from what it inherits, which they are
merged with: so no node of these is met. -/
theorem safe_directiveBindings (h : MakesNew ws resolve) {node : Option Value}
    (hnode : ∀ v, node = some v → Fresh ws v) (inherited : Fields Value) :
    Safe (fun _ => True) (directiveBindings resolve here path scope inherited node) := by
  cases node with
  | none => trivial
  | some v =>
    apply (safe_resolveBindings h (hnode v rfl)).bind
    exact fun own hown => safe_combinedBindings hown inherited

/-- Merging the templates of modules keeps their nodes out of a body. -/
theorem safe_mergeTemplates {modules : List Module}
    (hmodules : ∀ m ∈ modules, ∃ name, ws.modules.get? name = some m) {body : Value}
    (hbody : Fresh ws body) :
    Safe (Fresh ws) ((modules.filterMap (·.template)).foldlM (mergeAt path) body) := by
  apply Safe.foldlM _ hbody
  intro merged t ht hmerged
  obtain ⟨m, hm, htemplate⟩ := List.mem_filterMap.mp ht
  obtain ⟨name, hget⟩ := hmodules m hm
  have hapart : merged.Apart t := hmerged (name, m) (Fields.mem_of_get? hget) t htemplate
  exact (safe_mergeAt hapart).mono fun _ hfrom => hmerged.of_nodesFrom hfrom

theorem safe_resolveSource (h : MakesNew ws resolve) {source : String} :
    Safe Unmarked (resolveSource ws here path scope source) := by
  apply (h.evaluate _ _ _ _).bind
  intro v _
  by_cases hv : v.isCallable
  · rw [if_pos hv]
    exact id
  · rw [if_neg hv]
    exact Value.unmarked_deepCopy v

theorem safe_output (h : MakesNew ws resolve) {body : Value} (hbody : Fresh ws body) :
    Safe (fun _ => True) (output resolve here path scope body) := by
  apply (h.resolve _ _ _ body hbody).bind
  intro v _
  cases v.stripNulls.toJson with
  | ok json => trivial
  | error kind => exact id

theorem safe_filesOf {node : Value} (hnode : Fresh ws node) :
    Safe (fun r => Fresh ws r.1 ∧ Fresh ws r.2) (filesOf path node) := by
  cases node with
  | object mark members =>
    rw [filesOf]
    cases harray : Fields.get? members "array" with
    | none => exact id
    | some array =>
      cases hfileName : Fields.get? members "fileName" with
      | none => exact id
      | some fileName =>
        exact ⟨hnode.of_nodesFrom (Value.nodesFrom_member harray),
          hnode.of_nodesFrom (Value.nodesFrom_member hfileName)⟩
  | _ => exact id

theorem safe_filesItems (h : MakesNew ws resolve) {array : Value} (harray : Fresh ws array) :
    Safe (fun _ => True) (filesItems resolve here path scope array) := by
  apply (h.resolve _ _ _ array harray).bind
  intro v _
  cases v with
  | array node items => trivial
  | _ => exact id

theorem safe_fanOut (h : MakesNew ws resolve) {fileName body : Value} (hname : Fresh ws fileName)
    (hbody : Fresh ws body) (outputs : Fields Json) (i : Nat) (vs : List Value) :
    Safe (fun _ => True) (fanOut resolve scope fileName body outputs i vs) := by
  induction vs generalizing outputs i with
  | nil => trivial
  | cons v vs ih =>
    apply (h.resolve _ _ _ fileName hname).bind
    intro name _
    apply (safe_output h hbody).bind
    intro json _
    by_cases hhas : outputs.has name.text
    · rw [if_pos hhas]
      exact id
    · rw [if_neg hhas]
      exact ih _ _

theorem safe_documentOutputs (h : MakesNew ws resolve) {name : String} {body : Value}
    (hbody : Fresh ws body) {files : Option Value} (hfiles : ∀ v, files = some v → Fresh ws v) :
    Safe (fun _ => True) (documentOutputs resolve name scope body files) := by
  cases files with
  | none => exact (safe_output h hbody).bind fun _ _ => trivial
  | some node =>
    apply (safe_filesOf (hfiles node rfl)).bind
    rintro ⟨array, fileName⟩ ⟨harray, hname⟩
    apply (safe_filesItems h harray).bind
    exact fun items _ => safe_fanOut h hname hbody [] 0 items

end Template

end Stencil

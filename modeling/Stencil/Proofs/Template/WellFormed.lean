import Stencil.Proofs.Eval.WellFormed
import Stencil.Proofs.Merge.Marks
import Stencil.Proofs.Template.History

/-!
# Resolving makes well-formed values of its own

What a well-formed template comes to is well-formed, and its arrays and objects are in nothing
else. Modules that are loaded from text are well-formed, so that this holds in every workspace that
a session can reach.
-/

namespace Stencil

namespace Value

/-- Well-formed, and made of nodes that are in no other value. -/
structure Detached (v : Value) : Prop where
  wellFormed : v.WellFormed
  unmarked : v.Unmarked

theorem Detached.of_leaf {v : Value} (hv : v.WellFormed) (hleaf : v.isNode = false) : v.Detached :=
  ⟨hv, unmarked_of_isLeaf hleaf⟩

theorem WellFormed.detached_deepCopy {v : Value} (h : v.WellFormed) : v.deepCopy.Detached :=
  ⟨h.deepCopy, unmarked_deepCopy v⟩

theorem detached_ofItems {items : List Value} (h : ∀ v ∈ items, v.Detached) :
    (ofItems items).Detached :=
  ⟨wellFormed_ofItems.mpr fun v hv => (h v hv).wellFormed,
    unmarked_ofItems fun v hv => (h v hv).unmarked⟩

theorem detached_ofList {members : List (String × Value)} (h : ∀ m ∈ members, m.2.Detached) :
    (ofMembers (Fields.ofList members)).Detached :=
  ⟨wellFormed_ofList fun m hm => (h m hm).wellFormed,
    unmarked_ofMembers fun m hm => (h m (Fields.mem_of_mem_ofList hm)).unmarked⟩

theorem Detached.merge {template parent r : Value} (htemplate : template.Detached)
    (hparent : parent.WellFormed) (h : template.merge parent = .ok r) : r.Detached :=
  ⟨htemplate.wellFormed.merge hparent h, htemplate.unmarked.of_nodesFrom (nodesFrom_of_merge h)⟩

theorem Detached.of_mem_spliced {v u : Value} (h : v.Detached) (hu : u ∈ Template.spliced v) :
    u.Detached := by
  unfold Template.spliced at hu
  split at hu
  · exact ⟨wellFormed_array.mp h.wellFormed u hu, h.unmarked.item hu⟩
  · obtain rfl := List.mem_singleton.mp hu
    exact h

end Value

/-- A module whose bindings and whose template are well-formed. -/
structure Module.WellFormed (m : Module) : Prop where
  scope : (Value.ofMembers m.scope).WellFormed
  template : ∀ v ∈ m.template, v.WellFormed

/-- The functions and the modules keep to well-formed values. -/
structure Workspace.WellFormed (ws : Workspace) : Prop where
  registry : ws.engine.registry.KeepsWellFormed
  modules : ∀ m ∈ ws.modules, m.2.WellFormed

namespace Template

theorem wellFormed_roundBindings (name : String) (i : Nat) {v : Value} (hv : v.WellFormed) :
    ∀ m ∈ roundBindings name i v, m.2.WellFormed := by
  intro m hm
  rcases Fields.mem_insert hm with hm | rfl
  · obtain rfl := List.mem_singleton.mp hm
    simp
  · exact hv

/-- What a well-formed node comes to in a well-formed scope is detached. -/
def Detaches (resolve : Resolver) : Prop :=
  ∀ {here path scope node v}, scope.WellFormed → node.WellFormed →
    resolve here path scope node = .ok v → v.Detached

theorem wellFormed_of_evaluate {ws : Workspace} (hws : ws.WellFormed) {here : Trail} {path : Path}
    {scope : Scope} {source : String} {v : Value} (hscope : scope.WellFormed)
    (h : evaluate ws here path scope source = .ok v) : v.WellFormed :=
  Engine.wellFormed_of_run hws.registry hscope (mapError_eq_ok.mp h)

section

variable {ws : Workspace} {resolve : Resolver} {here : Trail} {path : Path} {scope : Scope}
  (hws : ws.WellFormed) (hresolve : Detaches resolve) (hscope : scope.WellFormed)

include hresolve hscope

theorem detached_of_rounds {k : Nat} {name : String} {body : Value} (hbody : body.WellFormed)
    {i : Nat} {vs rs : List Value} (hvs : ∀ v ∈ vs, v.WellFormed)
    (h : rounds resolve here k path scope name body i vs = .ok rs) : ∀ r ∈ rs, r.Detached := by
  induction vs generalizing i rs with
  | nil =>
    cases h
    simp
  | cons v vs ih =>
    obtain ⟨hv, hvs⟩ := List.forall_mem_cons.mp hvs
    simp only [rounds, bind_eq_ok, pure_eq_ok] at h
    obtain ⟨r, hr, rs, hrs, rfl⟩ := h
    have hlayer := wellFormed_roundBindings name i hv
    exact List.forall_mem_cons.mpr ⟨hresolve (hscope.cons hlayer) hbody hr, ih hvs hrs⟩

theorem detached_of_choose {k : Nat} {source : String} {body : Value} (hbody : body.WellFormed)
    {rs : List Value} (h : choose ws resolve here k path scope source body = .ok rs) :
    ∀ r ∈ rs, r.Detached := by
  obtain ⟨test, -, h⟩ := bind_eq_ok.mp h
  split at h
  · obtain ⟨r, hr, h⟩ := bind_eq_ok.mp h
    obtain rfl := pure_eq_ok.mp h
    exact List.forall_mem_singleton.mpr (hresolve hscope hbody hr)
  · obtain rfl := pure_eq_ok.mp h
    simp

include hws

theorem detached_of_iterate {k : Nat} {source name : String} {body : Value}
    (hbody : body.WellFormed) {rs : List Value}
    (h : iterate ws resolve here k path scope source name body = .ok rs) :
    ∀ r ∈ rs, r.Detached := by
  obtain ⟨v, hv, h⟩ := bind_eq_ok.mp h
  have hv := wellFormed_of_evaluate hws hscope hv
  cases v with
  | array node items =>
    exact detached_of_rounds hresolve hscope hbody (Value.wellFormed_array.mp hv) h
  | _ => cases h

theorem detached_of_expandItem {item : Value} (hitem : item.WellFormed)
    {expansions : Result (List Value)}
    (hexpand : expandItem ws resolve here path scope item = some expansions) {rs : List Value}
    (h : expansions = .ok rs) : ∀ r ∈ rs, r.Detached := by
  subst h
  unfold expandItem at hexpand
  split at hexpand
  · rename_i key body
    have hbody := (Value.wellFormed_object.mp hitem).2 (key, body) List.mem_cons_self
    unfold expand at hexpand
    split at hexpand
    · exact detached_of_iterate hws hresolve hscope hbody (Option.some.inj hexpand)
    · exact detached_of_choose hresolve hscope hbody (Option.some.inj hexpand)
    · cases hexpand
  · cases hexpand

theorem detached_of_resolveItem {item : Value} (hitem : item.WellFormed) {rs : List Value}
    (h : resolveItem ws resolve here path scope item = .ok rs) : ∀ r ∈ rs, r.Detached := by
  unfold resolveItem at h
  split at h
  · rename_i expansions hexpand
    obtain ⟨vs, hvs, rfl⟩ := map_eq_ok.mp h
    have hvs := detached_of_expandItem hws hresolve hscope hitem hexpand hvs
    rw [List.forall_mem_flatMap]
    intro v hv
    exact fun u hu => (hvs v hv).of_mem_spliced hu
  · obtain ⟨v, hv, rfl⟩ := map_eq_ok.mp h
    exact List.forall_mem_singleton.mpr (hresolve hscope hitem hv)

theorem detached_of_resolveItems {i : Nat} {items rs : List Value}
    (hitems : ∀ v ∈ items, v.WellFormed)
    (h : resolveItems ws resolve here path scope i items = .ok rs) : ∀ r ∈ rs, r.Detached := by
  induction items generalizing i rs with
  | nil =>
    cases h
    simp
  | cons item items ih =>
    obtain ⟨hitem, hitems⟩ := List.forall_mem_cons.mp hitems
    simp only [resolveItems, bind_eq_ok, pure_eq_ok] at h
    obtain ⟨elements, helements, rest, hrest, rfl⟩ := h
    exact List.forall_mem_append.mpr
      ⟨detached_of_resolveItem hws hresolve hscope hitem helements, ih hitems hrest⟩

/-- Members and expansions that are detached. -/
structure Pieces.Detached (pieces : Pieces) : Prop where
  own : ∀ m ∈ pieces.own, m.2.Detached
  expansions : ∀ e ∈ pieces.expansions, e.2.Detached

theorem detached_of_resolveMember {k : Nat} {key : String} {body : Value}
    (hbody : body.WellFormed) {pieces : Pieces}
    (h : resolveMember ws resolve here k path scope key body = .ok pieces) : pieces.Detached := by
  have hown {name : String} {v : Value} (hv : v.Detached) : Pieces.Detached ⟨[(name, v)], []⟩ :=
    ⟨List.forall_mem_singleton.mpr hv, nofun⟩
  have hexpansions {vs : List Value} (hvs : ∀ v ∈ vs, v.Detached) :
      Pieces.Detached ⟨[], vs.map (path, ·)⟩ := ⟨nofun, List.forall_mem_map.mpr hvs⟩
  unfold resolveMember at h
  split at h
  · cases h
    exact ⟨nofun, nofun⟩
  · simp only [bind_eq_ok, pure_eq_ok] at h
    obtain ⟨v, hv, rfl⟩ := h
    exact hown (hresolve hscope hbody hv)
  · simp only [bind_eq_ok, pure_eq_ok] at h
    obtain ⟨_, -, v, hv, rfl⟩ := h
    exact hown (hresolve hscope hbody hv)
  · simp only [bind_eq_ok, pure_eq_ok] at h
    obtain ⟨vs, hvs, rfl⟩ := h
    exact hexpansions (detached_of_iterate hws hresolve hscope hbody hvs)
  · simp only [bind_eq_ok, pure_eq_ok] at h
    obtain ⟨vs, hvs, rfl⟩ := h
    exact hexpansions (detached_of_choose hresolve hscope hbody hvs)

theorem detached_of_resolveMembers {k : Nat} {members : List (String × Value)}
    (hmembers : ∀ m ∈ members, m.2.WellFormed) {pieces : Pieces}
    (h : resolveMembers ws resolve here path scope k members = .ok pieces) : pieces.Detached := by
  induction members generalizing k pieces with
  | nil =>
    cases h
    exact ⟨nofun, nofun⟩
  | cons m members ih =>
    obtain ⟨hm, hmembers⟩ := List.forall_mem_cons.mp hmembers
    simp only [resolveMembers, bind_eq_ok, pure_eq_ok] at h
    obtain ⟨piece, hpiece, rest, hrest, rfl⟩ := h
    have hpiece := detached_of_resolveMember hws hresolve hscope hm hpiece
    have hrest := ih hmembers hrest
    exact ⟨List.forall_mem_append.mpr ⟨hpiece.own, hrest.own⟩,
      List.forall_mem_append.mpr ⟨hpiece.expansions, hrest.expansions⟩⟩

omit hws hresolve hscope in
theorem detached_of_mergeAt {template parent r : Value} (htemplate : template.Detached)
    (hparent : parent.WellFormed) (h : mergeAt path template parent = .ok r) : r.Detached :=
  htemplate.merge hparent (mapError_eq_ok.mp h)

omit hws hresolve hscope in
theorem detached_of_addExpansion {object r : Value} (hobject : object.Detached)
    {expansion : Path × Value} (hexpansion : expansion.2.Detached)
    (h : addExpansion object expansion = .ok r) : r.Detached := by
  unfold addExpansion at h
  split at h
  · exact detached_of_mergeAt hobject hexpansion.wellFormed h
  · cases h
    exact hobject
  · cases h

theorem detached_of_resolveObject {members : Fields Value}
    (hmembers : ∀ m ∈ members, m.2.WellFormed) {r : Value}
    (h : resolveObject ws resolve here path scope members = .ok r) : r.Detached := by
  obtain ⟨pieces, hpieces, h⟩ := bind_eq_ok.mp h
  have hpieces := detached_of_resolveMembers hws hresolve hscope
    (fun m hm => hmembers m (List.mem_filter.mp hm).1) hpieces
  refine invariant_of_foldlM (P := Value.Detached) (fun e he object r hobject hr => ?_)
    (Value.detached_ofList hpieces.own) h
  exact detached_of_addExpansion hobject (hpieces.expansions e he) hr

omit hresolve hscope in
theorem wellFormed_of_extendedModules {node : Option Value} {modules : List Module}
    (h : extendedModules ws path node = .ok modules) : ∀ m ∈ modules, m.WellFormed := by
  obtain ⟨names, -, h⟩ := bind_eq_ok.mp h
  intro m hm
  obtain ⟨name, -, hname⟩ := exists_of_mem_mapM h hm
  split at hname
  · rename_i hget
    cases hname
    exact hws.modules (name, m) (Fields.mem_of_get? hget)
  · cases hname

omit hws hresolve hscope in
theorem wellFormed_of_inheritedBindings {modules : List Module}
    (hmodules : ∀ m ∈ modules, m.WellFormed) {bindings : Fields Value}
    (h : inheritedBindings path modules = .ok bindings) :
    (Value.ofMembers bindings).WellFormed := by
  have hempty : (Value.ofMembers []).WellFormed := .object List.nodup_nil nofun
  obtain ⟨merged, hmerged, h⟩ := bind_eq_ok.mp h
  have hmerged : merged.WellFormed := by
    refine invariant_of_foldlM (P := Value.WellFormed) (fun m hm b b' hb hb' => ?_) hempty hmerged
    exact hb.merge (hmodules m hm).scope (mapError_eq_ok.mp hb')
  split at h <;> obtain rfl := pure_eq_ok.mp h
  · exact Value.wellFormed_object.mpr (Value.wellFormed_object.mp hmerged)
  · exact hempty

omit hws in
theorem wellFormed_of_resolveBindings {node : Value} (hnode : node.WellFormed)
    {bindings : Fields Value}
    (h : resolveBindings resolve here path scope node = .ok bindings) :
    (Value.ofMembers bindings).WellFormed := by
  obtain ⟨v, hv, h⟩ := bind_eq_ok.mp h
  have hv := (hresolve hscope hnode hv).wellFormed
  split at h
  · obtain rfl := pure_eq_ok.mp h
    exact Value.wellFormed_object.mpr (Value.wellFormed_object.mp hv)
  · cases h

omit hws hresolve hscope in
theorem wellFormed_of_keepDeleted {own bindings : Fields Value}
    (h : ∀ m ∈ bindings, m.2.WellFormed) : ∀ m ∈ keepDeleted own bindings, m.2.WellFormed := by
  rw [keepDeleted]
  induction own generalizing bindings with
  | nil => exact h
  | cons f own ih =>
    obtain ⟨name, v⟩ := f
    have hstep : ∀ m ∈ if v.isDeletion && !bindings.has name then bindings.insert name .null
        else bindings, m.2.WellFormed := by
      split
      · intro m hm
        rcases Fields.mem_insert hm with hm | rfl
        · exact h m hm
        · simp
      · exact h
    exact ih hstep

omit hws hresolve hscope in
theorem wellFormed_of_combinedBindings {own inherited bindings : Fields Value}
    (hown : (Value.ofMembers own).WellFormed) (hinherited : (Value.ofMembers inherited).WellFormed)
    (h : combinedBindings path own inherited = .ok bindings) :
    ∀ m ∈ bindings, m.2.WellFormed := by
  obtain ⟨merged, hmerged, h⟩ := bind_eq_ok.mp h
  have hmerged := hown.merge hinherited (mapError_eq_ok.mp hmerged)
  split at h <;> obtain rfl := pure_eq_ok.mp h
  · exact wellFormed_of_keepDeleted (Value.wellFormed_object.mp hmerged).2
  · exact nofun

omit hws in
theorem wellFormed_of_directiveBindings {inherited bindings : Fields Value} {node : Option Value}
    (hinherited : (Value.ofMembers inherited).WellFormed) (hnode : ∀ v ∈ node, v.WellFormed)
    (h : directiveBindings resolve here path scope inherited node = .ok bindings) :
    ∀ m ∈ bindings, m.2.WellFormed := by
  have hlayer := (Value.wellFormed_ofMembers.mp hinherited).2
  cases node with
  | none =>
    cases h
    exact hlayer
  | some node =>
    obtain ⟨own, hown, h⟩ := bind_eq_ok.mp h
    have hown := wellFormed_of_resolveBindings hresolve (hscope.cons hlayer) (hnode node rfl) hown
    exact wellFormed_of_combinedBindings hown hinherited h

theorem wellFormed_of_directive {members : Fields Value} (hmembers : ∀ m ∈ members, m.2.WellFormed)
    {working : Scope} {body : Value}
    (h : directive ws resolve here path scope members = .ok (working, body)) :
    working.WellFormed ∧ body.WellFormed := by
  have hmember {name : String} {v : Value} (hv : members.get? name = some v) : v.WellFormed :=
    hmembers (name, v) (Fields.mem_of_get? hv)
  simp only [directive, bind_eq_ok, pure_eq_ok, Prod.mk.injEq] at h
  obtain ⟨modules, hmodules, inherited, hinherited, bindings, hbindings, body, hbody, rfl, rfl⟩ := h
  have hmodules := wellFormed_of_extendedModules hws hmodules
  have hinherited := wellFormed_of_inheritedBindings hmodules hinherited
  constructor
  · exact hscope.cons (wellFormed_of_directiveBindings hresolve hscope hinherited
      (fun v hv => hmember hv) hbindings)
  · refine invariant_of_foldlM (P := Value.WellFormed) (fun t ht b b' hb hb' => ?_)
      (Value.wellFormed_getD fun v hv => hmember hv) hbody
    obtain ⟨m, hm, ht⟩ := List.mem_filterMap.mp ht
    exact hb.merge ((hmodules m hm).template t ht) (mapError_eq_ok.mp hb')

omit hresolve in
theorem detached_of_resolveSource {source : String} {v : Value}
    (h : resolveSource ws here path scope source = .ok v) : v.Detached := by
  obtain ⟨w, hw, h⟩ := bind_eq_ok.mp h
  split at h
  · cases h
  · obtain rfl := pure_eq_ok.mp h
    exact (wellFormed_of_evaluate hws hscope hw).detached_deepCopy

omit hscope in
theorem detaches_resolveNode : Detaches (resolveNode ws resolve) := by
  intro here path scope node v hscope hnode h
  cases node with
  | string s =>
    simp only [resolveNode] at h
    split at h
    · exact detached_of_resolveSource hws hscope h
    · cases h
      exact .of_leaf hnode rfl
  | array node items =>
    obtain ⟨rs, hrs, rfl⟩ := map_eq_ok.mp h
    have hitems := Value.wellFormed_array.mp hnode
    exact Value.detached_ofItems (detached_of_resolveItems hws hresolve hscope hitems hrs)
  | object node members =>
    have hmembers := (Value.wellFormed_object.mp hnode).2
    simp only [resolveNode] at h
    split at h
    · simp only [bind_eq_ok] at h
      obtain ⟨-, -, ⟨working, body⟩, hdirective, h⟩ := h
      have hdirective := wellFormed_of_directive hws hresolve hscope hmembers hdirective
      exact hresolve hdirective.1 hdirective.2 h
    · exact detached_of_resolveObject hws hresolve hscope hmembers h
  | _ =>
    cases h
    exact .of_leaf hnode rfl

end

theorem detaches_resolve {ws : Workspace} (hws : ws.WellFormed) (depth : Nat) :
    Detaches (resolve ws depth) := by
  induction depth with
  | zero => exact fun _ _ h => nomatch h
  | succ depth ih => exact detaches_resolveNode hws ih

end Template

namespace Workspace

open Template

theorem wellFormed_empty {engine : Engine} (h : engine.registry.KeepsWellFormed) :
    (empty engine).WellFormed :=
  ⟨h, nofun⟩

theorem wellFormed_of_readObject {name text : String} {members : Fields Value}
    (h : readObject name text = .ok members) : ∀ m ∈ members, m.2.WellFormed := by
  rw [readObject] at h
  split at h
  · cases h
  · rename_i json hjson
    have hwellFormed := Value.wellFormed_ofJson (Json.distinct_of_ofText? hjson)
    split at h
    · rename_i hobject
      cases h
      rw [hobject] at hwellFormed
      exact (Value.wellFormed_object.mp hwellFormed).2
    · cases h

theorem wellFormed_of_readModule {ws : Workspace} (hws : ws.WellFormed) {scope : Scope}
    (hscope : scope.WellFormed) {members : Fields Value} (hmembers : ∀ m ∈ members, m.2.WellFormed)
    {m : Module} (h : ws.readModule scope members = .ok m) : m.WellFormed := by
  have hmember {name : String} {v : Value} (hv : members.get? name = some v) : v.WellFormed :=
    hmembers (name, v) (Fields.mem_of_get? hv)
  have hmodule {name : String} {edition : Nat} (bindings : Result (Fields Value))
      (hbindings : ∀ fs, bindings = .ok fs → (Value.ofMembers fs).WellFormed)
      (h : (do return ⟨name, ← bindings, members.get? templateKey, edition⟩) = Except.ok m) :
      m.WellFormed := by
    obtain ⟨fs, hfs, h⟩ := bind_eq_ok.mp h
    obtain rfl := pure_eq_ok.mp h
    exact ⟨hbindings fs hfs, fun v hv => hmember hv⟩
  simp only [readModule, bind_eq_ok] at h
  obtain ⟨-, -, name, -, h⟩ := h
  split at h
  · rename_i node hnode
    exact hmodule _ (fun fs => wellFormed_of_resolveBindings (detaches_resolve hws _) hscope
      (hmember hnode)) h
  · refine hmodule (pure []) (fun fs hfs => ?_) h
    obtain rfl := pure_eq_ok.mp hfs
    exact Value.wellFormed_ofMembers.mpr ⟨List.nodup_nil, List.forall_mem_nil _⟩

/-- Loading a module keeps a workspace well-formed. -/
theorem wellFormed_loadModule {ws ws' : Workspace} (hws : ws.WellFormed) {scope : Scope}
    (hscope : scope.WellFormed) {text : String} {m : Module}
    (h : ws.loadModule text scope = .ok (m, ws')) : ws'.WellFormed := by
  simp only [loadModule, bind_eq_ok, pure_eq_ok, Prod.mk.injEq] at h
  obtain ⟨members, hmembers, m, hm, rfl, rfl⟩ := h
  have hm := wellFormed_of_readModule hws hscope (wellFormed_of_readObject hmembers) hm
  refine ⟨hws.registry, fun f hf => ?_⟩
  rcases Fields.mem_insert hf with hf | rfl
  · exact hws.modules f hf
  · exact hm

theorem wellFormed_serve {ws : Workspace} (hws : ws.WellFormed) {r : Request}
    (hload : ∀ text scope, r = .load text scope → scope.WellFormed) :
    (ws.serve r).2.WellFormed := by
  cases r with
  | load text scope =>
    rw [serve]
    cases hresult : ws.loadModule text scope with
    | ok result => exact wellFormed_loadModule hws (hload text scope rfl) hresult
    | error e => exact hws
  | compile name text scope =>
    rw [serve]
    cases ws.compileDocument name text scope <;> exact hws
  | resolve template scope =>
    rw [serve]
    cases ws.resolveValue template scope <;> exact hws

/-- A session whose modules are loaded in well-formed scopes stays in well-formed workspaces. -/
theorem wellFormed_after {ws : Workspace} (hws : ws.WellFormed) {requests : List Request}
    (hloads : ∀ text scope, .load text scope ∈ requests → scope.WellFormed) :
    (ws.after requests).WellFormed := by
  induction requests generalizing ws with
  | nil => exact hws
  | cons r rs ih =>
    refine ih (wellFormed_serve hws fun text scope hr => ?_) fun text scope hmem => ?_
    · exact hloads text scope (hr ▸ List.mem_cons_self)
    · exact hloads text scope (List.mem_cons_of_mem r hmem)

end Workspace

end Stencil

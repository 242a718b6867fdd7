import Stencil.Builtin
import Stencil.Proofs.Template.Marks

/-!
# Loading and compiling with marks

A node that is put into a scope is in many places from then on, and so is a node of a text that a
module keeps. A marking says which nodes are the same one. It has its own way with what comes into
a scope; what is read from a text has nodes of its own. However the nodes are marked, no module
and no document fails because a value is merged into itself.
-/

namespace Stencil

open Template

/-- The marks of nodes in a run. -/
structure Marking where
  /-- Members read from a text, with marks that are not before `next`, and the mark after them. -/
  text : (next : Nat) → Fields Value → Fields Value × Nat
  /-- A layer of bindings with the marks that it has at a place of the run. Nothing is asked of
  them: they can be those of any other nodes. -/
  layer : Trail → Fields Value → Fields Value
  marksNew_text : ∀ next members, (∀ m ∈ members, m.2.Unmarked) →
    Value.MarksNewMembers members next (text next members)

/-- A workspace whose nodes have marks, and the mark after those of its modules. -/
structure Session where
  workspace : Workspace
  next : Nat

def Session.empty (engine : Engine) : Session :=
  ⟨.empty engine, 0⟩

namespace Marking

/-- No marks at all. -/
def plain : Marking where
  text next members := (members, next)
  layer _ bindings := bindings
  marksNew_text next members h := by
    refine ⟨le_refl _, ?_, fun m hm => (h m hm).markedIn _ _⟩
    have hcopies : members.map (fun m => (m.1, m.2.deepCopy)) = members.map id :=
      List.map_congr_left fun m hm => by rw [(h m hm).deepCopy_eq, id]
    rw [Value.copyMembers_eq_map, hcopies, List.map_id]

/-- Each node of a text has a mark of its own. -/
def distinct (layer : Trail → Fields Value → Fields Value) : Marking where
  text := Value.markMembers
  layer := layer
  marksNew_text next _ h := Value.marksNew_markMembers (fun m hm => (h m hm).marksNew) next

variable (μ : Marking)

/-- A directive. What it inherits is in the scope of its own bindings, and is merged under them, as
the same nodes. -/
def directive (ws : Workspace) (resolve : Resolver) (here : Trail) (path : Path) (scope : Scope)
    (members : Fields Value) : Result (Scope × Value) := do
  let modules ← extendedModules ws (path.field extendKey) (members.get? extendKey)
  let inherited ← inheritedBindings (path.field extendKey) modules
  let bindings ← directiveBindings resolve (here.part 0) (path.field scopeKey) scope
    (μ.layer here inherited) (members.get? scopeKey)
  let body ← (modules.filterMap (·.template)).foldlM (mergeAt (path.field templateKey))
    ((members.get? templateKey).getD .null)
  return (bindings :: scope, body)

def resolveNode (ws : Workspace) (resolve : Resolver) : Resolver := fun here path scope node =>
  match node with
  | .object node members =>
    if Fields.has members templateKey then do
      checkKeys path [templateKey, scopeKey, extendKey, commentKey] members
      let (working, body) ← μ.directive ws resolve here path scope members
      resolve (here.part 1) (path.field templateKey) working body
    else Template.resolveNode ws resolve here path scope (.object node members)
  | v => Template.resolveNode ws resolve here path scope v

/-- Resolves a node in a scope whose layers are marked. -/
def resolve (ws : Workspace) : (depth : Nat) → Resolver
  | 0, here, path, scope, node => Template.resolve ws 0 here path scope node
  | depth + 1, here, path, scope, node =>
    μ.resolveNode ws (resolve ws depth) here path (scope.map (μ.layer here)) node

def resolver (ws : Workspace) : Resolver :=
  μ.resolve ws ws.engine.limit

def compileMembers (ws : Workspace) (name : String) (scope : Scope) (members : Fields Value) :
    Result (Fields Json) := do
  checkKeys .root [templateKey, scopeKey, extendKey, filesKey, commentKey] members
  if !members.has templateKey then .error (.invalid .root (.missing templateKey))
  else
    let (working, body) ← μ.directive ws (μ.resolver ws) [] .root scope members
    documentOutputs (μ.resolver ws) name working body (members.get? filesKey)

/-- The module that a source describes. Its bindings are kept with their marks. -/
def readModule (ws : Workspace) (scope : Scope) (members : Fields Value) : Result Module := do
  checkKeys .root [moduleKey, scopeKey, templateKey, commentKey] members
  let name ← Workspace.moduleName members
  let edition := (ws.module? name).elim 0 (·.edition + 1)
  let bindings ← match members.get? scopeKey with
    | some node =>
      resolveBindings (μ.resolver ws) [.load name edition] (Path.root.field scopeKey) scope node
    | none => pure []
  return ⟨name, μ.layer [.load name edition] bindings, members.get? templateKey, edition⟩

def load (s : Session) (text : String) (scope : Scope) : Result (Module × Session) := do
  let (members, next) := μ.text s.next (← Template.readModule text)
  let m ← μ.readModule s.workspace scope members
  return (m, ⟨{ s.workspace with modules := s.workspace.modules.insert m.name m }, next⟩)

def compile (s : Session) (name text : String) (scope : Scope) : Result (Fields Json) := do
  let members ← readObject name text
  μ.compileMembers s.workspace name scope (μ.text s.next members).1

/-- Loads sources one after another. One that fails changes nothing. -/
def loadAll (s : Session) (sources : List (String × Scope)) : Session :=
  sources.foldl (fun s source =>
    match μ.load s source.1 source.2 with
    | .ok (_, s) => s
    | .error _ => s) s

end Marking

/-- Loads sources one after another. One that fails changes nothing. -/
def Workspace.loadAll (ws : Workspace) (sources : List (String × Scope)) : Workspace :=
  sources.foldl (fun ws source =>
    match ws.loadModule source.1 source.2 with
    | .ok (_, ws) => ws
    | .error _ => ws) ws

namespace Marking

theorem resolveNode_plain (ws : Workspace) (resolve : Resolver) :
    plain.resolveNode ws resolve = Template.resolveNode ws resolve := by
  funext here path scope node
  cases node with
  | object node members =>
    rw [resolveNode]
    by_cases hhas : Fields.has members templateKey
    · rw [if_pos hhas, Template.resolveNode, if_pos hhas]
      rfl
    · rw [if_neg hhas]
  | _ => rfl

theorem resolve_plain (ws : Workspace) (depth : Nat) :
    plain.resolve ws depth = Template.resolve ws depth := by
  induction depth with
  | zero => rfl
  | succ depth ih =>
    funext here path scope node
    have hlayers : scope.map (plain.layer here) = scope := List.map_id' scope
    rw [resolve, hlayers, resolveNode_plain, ih]
    rfl

theorem resolver_plain (ws : Workspace) : plain.resolver ws = ws.resolver :=
  resolve_plain ws ws.engine.limit

theorem compile_plain (s : Session) (name text : String) (scope : Scope) :
    plain.compile s name text scope = s.workspace.compileDocument name text scope := by
  rw [compile, Workspace.compileDocument]
  simp only [compileMembers, Workspace.compileMembers, resolver_plain]
  rfl

theorem load_plain (s : Session) (text : String) (scope : Scope) :
    plain.load s text scope =
      (fun r => (r.1, ⟨r.2, s.next⟩)) <$> s.workspace.loadModule text scope := by
  rw [load, Workspace.loadModule, map_bind]
  simp only [readModule, Workspace.readModule, resolver_plain, map_bind]
  rfl

theorem loadAll_plain (s : Session) (sources : List (String × Scope)) :
    (plain.loadAll s sources).workspace = s.workspace.loadAll sources := by
  induction sources generalizing s with
  | nil => rfl
  | cons source sources ih =>
    simp only [loadAll, Workspace.loadAll, List.foldl_cons] at ih ⊢
    rw [ih, load_plain]
    cases s.workspace.loadModule source.1 source.2 <;> rfl

variable {μ : Marking} {ws : Workspace} {name text : String} {scope : Scope}
  {members : Fields Value}

theorem safe_directive {resolve : Resolver} (h : MakesNew ws resolve) {here : Trail} {path : Path}
    (hmembers : ∀ m ∈ members, Fresh ws m.2) :
    Safe (fun r => Fresh ws r.2) (μ.directive ws resolve here path scope members) := by
  have hmember {key : String} (v : Value) (hget : Fields.get? members key = some v) : Fresh ws v :=
    hmembers (key, v) (Fields.mem_of_get? hget)
  have hbody : Fresh ws ((Fields.get? members templateKey).getD .null) := by
    cases hget : Fields.get? members templateKey with
    | none => exact .of_unmarked (Value.unmarked_of_isLeaf rfl)
    | some v => exact hmember v hget
  apply (safe_extendedModules ws _ _).bind
  intro modules hmodules
  apply (safe_inheritedBindings _ modules).bind
  intro inherited _
  apply (safe_directiveBindings h hmember (μ.layer here inherited)).bind
  intro bindings _
  exact (safe_mergeTemplates hmodules hbody).bind fun _ hmerged => hmerged

/-- What one level makes is new if what the level below makes is. -/
theorem safe_resolveNode {resolve : Resolver} (h : MakesNew ws resolve) {here : Trail} {path : Path}
    {v : Value} (hv : Fresh ws v) :
    Safe Value.Unmarked (μ.resolveNode ws resolve here path scope v) := by
  cases v with
  | string s =>
    change Safe _ (Template.resolveNode ws resolve here path scope (.string s))
    rw [Template.resolveNode]
    cases source? s with
    | some source => exact safe_resolveSource h
    | none => exact Value.unmarked_of_isLeaf rfl
  | array node items =>
    have hitems : ∀ item ∈ items, Fresh ws item :=
      fun item hitem => hv.of_nodesFrom (Value.nodesFrom_item hitem)
    exact (safe_resolveItems h hitems 0).map fun _ hresults => Value.unmarked_ofItems hresults
  | object node members =>
    have hmembers : ∀ m ∈ members, Fresh ws m.2 :=
      fun m hm => hv.of_nodesFrom fun _ hu _ => Value.mem_parts_of_member hm hu
    rw [resolveNode]
    by_cases hhas : Fields.has members templateKey
    · rw [if_pos hhas]
      apply (safe_checkKeys path _ members).bind
      intro _ _
      exact (safe_directive h hmembers).bind fun r hbody => h.resolve _ _ _ r.2 hbody
    · rw [if_neg hhas, Template.resolveNode, if_neg hhas]
      exact safe_resolveObject h hmembers
  | _ => exact Value.unmarked_of_isLeaf rfl

theorem makesNew_resolve (hr : ws.engine.registry.AsksCallbacks) (depth : Nat) :
    MakesNew ws (μ.resolve ws depth) := by
  refine ⟨safe_evaluate hr, ?_⟩
  induction depth with
  | zero => exact fun _ _ _ _ _ => id
  | succ depth ih => exact fun _ _ _ _ hv => safe_resolveNode ⟨safe_evaluate hr, ih⟩ hv

theorem safe_compileMembers (hr : ws.engine.registry.AsksCallbacks)
    (hmembers : ∀ m ∈ members, Fresh ws m.2) :
    Safe (fun _ => True) (μ.compileMembers ws name scope members) := by
  have hresolver : MakesNew ws (μ.resolver ws) := makesNew_resolve hr _
  apply (safe_checkKeys _ _ members).bind
  intro _ _
  by_cases hhas : Fields.has members templateKey
  · simp only [hhas, Bool.not_true, Bool.false_eq_true, if_false]
    apply (safe_directive hresolver hmembers).bind
    exact fun r hbody => safe_documentOutputs hresolver hbody fun v hget =>
      hmembers (filesKey, v) (Fields.mem_of_get? hget)
  · simp only [hhas, Bool.not_false, if_true]
    exact id

theorem safe_moduleName (members : Fields Value) :
    Safe (fun _ => True) (Workspace.moduleName members) := by
  rw [Workspace.moduleName]
  cases members.get? moduleKey with
  | none => exact id
  | some v =>
    cases v with
    | string name =>
      by_cases hempty : name.isEmpty
      · simp only [hempty, if_true]
        exact id
      · simp only [hempty]
        trivial
    | _ => exact id

theorem safe_readModule (hr : ws.engine.registry.AsksCallbacks)
    (hmembers : ∀ m ∈ members, Fresh ws m.2) :
    Safe (fun m => m.template = members.get? templateKey) (μ.readModule ws scope members) := by
  apply (safe_checkKeys _ _ members).bind
  intro _ _
  apply (safe_moduleName members).bind
  intro name _
  cases hget : members.get? scopeKey with
  | none => rfl
  | some node =>
    have hnode : Fresh ws node := hmembers (scopeKey, node) (Fields.mem_of_get? hget)
    exact (safe_resolveBindings (makesNew_resolve hr _) hnode).bind fun _ _ => rfl

theorem safe_readObject (name text : String) :
    Safe (∀ m ∈ ·, m.2.Unmarked) (readObject name text) := by
  rw [readObject]
  cases Json.ofText? text with
  | none => exact id
  | some json =>
    have hjson : (Value.ofJson json).Unmarked := Value.unmarked_ofJson json
    simp only
    revert hjson
    cases Value.ofJson json with
    | object node members => exact fun hjson m hm => hjson.member hm
    | _ => exact fun _ => id

end Marking

/-- The functions of a session only pass on what callbacks fail with, and the marks in the templates
of its modules have been given out. -/
structure Session.WellMarked (s : Session) : Prop where
  registry : s.workspace.engine.registry.AsksCallbacks
  template : ∀ m ∈ s.workspace.modules, ∀ t, m.2.template = some t → t.MarkedIn 0 s.next

/-- What is read next has no node in common with a template. -/
theorem Session.WellMarked.fresh {s : Session} (h : s.WellMarked) {next : Nat} {v : Value}
    (hv : v.MarkedIn s.next next) : Fresh s.workspace v :=
  fun m hm t ht => hv.apart (h.template m hm t ht)

namespace Marking

variable (μ : Marking) {s : Session}

theorem wellMarked_load (h : s.WellMarked) (text : String) (scope : Scope) :
    Safe (fun r => r.2.WellMarked) (μ.load s text scope) := by
  apply (safe_readObject "module" text).bind
  intro members hmembers
  obtain ⟨hle, -, hmarked⟩ := μ.marksNew_text s.next members hmembers
  apply (safe_readModule h.registry fun m hm => h.fresh (hmarked m hm)).bind
  intro m htemplate
  refine ⟨h.registry, fun m' hm' t ht => ?_⟩
  rcases Fields.mem_insert hm' with hm' | rfl
  · exact (h.template m' hm' t ht).mono (le_refl _) hle
  · have hget := htemplate.symm.trans ht
    exact (hmarked _ (Fields.mem_of_get? hget)).mono (Nat.zero_le _) (le_refl _)

theorem wellMarked_loadAll (h : s.WellMarked) (sources : List (String × Scope)) :
    (μ.loadAll s sources).WellMarked := by
  induction sources generalizing s with
  | nil => exact h
  | cons source sources ih =>
    rw [loadAll, List.foldl_cons]
    apply ih
    have hload := wellMarked_load μ h source.1 source.2
    cases hresult : μ.load s source.1 source.2 with
    | ok r =>
      rw [hresult] at hload
      exact hload
    | error e => exact h

theorem safe_compile (h : s.WellMarked) (name text : String) (scope : Scope) :
    Safe (fun _ => True) (μ.compile s name text scope) := by
  apply (safe_readObject name text).bind
  intro members hmembers
  have hmarked := (μ.marksNew_text s.next members hmembers).markedIn
  exact safe_compileMembers h.registry fun m hm => h.fresh (hmarked m hm)

theorem avoids_selfMerge (engine : Engine) (hr : engine.registry.AsksCallbacks)
    (sources : List (String × Scope)) (name text : String) (scope : Scope) :
    let s := μ.loadAll (.empty engine) sources
    Avoids TemplateError.IsSelfMerge (μ.load s text scope) ∧
      Avoids TemplateError.IsSelfMerge (μ.compile s name text scope) := by
  have hempty : (Session.empty engine).WellMarked := ⟨hr, List.forall_mem_nil _⟩
  have hsession := wellMarked_loadAll μ hempty sources
  exact ⟨(wellMarked_load μ hsession text scope).avoids,
    (safe_compile μ hsession name text scope).avoids⟩

end Marking

/-- Whatever modules are loaded and whatever the scopes are, no module and no document after them
fails because a value is merged into itself: not in a run without marks, and in none with marks. -/
theorem avoids_selfMerge_of_loadAll (limit : Nat) (sources : List (String × Scope))
    (name text : String) (scope : Scope) :
    (let ws := (Workspace.empty ⟨.builtins, limit⟩).loadAll sources
     Avoids TemplateError.IsSelfMerge (ws.loadModule text scope) ∧
       Avoids TemplateError.IsSelfMerge (ws.compileDocument name text scope)) ∧
    ∀ μ : Marking,
      let s := μ.loadAll (.empty ⟨.builtins, limit⟩) sources
      Avoids TemplateError.IsSelfMerge (μ.load s text scope) ∧
        Avoids TemplateError.IsSelfMerge (μ.compile s name text scope) := by
  have hmarked (μ : Marking) :=
    μ.avoids_selfMerge ⟨.builtins, limit⟩ Registry.asksCallbacks_builtins sources name text scope
  refine ⟨?_, hmarked⟩
  have hplain := hmarked .plain
  simp only [Marking.load_plain, Marking.compile_plain, Marking.loadAll_plain] at hplain
  refine ⟨fun e he => hplain.1 e ?_, hplain.2⟩
  change _ <$> Workspace.loadModule ((Workspace.empty ⟨.builtins, limit⟩).loadAll sources) _ _ = _
  rw [he]
  rfl

/-- The templates of the modules are nodes with an identity: each is the same one as itself. -/
def Session.Identified (s : Session) : Prop :=
  ∀ m ∈ s.workspace.modules, ∀ t, m.2.template = some t → t.isNode → t.sameNode t

namespace Marking

variable {layer : Trail → Fields Value → Fields Value} {s s' : Session}

theorem template_of_readModule {μ : Marking} {ws : Workspace} {scope : Scope}
    {members : Fields Value} {m : Module} (h : μ.readModule ws scope members = .ok m) :
    m.template = members.get? templateKey := by
  simp only [readModule, bind_eq_ok] at h
  obtain ⟨-, -, name, -, h⟩ := h
  split at h <;>
    · obtain ⟨bindings, -, h⟩ := bind_eq_ok.mp h
      rw [← pure_eq_ok.mp h]

theorem identified_load (h : s.Identified) {text : String} {scope : Scope} {m : Module}
    (hload : (distinct layer).load s text scope = .ok (m, s')) : s'.Identified := by
  simp only [load, bind_eq_ok, pure_eq_ok, Prod.mk.injEq] at hload
  obtain ⟨members, -, m, hm, rfl, rfl⟩ := hload
  intro m' hm' t ht hnode
  rcases Fields.mem_insert hm' with hm' | rfl
  · exact h m' hm' t ht hnode
  · have hget := (template_of_readModule hm).symm.trans ht
    exact Value.sameNode_of_mem_markMembers (Fields.mem_of_get? hget) hnode

theorem identified_loadAll (h : s.Identified) (sources : List (String × Scope)) :
    ((distinct layer).loadAll s sources).Identified := by
  induction sources generalizing s with
  | nil => exact h
  | cons source sources ih =>
    rw [loadAll, List.foldl_cons]
    apply ih
    cases hresult : (distinct layer).load s source.1 source.2 with
    | ok r => exact identified_load h hresult
    | error e => exact h

/-- If each node of a text has a mark of its own, none of the templates that are kept could be
merged into itself; and nothing fails because this is tried. -/
theorem distinct_avoids_selfMerge (engine : Engine) (hr : engine.registry.AsksCallbacks)
    (sources : List (String × Scope)) (name text : String) (scope : Scope) :
    let s := (distinct layer).loadAll (.empty engine) sources
    (∀ m ∈ s.workspace.modules, ∀ t, m.2.template = some t → t.isNode →
        (t.merged t).conflict = some ⟨.root, .itself⟩) ∧
      Avoids TemplateError.IsSelfMerge ((distinct layer).load s text scope) ∧
      Avoids TemplateError.IsSelfMerge ((distinct layer).compile s name text scope) := by
  have hempty : (Session.empty engine).Identified := List.forall_mem_nil _
  refine ⟨fun m hm t ht hnode => ?_, avoids_selfMerge _ engine hr sources name text scope⟩
  have hsame := identified_loadAll hempty sources m hm t ht hnode
  rw [Value.merged, Value.mergeAt_of_sameNode hsame]

end Marking

/-- A module whose template is an object. -/
def objectModule : String :=
  "\x7b\"$module\": \"m\", \"$template\": \x7b\"a\": 1\x7d\x7d"

example :
    let s := (Marking.distinct fun _ layer => layer).loadAll (.empty .standard) [(objectModule, [])]
    ((s.workspace.module? "m").bind (·.template)).map (fun t => (t.merged t).conflict) =
      some (some ⟨.root, .itself⟩) := by
  cbv

end Stencil

import Stencil.Proofs.Template.Documents

/-!
# The modules of a session

A workspace is asked to load modules, to compile documents and to resolve values, in any order. It
changes only when a load succeeds: so a name stands for the module that the last successful load of
a source with this name gave, whatever else was asked for and failed.
-/

namespace Stencil

/-- What a workspace is asked to do. -/
inductive Request where
  | load (text : String) (scope : Scope)
  | compile (name text : String) (scope : Scope)
  | resolve (template : Value) (scope : Scope)

/-- What a request comes to. -/
inductive Reply where
  | loaded (m : Module)
  | compiled (outputs : Fields Json)
  | resolved (v : Value)
  | failed (e : TemplateError)

namespace Workspace

open Template

/-- The reply to a request, and the workspace after it. -/
def serve (ws : Workspace) : Request → Reply × Workspace
  | .load text scope =>
    match ws.loadModule text scope with
    | .ok (m, ws') => (.loaded m, ws')
    | .error e => (.failed e, ws)
  | .compile name text scope =>
    match ws.compileDocument name text scope with
    | .ok outputs => (.compiled outputs, ws)
    | .error e => (.failed e, ws)
  | .resolve template scope =>
    match ws.resolveValue template scope with
    | .ok v => (.resolved v, ws)
    | .error e => (.failed e, ws)

/-- The workspace after requests one after another. -/
def after (ws : Workspace) : List Request → Workspace
  | [] => ws
  | r :: rs => (ws.serve r).2.after rs

/-- The requests with their replies. -/
def history (ws : Workspace) : List Request → List (Request × Reply)
  | [] => []
  | r :: rs => (r, (ws.serve r).1) :: (ws.serve r).2.history rs

variable {ws ws' : Workspace} {members : Fields Value} {text name : String} {scope : Scope}
  {m : Module}

/-- The name that a source gives its module. -/
def declaredName? (text : String) : Option String :=
  match Json.ofText? text with
  | some (.object fields) =>
    match Fields.get? fields moduleKey with
    | some (.string name) => some name
    | _ => none
  | _ => none

/-- The module that the members of a source describe to a workspace. Its bindings are the members
of the object that `$scope` resolves to. -/
structure Describes (ws : Workspace) (members : Fields Value) (scope : Scope) (m : Module) :
    Prop where
  keys : ∀ key ∈ members.names, key ∈ [moduleKey, scopeKey, templateKey, commentKey]
  name : members.get? moduleKey = some (.string m.name)
  name_ne : m.name ≠ ""
  template : m.template = members.get? templateKey
  edition : m.edition = (ws.module? m.name).elim 0 (·.edition + 1)
  bindings : (members.get? scopeKey = none ∧ m.scope = []) ∨
    ∃ node mark, members.get? scopeKey = some node ∧
      ws.resolver [.load m.name m.edition] (Path.root.field scopeKey) scope node =
        .ok (.object mark m.scope)

theorem moduleName_eq_ok :
    moduleName members = .ok name ↔ members.get? moduleKey = some (.string name) ∧ name ≠ "" := by
  rw [moduleName]
  cases members.get? moduleKey with
  | none => simp
  | some v =>
    cases v with
    | string s =>
      by_cases hs : s = ""
      · simp only [hs, String.isEmpty_iff, if_true, reduceCtorEq, Option.some.injEq,
          Value.string.injEq, false_iff, not_and, not_not]
        exact Eq.symm
      · simp only [String.isEmpty_iff, hs, if_false, Except.ok.injEq, Option.some.injEq,
          Value.string.injEq, iff_self_and]
        rintro rfl
        exact hs
    | _ => simp

theorem resolveBindings_eq_ok {resolve : Resolver} {here : Trail} {path : Path} {node : Value}
    {bindings : Fields Value} :
    resolveBindings resolve here path scope node = .ok bindings ↔
      ∃ mark, resolve here path scope node = .ok (.object mark bindings) := by
  rw [resolveBindings, bind_eq_ok]
  constructor
  · rintro ⟨v, hv, h⟩
    cases v with
    | object mark own => exact ⟨mark, pure_eq_ok.mp h ▸ hv⟩
    | _ => cases h
  · rintro ⟨mark, h⟩
    exact ⟨_, h, rfl⟩

/-- A source is read as the module that it describes, and fails if it describes none. -/
theorem readModule_eq_ok : ws.readModule scope members = .ok m ↔ ws.Describes members scope m := by
  rw [readModule]
  constructor
  · intro h
    cases hnode : members.get? scopeKey with
    | none =>
      simp only [hnode, bind_eq_ok, pure_eq_ok, moduleName_eq_ok] at h
      obtain ⟨_, hkeys, name, ⟨hname, hne⟩, _, rfl, rfl⟩ := h
      exact ⟨checkKeys_eq_ok.mp hkeys, hname, hne, rfl, rfl, .inl ⟨hnode, rfl⟩⟩
    | some node =>
      simp only [hnode, bind_eq_ok, pure_eq_ok, moduleName_eq_ok, resolveBindings_eq_ok] at h
      obtain ⟨_, hkeys, name, ⟨hname, hne⟩, bindings, ⟨mark, hv⟩, rfl⟩ := h
      exact ⟨checkKeys_eq_ok.mp hkeys, hname, hne, rfl, rfl, .inr ⟨node, mark, hnode, hv⟩⟩
  · intro h
    have hkeys : checkKeys .root _ members = .ok () := checkKeys_eq_ok.mpr h.keys
    have hread := moduleName_eq_ok.mpr ⟨h.name, h.name_ne⟩
    rcases h.bindings with ⟨hnode, hscope⟩ | ⟨node, mark, hnode, hv⟩
    · simp only [hnode, bind_eq_ok, pure_eq_ok]
      refine ⟨(), hkeys, m.name, hread, [], rfl, ?_⟩
      rw [← h.edition, ← h.template, ← hscope]
    · simp only [hnode, bind_eq_ok, pure_eq_ok, resolveBindings_eq_ok]
      refine ⟨(), hkeys, m.name, hread, m.scope, ⟨mark, h.edition ▸ hv⟩, ?_⟩
      rw [← h.edition, ← h.template]

theorem loadModule_eq_ok :
    ws.loadModule text scope = .ok (m, ws') ↔
      (∃ members, Template.readModule text = .ok members ∧ ws.Describes members scope m) ∧
        ws' = { ws with modules := ws.modules.insert m.name m } := by
  simp only [loadModule, bind_eq_ok, pure_eq_ok, Prod.mk.injEq, readModule_eq_ok]
  constructor
  · rintro ⟨members, hread, _, hm, rfl, rfl⟩
    exact ⟨⟨members, hread, hm⟩, rfl⟩
  · rintro ⟨⟨members, hread, hm⟩, rfl⟩
    exact ⟨members, hread, m, hm, rfl, rfl⟩

/-- A source declares the name that is read from its members. -/
theorem declaredName?_eq_some (hread : Template.readModule text = .ok members)
    (hname : members.get? moduleKey = some (.string name)) : declaredName? text = some name := by
  obtain ⟨fields, htext, rfl⟩ := readObject_eq_ok.mp hread
  rw [Value.get?_ofJsonMembers, Option.map_eq_some_iff] at hname
  obtain ⟨json, hget, hjson⟩ := hname
  cases json with
  | string name =>
    rw [declaredName?, htext]
    simp only [hget]
    exact congrArg some (Value.string.inj hjson)
  | _ => cases hjson

/-- The module that a request loaded from a source with this name. -/
def loadedAs? (name : String) : Request × Reply → Option Module
  | (.load text _, .loaded m) => if declaredName? text = some name then some m else none
  | _ => none

/-- A workspace stays as it is unless a load succeeds, and then only the module of the source's
name is a new one. -/
theorem serve_cases (ws : Workspace) (r : Request) :
    ((ws.serve r).2 = ws ∧ ∀ m, (ws.serve r).1 ≠ .loaded m) ∨
    ∃ text scope members m, r = .load text scope ∧ (ws.serve r).1 = .loaded m ∧
      Template.readModule text = .ok members ∧ ws.Describes members scope m ∧
      (ws.serve r).2 = { ws with modules := ws.modules.insert m.name m } := by
  cases r with
  | load text scope =>
    rw [serve]
    cases hload : ws.loadModule text scope with
    | ok result =>
      obtain ⟨⟨members, hread, hm⟩, hws⟩ := loadModule_eq_ok.mp hload
      exact .inr ⟨text, scope, members, result.1, rfl, rfl, hread, hm, hws⟩
    | error e => exact .inl ⟨rfl, nofun⟩
  | compile name text scope =>
    rw [serve]
    cases ws.compileDocument name text scope <;> exact .inl ⟨rfl, nofun⟩
  | resolve template scope =>
    rw [serve]
    cases ws.resolveValue template scope <;> exact .inl ⟨rfl, nofun⟩

theorem engine_serve (ws : Workspace) (r : Request) : (ws.serve r).2.engine = ws.engine := by
  rcases ws.serve_cases r with ⟨hsame, -⟩ | ⟨-, -, -, m, -, -, -, -, hws⟩
  · rw [hsame]
  · rw [hws]

theorem engine_after (ws : Workspace) (requests : List Request) :
    (ws.after requests).engine = ws.engine := by
  induction requests generalizing ws with
  | nil => rfl
  | cons r rs ih => rw [after, ih, engine_serve]

/-- After a request, a name stands for the module just loaded under it, or for the one before. -/
theorem module?_serve (ws : Workspace) (r : Request) (name : String) :
    (ws.serve r).2.module? name = (loadedAs? name (r, (ws.serve r).1)).or (ws.module? name) := by
  rcases ws.serve_cases r with ⟨hsame, hreply⟩ | ⟨text, scope, members, m, rfl, hreply, hread, hm,
    hws⟩
  · -- No module was loaded, under this name or another.
    have hnone : loadedAs? name (r, (ws.serve r).1) = none := by
      cases r with
      | load text scope =>
        cases h : (ws.serve (.load text scope)).1 with
        | loaded m => exact absurd h (hreply m)
        | _ => rfl
      | _ => rfl
    rw [hsame, hnone, Option.none_or]
  · rw [hws, hreply, loadedAs?, declaredName?_eq_some hread hm.name, module?, Fields.get?_insert,
      ← module?]
    by_cases hname : name = m.name
    · simp [hname]
    · simp [hname, Ne.symm hname]

/-- The module that the last successful load of a source with this name gave. -/
def lastLoaded? (name : String) (events : List (Request × Reply)) : Option Module :=
  events.reverse.findSome? (loadedAs? name)

theorem lastLoaded?_cons (name : String) (event : Request × Reply)
    (events : List (Request × Reply)) :
    lastLoaded? name (event :: events) = (lastLoaded? name events).or (loadedAs? name event) := by
  rw [lastLoaded?, List.reverse_cons, List.findSome?_append, ← lastLoaded?]
  cases h : loadedAs? name event <;> simp [h]

/-- After a session, a name stands for the module last loaded under it, or for the one before. -/
theorem module?_after (ws : Workspace) (requests : List Request) (name : String) :
    (ws.after requests).module? name =
      (lastLoaded? name (ws.history requests)).or (ws.module? name) := by
  induction requests generalizing ws with
  | nil => rfl
  | cons r rs ih =>
    rw [after, history, ih, module?_serve, lastLoaded?_cons, Option.or_assoc]

/-- The modules of a workspace stand under different names. -/
theorem nodup_names_after {ws : Workspace} (h : ws.modules.names.Nodup) (requests : List Request) :
    (ws.after requests).modules.names.Nodup := by
  induction requests generalizing ws with
  | nil => exact h
  | cons r rs ih =>
    apply ih
    rcases ws.serve_cases r with ⟨hsame, -⟩ | ⟨-, -, -, m, -, -, -, -, hws⟩
    · exact hsame.symm ▸ h
    · exact hws.symm ▸ Fields.nodup_names_insert h m.name m

/-- A module of a workspace was there before the requests, or one of them loaded it. -/
theorem mem_modules_after {ws : Workspace} {requests : List Request} {entry : String × Module}
    (h : entry ∈ (ws.after requests).modules) :
    entry ∈ ws.modules ∨ ∃ before text scope rest members,
      requests = before ++ .load text scope :: rest ∧
      Template.readModule text = .ok members ∧
      (ws.after before).Describes members scope entry.2 ∧ entry.1 = entry.2.name := by
  induction requests generalizing ws with
  | nil => exact .inl h
  | cons r rs ih =>
    rcases ih h with hentry | ⟨before, text, scope, rest, members, rfl, hread, hm, hname⟩
    · rcases ws.serve_cases r with ⟨hsame, -⟩ | ⟨text, scope, members, m, rfl, -, hread, hm, hws⟩
      · exact .inl (hsame ▸ hentry)
      · rw [hws] at hentry
        rcases Fields.mem_insert hentry with hentry | rfl
        · exact .inl hentry
        · exact .inr ⟨[], text, scope, rs, members, rfl, hread, hm, rfl⟩
    · exact .inr ⟨r :: before, text, scope, rest, members, rfl, hread, hm, hname⟩

/-- The modules of a session that starts with none: a name stands for what the last successful load
of a source with this name gave. Each module stands under the name, not empty, that it bears, and
has the bindings that its source had when it was loaded. Compiling, resolving and failing leave all
modules as they are. -/
theorem modules_of_session (engine : Engine) (requests : List Request) :
    (∀ name, ((empty engine).after requests).module? name =
      lastLoaded? name ((empty engine).history requests)) ∧
    ((empty engine).after requests).modules.names.Nodup ∧
    (∀ entry ∈ ((empty engine).after requests).modules,
      entry.1 ≠ "" ∧ entry.2.name = entry.1 ∧ ∃ before text scope rest members,
        requests = before ++ .load text scope :: rest ∧ Template.readModule text = .ok members ∧
        ((empty engine).after before).Describes members scope entry.2) ∧
    ∀ request, (((empty engine).after requests).serve request).2 =
        (empty engine).after requests ∨
      ∃ text scope m, request = .load text scope ∧
        (((empty engine).after requests).serve request).1 = .loaded m := by
  have hempty : (empty engine).modules.names.Nodup := List.nodup_nil
  refine ⟨fun name => ?_, nodup_names_after hempty requests, fun entry hentry => ?_,
    fun request => ?_⟩
  · rw [module?_after]
    exact Option.or_none
  · rcases mem_modules_after hentry with hnone | ⟨before, text, scope, rest, members, hrequests,
      hread, hm, hname⟩
    · cases hnone
    · exact ⟨hname ▸ hm.name_ne, hname.symm, before, text, scope, rest, members, hrequests, hread,
        hm⟩
  · rcases serve_cases ((empty engine).after requests) request with ⟨hsame, -⟩ | ⟨text, scope, -, m,
      hrequest, hreply, -⟩
    · exact .inl hsame
    · exact .inr ⟨text, scope, m, hrequest, hreply⟩

end Workspace

end Stencil

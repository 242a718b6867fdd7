import Stencil.Builtin
import Stencil.Json.Equality
import Stencil.Proofs.Template.History
import Stencil.Proofs.Template.Lookups

/-!
# The order of loading

The bindings of a module are resolved when it is loaded. If there is no `$extend` in them, they do
not depend on the modules loaded before; and what else is known of these, the number of earlier
modules of the same name, is not changed by modules of other names. So sources with different names
can be loaded in any order.
-/

namespace Stencil

/-- The request to load a source. -/
def Request.ofSource (source : String × Scope) : Request :=
  .load source.1 source.2

namespace Workspace

open Template

/-- The bindings of a source have no `$extend` at any depth. -/
def ExtendsNothing (text : String) : Prop :=
  ∀ members node, Template.readModule text = .ok members → members.get? scopeKey = some node →
    node.EveryKey (· ≠ extendKey)

/-- Sources that do not both declare one name. -/
def NamedApart (source source' : String × Scope) : Prop :=
  ∀ name, declaredName? source.1 = some name → declaredName? source'.1 ≠ some name

variable {ws ws' : Workspace} {sources sources' : List (String × Scope)}

instance : Std.Symm NamedApart :=
  ⟨fun _ _ h name hname hname' => h name hname' hname⟩

/-- What a load comes to depends on the earlier module of its name alone. -/
theorem readModule_congr {text : String} {scope : Scope} {members : Fields Value}
    (hengine : ws.engine = ws'.engine)
    (hlookup : ∀ name, declaredName? text = some name → ws.module? name = ws'.module? name)
    (hextends : ExtendsNothing text) (hread : Template.readModule text = .ok members) :
    ws.readModule scope members = ws'.readModule scope members := by
  cases hname : moduleName members with
  | error e => simp only [readModule, hname, bind, Except.bind]
  | ok name =>
    -- The trail of the bindings has the number of earlier modules of this name in it.
    have hsame := hlookup name (declaredName?_eq_some hread (moduleName_eq_ok.mp hname).1)
    cases hnode : members.get? scopeKey with
    | none => simp only [readModule, hname, hnode, hsame, bind, Except.bind]
    | some node =>
      have hresolver : AlikeAt ws.resolver ws'.resolver node :=
        resolver_congr (shared_unextended hengine) (hextends members node hread hnode)
      simp only [readModule, hname, hnode, hsame, resolveBindings, hresolver _ _ _, bind,
        Except.bind]

theorem serve_ofSource (ws : Workspace) (source : String × Scope) :
    (ws.serve (.ofSource source)).1 =
      match Template.readModule source.1 >>= ws.readModule source.2 with
      | .ok m => .loaded m
      | .error e => .failed e := by
  rw [Request.ofSource, serve, loadModule]
  cases Template.readModule source.1 with
  | error e => rfl
  | ok members =>
    simp only [bind, Except.bind]
    cases ws.readModule source.2 members <;> rfl

theorem reply_congr {source : String × Scope} (hengine : ws.engine = ws'.engine)
    (hlookup : ∀ name, declaredName? source.1 = some name → ws.module? name = ws'.module? name)
    (hextends : ExtendsNothing source.1) :
    (ws.serve (.ofSource source)).1 = (ws'.serve (.ofSource source)).1 := by
  rw [serve_ofSource, serve_ofSource]
  cases hread : Template.readModule source.1 with
  | error e => rfl
  | ok members =>
    simp only [bind, Except.bind, readModule_congr hengine hlookup hextends hread]

theorem loadedAs?_ofSource {name : String} {source : String × Scope} {reply : Reply} {m : Module} :
    loadedAs? name (.ofSource source, reply) = some m ↔
      declaredName? source.1 = some name ∧ reply = .loaded m := by
  cases reply <;> simp [Request.ofSource, loadedAs?]

/-- A load leaves the names of other sources alone. -/
theorem module?_serve_of_namedApart {source source' : String × Scope} {name : String}
    (h : NamedApart source source') (hname : declaredName? source'.1 = some name) :
    (ws.serve (.ofSource source)).2.module? name = ws.module? name := by
  have hnone : loadedAs? name (.ofSource source, (ws.serve (.ofSource source)).1) = none := by
    rw [Option.eq_none_iff_forall_ne_some]
    exact fun m hm => h name (loadedAs?_ofSource.mp hm).1 hname
  rw [module?_serve, hnone, Option.none_or]

/-- In a row of loads, each comes to what it would come to alone in a workspace that has the same
modules under the names of the sources. -/
theorem history_loads_congr (hengine : ws.engine = ws'.engine)
    (hlookup : ∀ s ∈ sources, ∀ name, declaredName? s.1 = some name →
      ws.module? name = ws'.module? name)
    (hnames : sources.Pairwise NamedApart) (hextends : ∀ s ∈ sources, ExtendsNothing s.1) :
    ws.history (sources.map .ofSource) =
      sources.map fun s => (.ofSource s, (ws'.serve (.ofSource s)).1) := by
  -- The workspace changes with each load, but not under the names of the sources still to come.
  induction sources generalizing ws with
  | nil => rfl
  | cons s sources ih =>
    obtain ⟨hhead, htail⟩ := List.pairwise_cons.mp hnames
    rw [List.map_cons, history, List.map_cons,
      reply_congr hengine (hlookup s List.mem_cons_self) (hextends s List.mem_cons_self)]
    congr 1
    apply ih ((ws.engine_serve _).trans hengine) _ htail
      fun s' hs' => hextends s' (List.mem_cons_of_mem _ hs')
    intro s' hs' name hname
    rw [module?_serve_of_namedApart (hhead s' hs') hname]
    exact hlookup s' (List.mem_cons_of_mem _ hs') name hname

theorem history_loads (ws : Workspace) (hnames : sources.Pairwise NamedApart)
    (hextends : ∀ s ∈ sources, ExtendsNothing s.1) :
    ws.history (sources.map .ofSource) =
      sources.map fun s => (.ofSource s, (ws.serve (.ofSource s)).1) :=
  history_loads_congr rfl (fun _ _ _ _ => rfl) hnames hextends

/-- If all loads of a name gave the same module, the last one did. -/
theorem lastLoaded?_eq_some_iff {name : String} {events : List (Request × Reply)} {m : Module}
    (hunique : ∀ e ∈ events, ∀ e' ∈ events, ∀ m m', loadedAs? name e = some m →
      loadedAs? name e' = some m' → m = m') :
    lastLoaded? name events = some m ↔ ∃ e ∈ events, loadedAs? name e = some m := by
  constructor
  · intro h
    obtain ⟨e, he, hm⟩ := List.exists_of_findSome?_eq_some h
    exact ⟨e, List.mem_reverse.mp he, hm⟩
  · rintro ⟨e, he, hm⟩
    cases hlast : lastLoaded? name events with
    | none =>
      have hnone := List.findSome?_eq_none_iff.mp hlast e (List.mem_reverse.mpr he)
      rw [hm] at hnone
      cases hnone
    | some m' =>
      obtain ⟨e', he', hm'⟩ := List.exists_of_findSome?_eq_some hlast
      rw [hunique e he e' (List.mem_reverse.mp he') m m' hm hm']

/-- The module loaded last under a name is the one that its source gives by itself. -/
theorem lastLoaded?_loads (ws : Workspace) (hnames : sources.Pairwise NamedApart)
    (hextends : ∀ s ∈ sources, ExtendsNothing s.1) {name : String} {m : Module} :
    lastLoaded? name (ws.history (sources.map .ofSource)) = some m ↔
      ∃ s ∈ sources, declaredName? s.1 = some name ∧ (ws.serve (.ofSource s)).1 = .loaded m := by
  rw [history_loads ws hnames hextends, lastLoaded?_eq_some_iff]
  · simp only [List.mem_map, exists_exists_and_eq_and, loadedAs?_ofSource]
  · simp only [List.forall_mem_map]
    intro s hs s' hs' m m' hm hm'
    obtain ⟨hname, hreply⟩ := loadedAs?_ofSource.mp hm
    obtain ⟨hname', hreply'⟩ := loadedAs?_ofSource.mp hm'
    have heq : s = s' := by
      by_contra hne
      exact hnames.forall hs hs' hne name hname hname'
    exact Reply.loaded.inj (hreply.symm.trans (heq ▸ hreply'))

/-- After loads in another order, each name stands for the same module. -/
theorem sameModules_of_perm (ws : Workspace) (hperm : sources.Perm sources')
    (hnames : sources.Pairwise NamedApart) (hextends : ∀ s ∈ sources, ExtendsNothing s.1) :
    (ws.after (sources.map .ofSource)).SameModules (ws.after (sources'.map .ofSource)) := by
  have hnames' : sources'.Pairwise NamedApart := hperm.pairwise hnames symm
  have hextends' : ∀ s ∈ sources', ExtendsNothing s.1 :=
    fun s hs => hextends s (hperm.mem_iff.mpr hs)
  have hlast (name : String) : lastLoaded? name (ws.history (sources.map .ofSource)) =
      lastLoaded? name (ws.history (sources'.map .ofSource)) := by
    apply Option.ext
    intro m
    rw [lastLoaded?_loads ws hnames hextends, lastLoaded?_loads ws hnames' hextends']
    simp only [hperm.mem_iff]
  refine ⟨by rw [engine_after, engine_after], fun name => ?_⟩
  rw [module?_after, module?_after, hlast]

/-- Sources that declare different names and whose bindings extend nothing can be loaded in any
order: each of them loads as the same module or fails in the same way, and afterwards each document
compiles to the same outputs or fails in the same way. -/
theorem loads_of_perm (ws : Workspace) (hperm : sources.Perm sources')
    (hnames : sources.Pairwise NamedApart) (hextends : ∀ s ∈ sources, ExtendsNothing s.1) :
    (ws.history (sources.map .ofSource)).Perm (ws.history (sources'.map .ofSource)) ∧
    ∀ name text scope, (ws.after (sources.map .ofSource)).compileDocument name text scope =
      (ws.after (sources'.map .ofSource)).compileDocument name text scope := by
  refine ⟨?_, (sameModules_of_perm ws hperm hnames hextends).compileDocument⟩
  rw [history_loads ws hnames hextends, history_loads ws (hperm.pairwise hnames symm)
    fun s hs => hextends s (hperm.mem_iff.mpr hs)]
  exact hperm.map _

/-! Two modules, one with bindings and one with a template. -/

def bindingSource : String × Scope :=
  ("\x7b\"$module\":\"sizes\",\"$scope\":\x7b\"width\":\"\x7b\x7b2 * 3\x7d\x7d\"\x7d\x7d", [])

def templateSource : String × Scope :=
  ("\x7b\"$module\":\"box\",\"$template\":\x7b\"depth\":1\x7d\x7d", [])

theorem readModule_bindingSource : Template.readModule bindingSource.1 =
    .ok [("$module", .string "sizes"),
      ("$scope", .object none [("width", .string "\x7b\x7b2 * 3\x7d\x7d")])] := by
  have htext : Json.ofText? bindingSource.1 = some (.object [("$module", .string "sizes"),
      ("$scope", .object [("width", .string "\x7b\x7b2 * 3\x7d\x7d")])]) := by
    decide +kernel
  rw [Template.readModule, readObject, htext]
  rfl

theorem readModule_templateSource : Template.readModule templateSource.1 =
    .ok [("$module", .string "box"), ("$template", .object none [("depth", .integer 1)])] := by
  have htext : Json.ofText? templateSource.1 = some (.object [("$module", .string "box"),
      ("$template", .object [("depth", .integer 1)])]) := by
    decide +kernel
  rw [Template.readModule, readObject, htext]
  rfl

theorem loads_of_swap :
    ((empty Engine.standard).history ([bindingSource, templateSource].map .ofSource)).Perm
      ((empty Engine.standard).history ([templateSource, bindingSource].map .ofSource)) ∧
    ∀ name text scope, ((empty Engine.standard).after
        ([bindingSource, templateSource].map .ofSource)).compileDocument name text scope =
      ((empty Engine.standard).after
        ([templateSource, bindingSource].map .ofSource)).compileDocument name text scope := by
  apply loads_of_perm _ (.swap ..)
  · have hbinding : declaredName? bindingSource.1 = some "sizes" :=
      declaredName?_eq_some readModule_bindingSource rfl
    have htemplate : declaredName? templateSource.1 = some "box" :=
      declaredName?_eq_some readModule_templateSource rfl
    simp [NamedApart, hbinding, htemplate]
  · have hbinding : ExtendsNothing bindingSource.1 := by
      intro members node hread hnode
      rw [readModule_bindingSource] at hread
      obtain rfl := Except.ok.inj hread
      obtain rfl := Option.some.inj hnode
      exact Value.everyKey_singleton (by decide) (Value.everyKey_leaf rfl)
    have htemplate : ExtendsNothing templateSource.1 := by
      intro members node hread hnode
      rw [readModule_templateSource] at hread
      obtain rfl := Except.ok.inj hread
      cases hnode
    simp [hbinding, htemplate]

end Workspace

end Stencil

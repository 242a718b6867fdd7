import Stencil.Proofs.Template.OwnMembers
import Stencil.Proofs.Value.Keys
import Stencil.Template.Workspace

/-!
# What resolving asks of the modules

Resolving a node asks its workspace for the values of expressions, which are all up to the engine,
and for the modules that directives extend. So two workspaces with one engine resolve a node alike
if they find the same modules for the directives in it: for any node if they have the same modules,
and for a node without `$extend` in any case.
-/

namespace Stencil

namespace Template

/-- Two resolvers come to the same for a node, wherever it stands. -/
def AlikeAt (resolve resolve' : Resolver) (node : Value) : Prop :=
  ∀ here path scope, resolve here path scope node = resolve' here path scope node

/-- Nodes whose directives extend the same modules in two workspaces of one engine. With a node its
parts are among them, and with a directive its body. -/
structure Shared (ws ws' : Workspace) (P : Value → Prop) : Prop where
  engine : ws.engine = ws'.engine
  item {node items} : P (.array node items) → ∀ item ∈ items, P item
  member {node members} : P (.object node members) → ∀ m ∈ members, P m.2
  modules {node members} (path) : P (.object node members) →
    extendedModules ws path (Fields.get? members extendKey) =
      extendedModules ws' path (Fields.get? members extendKey)
  body {node members modules body} (path path') : P (.object node members) →
    extendedModules ws path (Fields.get? members extendKey) = .ok modules →
    (modules.filterMap (·.template)).foldlM (mergeAt path')
      ((Fields.get? members templateKey).getD .null) = .ok body → P body

variable {ws ws' : Workspace} {resolve resolve' : Resolver} {here : Trail} {path : Path}
  {scope : Scope}

theorem rounds_congr {k : Nat} {name : String} {body : Value}
    (hbody : AlikeAt resolve resolve' body) (i : Nat) (vs : List Value) :
    rounds resolve here k path scope name body i vs =
      rounds resolve' here k path scope name body i vs := by
  induction vs generalizing i with
  | nil => rfl
  | cons v vs ih => rw [rounds, rounds, hbody, ih]

section

variable (hengine : ws.engine = ws'.engine)
include hengine

theorem evaluate_congr : evaluate ws = evaluate ws' := by
  funext here path scope source
  rw [evaluate, evaluate, hengine]

theorem iterate_congr {k : Nat} {source name : String} {body : Value}
    (hbody : AlikeAt resolve resolve' body) :
    iterate ws resolve here k path scope source name body =
      iterate ws' resolve' here k path scope source name body := by
  simp only [iterate, evaluate_congr hengine, rounds_congr hbody]

theorem choose_congr {k : Nat} {source : String} {body : Value}
    (hbody : AlikeAt resolve resolve' body) :
    choose ws resolve here k path scope source body =
      choose ws' resolve' here k path scope source body := by
  simp only [choose, evaluate_congr hengine, hbody _ _ _]

theorem expand_congr {k : Nat} {body : Value} (hbody : AlikeAt resolve resolve' body) (key : Key) :
    expand ws resolve here k path scope body key =
      expand ws' resolve' here k path scope body key := by
  cases key with
  | iteration source name => exact congrArg some (iterate_congr hengine hbody)
  | conditional source => exact congrArg some (choose_congr hengine hbody)
  | _ => rfl

/-- Of an item itself or, if it expands, of the body of its one member. -/
theorem resolveItem_congr {item : Value} (hitem : AlikeAt resolve resolve' item)
    (hbody : ∀ node members, item = .object node members →
      ∀ m ∈ members, AlikeAt resolve resolve' m.2) :
    resolveItem ws resolve here path scope item =
      resolveItem ws' resolve' here path scope item := by
  have hexpand : expandItem ws resolve here path scope item =
      expandItem ws' resolve' here path scope item := by
    unfold expandItem
    split
    · exact expand_congr hengine (hbody _ _ rfl _ List.mem_cons_self) _
    · rfl
  rw [resolveItem, resolveItem, hexpand, hitem]

theorem resolveItems_congr {items : List Value}
    (hitems : ∀ item ∈ items, AlikeAt resolve resolve' item)
    (hbodies : ∀ node members, .object node members ∈ items →
      ∀ m ∈ members, AlikeAt resolve resolve' m.2) (i : Nat) :
    resolveItems ws resolve here path scope i items =
      resolveItems ws' resolve' here path scope i items := by
  induction items generalizing i with
  | nil => rfl
  | cons item items ih =>
    have hitem {here : Trail} {path : Path} : resolveItem ws resolve here path scope item =
        resolveItem ws' resolve' here path scope item :=
      resolveItem_congr hengine (hitems item List.mem_cons_self)
        fun node members heq => hbodies node members (heq ▸ List.mem_cons_self)
    rw [resolveItems, resolveItems, hitem,
      ih (fun item hitem => hitems item (List.mem_cons_of_mem _ hitem))
        fun node members hmem => hbodies node members (List.mem_cons_of_mem _ hmem)]

theorem resolveMember_congr {k : Nat} {key : String} {body : Value}
    (hbody : AlikeAt resolve resolve' body) :
    resolveMember ws resolve here k path scope key body =
      resolveMember ws' resolve' here k path scope key body := by
  simp only [resolveMember, computedName, evaluate_congr hengine, hbody _ _ _,
    iterate_congr hengine hbody, choose_congr hengine hbody]

theorem resolveMembers_congr {members : List (String × Value)}
    (hmembers : ∀ m ∈ members, AlikeAt resolve resolve' m.2) (k : Nat) :
    resolveMembers ws resolve here path scope k members =
      resolveMembers ws' resolve' here path scope k members := by
  induction members generalizing k with
  | nil => rfl
  | cons m members ih =>
    rw [resolveMembers, resolveMembers, resolveMember_congr hengine (hmembers m List.mem_cons_self),
      ih fun m hm => hmembers m (List.mem_cons_of_mem _ hm)]

theorem resolveObject_congr {members : Fields Value}
    (hmembers : ∀ m ∈ members, AlikeAt resolve resolve' m.2) :
    resolveObject ws resolve here path scope members =
      resolveObject ws' resolve' here path scope members := by
  rw [resolveObject, resolveObject,
    resolveMembers_congr hengine fun m hm => hmembers m (List.mem_filter.mp hm).1]

end

theorem directive_congr {members : Fields Value}
    (hmodules : ∀ path, extendedModules ws path (members.get? extendKey) =
      extendedModules ws' path (members.get? extendKey))
    (hmembers : ∀ m ∈ members, AlikeAt resolve resolve' m.2) :
    directive ws resolve here path scope members =
      directive ws' resolve' here path scope members := by
  have hbindings {here : Trail} {path : Path} {inherited : Fields Value} :
      directiveBindings resolve here path scope inherited (members.get? scopeKey) =
        directiveBindings resolve' here path scope inherited (members.get? scopeKey) := by
    cases hnode : members.get? scopeKey with
    | none => rfl
    | some node =>
      have hsame := hmembers (scopeKey, node) (Fields.mem_of_get? hnode)
      rw [directiveBindings, directiveBindings, resolveBindings, resolveBindings, hsame]
  simp only [directive, hmodules, hbindings]

/-- The body of a directive is its own template with the templates of its modules. -/
theorem body_of_directive {members : Fields Value} {working : Scope} {body : Value}
    (h : directive ws resolve here path scope members = .ok (working, body)) :
    ∃ modules, extendedModules ws (path.field extendKey) (members.get? extendKey) = .ok modules ∧
      (modules.filterMap (·.template)).foldlM (mergeAt (path.field templateKey))
        ((members.get? templateKey).getD .null) = .ok body := by
  simp only [directive, bind_eq_ok, pure_eq_ok, Prod.mk.injEq] at h
  obtain ⟨modules, hmodules, -, -, -, -, body, hbody, -, rfl⟩ := h
  exact ⟨modules, hmodules, hbody⟩

variable {P : Value → Prop}

theorem resolveNode_congr (h : Shared ws ws' P)
    (hresolve : ∀ node, P node → AlikeAt resolve resolve' node) {node : Value} (hnode : P node) :
    AlikeAt (resolveNode ws resolve) (resolveNode ws' resolve') node := by
  intro here path scope
  cases node with
  | string s => simp only [resolveNode, resolveSource, evaluate_congr h.engine]
  | array mark items =>
    rw [resolveNode, resolveNode,
      resolveItems_congr h.engine (fun item hitem => hresolve item (h.item hnode item hitem))
        fun mark members hitem m hm => hresolve m.2 (h.member (h.item hnode _ hitem) m hm)]
  | object mark members =>
    have hmembers : ∀ m ∈ members, AlikeAt resolve resolve' m.2 :=
      fun m hm => hresolve m.2 (h.member hnode m hm)
    have hdirective : directive ws resolve here path scope members =
        directive ws' resolve' here path scope members :=
      directive_congr (fun path => h.modules path hnode) hmembers
    simp only [resolveNode, resolveObject_congr h.engine hmembers, ← hdirective]
    -- The body may have parts of the modules in it: it is known only once the directive is open.
    cases hopened : directive ws resolve here path scope members with
    | error e => rfl
    | ok opened =>
      obtain ⟨modules, hmodules, hbody⟩ := body_of_directive hopened
      have hsame := hresolve opened.2 (h.body _ _ hnode hmodules hbody)
      simp only [bind, Except.bind, hsame _ _ _]
  | _ => rfl

theorem resolve_congr (h : Shared ws ws' P) (depth : Nat) {node : Value} (hnode : P node) :
    AlikeAt (Template.resolve ws depth) (Template.resolve ws' depth) node := by
  induction depth generalizing node with
  | zero =>
    intro here path scope
    rw [Template.resolve, Template.resolve, h.engine]
  | succ depth ih => exact resolveNode_congr h (fun node hnode => ih hnode) hnode

end Template

namespace Workspace

open Template

variable {ws ws' : Workspace} {members : Fields Value} {scope : Scope}

theorem resolver_congr {P : Value → Prop} (h : Shared ws ws' P) {node : Value} (hnode : P node) :
    AlikeAt ws.resolver ws'.resolver node := by
  rw [resolver, resolver, ← h.engine]
  exact resolve_congr h _ hnode

theorem shared_unextended (hengine : ws.engine = ws'.engine) :
    Shared ws ws' (Value.EveryKey (· ≠ extendKey)) := by
  have hnone {node : Node} {members : Fields Value}
      (h : (Value.object node members).EveryKey (· ≠ extendKey)) :
      Fields.get? members extendKey = none :=
    h.get?_eq_none (not_not.mpr rfl)
  refine ⟨hengine, fun h item hitem => h.item hitem, fun h m hm => h.member hm,
    fun path h => ?_, ?_⟩
  · rw [hnone h]
    rfl
  · intro node members modules body path path' h hmodules hbody
    rw [hnone h] at hmodules
    obtain rfl : [] = modules := Except.ok.inj hmodules
    obtain rfl := pure_eq_ok.mp hbody
    cases htemplate : Fields.get? members templateKey with
    | none => exact Value.everyKey_leaf rfl
    | some template =>
      exact h.member (Fields.mem_of_get? htemplate)

/-- The engine is the same, and each name stands for the same module. -/
structure SameModules (ws ws' : Workspace) : Prop where
  engine : ws.engine = ws'.engine
  module? : ∀ name, ws.module? name = ws'.module? name

namespace SameModules

theorem extendedModules (h : ws.SameModules ws') : extendedModules ws = extendedModules ws' := by
  funext path node
  have hlookup (name : String) : ws.modules.get? name = ws'.modules.get? name := h.module? name
  simp only [Template.extendedModules, hlookup]

theorem shared (h : ws.SameModules ws') : Shared ws ws' fun _ => True :=
  ⟨h.engine, fun _ _ _ => trivial, fun _ _ _ => trivial, fun _ _ => by rw [h.extendedModules],
    fun _ _ _ _ _ => trivial⟩

theorem resolver (h : ws.SameModules ws') : ws.resolver = ws'.resolver := by
  funext here path scope node
  exact resolver_congr h.shared trivial here path scope

/-- A document compiles to the same, or fails in the same way. -/
theorem compileDocument (h : ws.SameModules ws') (name text : String) (scope : Scope) :
    ws.compileDocument name text scope = ws'.compileDocument name text scope := by
  have hdirective (members : Fields Value) :
      directive ws ws'.resolver [] .root scope members =
        directive ws' ws'.resolver [] .root scope members :=
    directive_congr (fun path => by rw [h.extendedModules]) fun _ _ _ _ _ => rfl
  simp only [Workspace.compileDocument, compileMembers, h.resolver, hdirective]

end SameModules

end Workspace

end Stencil

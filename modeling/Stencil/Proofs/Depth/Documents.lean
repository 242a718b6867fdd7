import Mathlib
import Stencil.Proofs.Depth.Evaluator
import Stencil.Template.Workspace

/-!
# Resolving that keeps count

A resolver of documents that counts the nodes it is inside of, beside the count of the evaluator
that it evaluates expressions with. Requests to one evaluator, or to one resolver, leave no trace in
the counters: each of them comes to what it would come to alone.
-/

namespace Stencil.Counted

open Template

abbrev CountedResolver := Trail → Path → Scope → Value → Counted TemplateError Value

/-- How a resolver comes by the value of a source. -/
abbrev CountedSources := Trail → Path → Scope → String → Counted TemplateError Value

def evaluateSource (limit steps : Nat) : CountedSources := fun here path scope source =>
  handle (do evaluate limit steps here (← outcome (Expr.ofSource source)) scope)
    (·.mapError (.eval path))

def resolveBindings (resolve : CountedResolver) (here : Trail) (path : Path) (scope : Scope)
    (node : Value) : Counted TemplateError (Fields Value) := do
  match ← resolve here path scope node with
  | .object _ members => return members
  | v => throw (.invalid path (.scope v.kind))

def directiveBindings (resolve : CountedResolver) (here : Trail) (path : Path) (scope : Scope)
    (inherited : Fields Value) : Option Value → Counted TemplateError (Fields Value)
  | none => pure inherited
  | some node => do
    let own ← resolveBindings resolve here path (inherited :: scope) node
    outcome (combinedBindings path own inherited)

def directive (ws : Workspace) (resolve : CountedResolver) (here : Trail) (path : Path)
    (scope : Scope) (members : Fields Value) : Counted TemplateError (Scope × Value) := do
  let modules ← outcome (extendedModules ws (path.field extendKey) (members.get? extendKey))
  let inherited ← outcome (inheritedBindings (path.field extendKey) modules)
  let bindings ← directiveBindings resolve (here.part 0) (path.field scopeKey) scope inherited
    (members.get? scopeKey)
  let body ← outcome ((modules.filterMap (·.template)).foldlM (mergeAt (path.field templateKey))
    ((members.get? templateKey).getD .null))
  return (bindings :: scope, body)

def rounds (resolve : CountedResolver) (here : Trail) (k : Nat) (path : Path) (scope : Scope)
    (name : String) (body : Value) : (i : Nat) → List Value → Counted TemplateError (List Value)
  | _, [] => pure []
  | i, v :: vs => do
    let bindings := roundBindings name i v
    let result ← resolve ((here.round i).part k) (path.index i) (bindings :: scope) body
    return result :: (← rounds resolve here k path scope name body (i + 1) vs)

section

variable (sources : CountedSources) (resolve : CountedResolver)

def iterate (here : Trail) (k : Nat) (path : Path) (scope : Scope) (source name : String)
    (body : Value) : Counted TemplateError (List Value) := do
  match ← sources (here.key k) path scope source with
  | .array _ items => rounds resolve here k path scope name body 0 items
  | v => throw (.eval path (.type (.iterate v.kind)))

def choose (here : Trail) (k : Nat) (path : Path) (scope : Scope) (source : String)
    (body : Value) : Counted TemplateError (List Value) := do
  let test ← sources (here.key k) path scope source
  if test.truthy then return [← resolve (here.part k) path scope body] else return []

def expand (here : Trail) (k : Nat) (path : Path) (scope : Scope) (body : Value) :
    Key → Option (Counted TemplateError (List Value))
  | .iteration source name => some (iterate sources resolve here k path scope source name body)
  | .conditional source => some (choose sources resolve here k path scope source body)
  | _ => none

def expandItem (here : Trail) (path : Path) (scope : Scope) :
    Value → Option (Counted TemplateError (List Value))
  | .object _ [(key, body)] =>
    expand sources resolve here 0 (path.field key) scope body (classify key)
  | _ => none

def resolveItem (here : Trail) (path : Path) (scope : Scope) (item : Value) :
    Counted TemplateError (List Value) :=
  match expandItem sources resolve here path scope item with
  | some expansions => (·.flatMap spliced) <$> expansions
  | none => ([·]) <$> resolve here path scope item

def resolveItems (here : Trail) (path : Path) (scope : Scope) :
    (i : Nat) → List Value → Counted TemplateError (List Value)
  | _, [] => pure []
  | i, item :: items => do
    let elements ← resolveItem sources resolve (here.part i) (path.index i) scope item
    return elements ++ (← resolveItems here path scope (i + 1) items)

def computedName (here : Trail) (path : Path) (scope : Scope) (source : String) :
    Counted TemplateError String := do
  let name ← sources here path scope source
  if name.isCallable then throw (.eval path (.type (.key name.kind))) else return name.text

def resolveMember (here : Trail) (k : Nat) (path : Path) (scope : Scope) (key : String)
    (body : Value) : Counted TemplateError Pieces :=
  match classify key with
  | .comment => pure ⟨[], []⟩
  | .literal => do
    let v ← resolve (here.part k) path scope body
    return ⟨[(key, v)], []⟩
  | .computed source => do
    let name ← computedName sources (here.key k) path scope source
    let v ← resolve (here.part k) path scope body
    return ⟨[(name, v)], []⟩
  | .iteration source name => do
    let vs ← iterate sources resolve here k path scope source name body
    return ⟨[], vs.map (path, ·)⟩
  | .conditional source => do
    let vs ← choose sources resolve here k path scope source body
    return ⟨[], vs.map (path, ·)⟩

def resolveMembers (here : Trail) (path : Path) (scope : Scope) :
    (k : Nat) → List (String × Value) → Counted TemplateError Pieces
  | _, [] => pure ⟨[], []⟩
  | k, (key, body) :: members => do
    let piece ← resolveMember sources resolve here k (path.field key) scope key body
    return piece.append (← resolveMembers here path scope (k + 1) members)

def resolveObject (here : Trail) (path : Path) (scope : Scope) (members : Fields Value) :
    Counted TemplateError Value := do
  let pieces ← resolveMembers sources resolve here path scope 0
    (members.filter fun (key, _) => key ≠ commentKey)
  outcome (pieces.expansions.foldlM addExpansion (.ofMembers (Fields.ofList pieces.own)))

def resolveSource (here : Trail) (path : Path) (scope : Scope) (source : String) :
    Counted TemplateError Value := do
  let v ← sources here path scope source
  if v.isCallable then throw (.eval path (.type (.stored v.kind))) else return v.deepCopy

def resolveNode (ws : Workspace) : CountedResolver := fun here path scope node =>
  match node with
  | .string s =>
    match source? s with
    | some source => resolveSource sources here path scope source
    | none => pure node
  | .array _ items => .ofItems <$> resolveItems sources resolve here path scope 0 items
  | .object _ members =>
    if Fields.has members templateKey then do
      outcome (checkKeys path [templateKey, scopeKey, extendKey, commentKey] members)
      let (working, body) ← directive ws resolve here path scope members
      resolve (here.part 1) (path.field templateKey) working body
    else resolveObject sources resolve here path scope members
  | v => pure v

end

/-- Resolves a node, one level deeper than the counter says. The run is given up after `steps`
levels, whatever the counter says. -/
def resolve (ws : Workspace) (sources : CountedSources) : (steps : Nat) → CountedResolver
  | 0, _, _, _, _ => unfinished
  | steps + 1, here, path, scope, node =>
    nested .document ws.engine.limit (.eval path (.recursionLimit ws.engine.limit))
      (resolveNode sources (resolve ws sources steps) ws here path scope node)

section

variable {c : Counters} {ws : Workspace} {sources : CountedSources} {resolve' : CountedResolver}
  {resolve : Resolver}

section

variable (hresolve : ∀ here path scope node,
  Returns c (resolve' here path scope node) (resolve here path scope node))
include hresolve

theorem returns_resolveBindings (here : Trail) (path : Path) (scope : Scope) (node : Value) :
    Returns c (resolveBindings resolve' here path scope node)
      (Template.resolveBindings resolve here path scope node) := by
  refine .bind (hresolve here path scope node) fun v => ?_
  cases v with
  | object => exact .pure _
  | _ => exact .throw _

theorem returns_directive (here : Trail) (path : Path) (scope : Scope) (members : Fields Value) :
    Returns c (directive ws resolve' here path scope members)
      (Template.directive ws resolve here path scope members) := by
  refine .bind (.outcome _) fun modules => .bind (.outcome _) fun inherited => ?_
  refine .bind ?_ fun bindings => .bind (.outcome _) fun body => .pure _
  cases members.get? scopeKey with
  | none => exact .pure _
  | some node => exact .bind (returns_resolveBindings hresolve _ _ _ _) fun own => .outcome _

theorem returns_rounds (here : Trail) (k : Nat) (path : Path) (scope : Scope) (name : String)
    (body : Value) (i : Nat) (vs : List Value) :
    Returns c (rounds resolve' here k path scope name body i vs)
      (Template.rounds resolve here k path scope name body i vs) := by
  induction vs generalizing i with
  | nil => exact .pure []
  | cons v vs ih =>
    exact .bind (hresolve _ _ _ _) fun v => .bind (ih (i + 1)) fun vs => .pure (v :: vs)

variable (hsources : ∀ here path scope source,
  Returns c (sources here path scope source) (Template.evaluate ws here path scope source))
include hsources

theorem returns_iterate (here : Trail) (k : Nat) (path : Path) (scope : Scope)
    (source name : String) (body : Value) :
    Returns c (iterate sources resolve' here k path scope source name body)
      (Template.iterate ws resolve here k path scope source name body) := by
  refine .bind (hsources _ _ _ _) fun v => ?_
  cases v with
  | array node items => exact returns_rounds hresolve _ _ _ _ _ _ _ _
  | _ => exact .throw _

theorem returns_choose (here : Trail) (k : Nat) (path : Path) (scope : Scope) (source : String)
    (body : Value) :
    Returns c (choose sources resolve' here k path scope source body)
      (Template.choose ws resolve here k path scope source body) := by
  refine .bind (hsources _ _ _ _) fun test => ?_
  split
  · exact .bind (hresolve _ _ _ _) fun v => .pure [v]
  · exact .pure []

theorem returns_resolveItem (here : Trail) (path : Path) (scope : Scope) (item : Value) :
    Returns c (resolveItem sources resolve' here path scope item)
      (Template.resolveItem ws resolve here path scope item) := by
  have hplain : Returns c (([·]) <$> resolve' here path scope item)
      ((resolve here path scope item).map ([·])) :=
    (hresolve _ _ _ _).map _
  cases item with
  | object node members =>
    match members with
    | [] | _ :: _ :: _ => exact hplain
    | [(key, body)] =>
      simp only [resolveItem, expandItem, Template.resolveItem, Template.expandItem]
      cases classify key with
      | iteration source name => exact (returns_iterate hresolve hsources _ _ _ _ _ _ _).map _
      | conditional source => exact (returns_choose hresolve hsources _ _ _ _ _ _).map _
      | _ => exact hplain
  | _ => exact hplain

theorem returns_resolveItems (here : Trail) (path : Path) (scope : Scope) (i : Nat)
    (items : List Value) :
    Returns c (resolveItems sources resolve' here path scope i items)
      (Template.resolveItems ws resolve here path scope i items) := by
  induction items generalizing i with
  | nil => exact .pure []
  | cons item items ih =>
    exact .bind (returns_resolveItem hresolve hsources _ _ _ item) fun elements =>
      .bind (ih (i + 1)) fun rest => .pure (elements ++ rest)

omit hresolve in
theorem returns_computedName (here : Trail) (path : Path) (scope : Scope) (source : String) :
    Returns c (computedName sources here path scope source)
      (Template.computedName ws here path scope source) := by
  refine .bind (hsources _ _ _ _) fun name => ?_
  split
  · exact .throw _
  · exact .pure _

theorem returns_resolveMember (here : Trail) (k : Nat) (path : Path) (scope : Scope) (key : String)
    (body : Value) :
    Returns c (resolveMember sources resolve' here k path scope key body)
      (Template.resolveMember ws resolve here k path scope key body) := by
  rw [resolveMember, Template.resolveMember]
  cases classify key with
  | comment => exact .pure _
  | literal => exact .bind (hresolve _ _ _ _) fun v => .pure _
  | computed source =>
    exact .bind (returns_computedName hsources _ _ _ _) fun name =>
      .bind (hresolve _ _ _ _) fun v => .pure _
  | iteration source name =>
    exact .bind (returns_iterate hresolve hsources _ _ _ _ _ _ _) fun vs => .pure _
  | conditional source =>
    exact .bind (returns_choose hresolve hsources _ _ _ _ _ _) fun vs => .pure _

theorem returns_resolveMembers (here : Trail) (path : Path) (scope : Scope) (k : Nat)
    (members : List (String × Value)) :
    Returns c (resolveMembers sources resolve' here path scope k members)
      (Template.resolveMembers ws resolve here path scope k members) := by
  induction members generalizing k with
  | nil => exact .pure _
  | cons m members ih =>
    exact .bind (returns_resolveMember hresolve hsources _ _ _ _ m.1 m.2) fun piece =>
      .bind (ih (k + 1)) fun rest => .pure (piece.append rest)

/-- Whatever a node is, it comes to what it comes to without counters, if the nodes inside it do. -/
theorem returns_resolveNode (here : Trail) (path : Path) (scope : Scope) (node : Value) :
    Returns c (resolveNode sources resolve' ws here path scope node)
      (Template.resolveNode ws resolve here path scope node) := by
  cases node with
  | string s =>
    simp only [resolveNode, Template.resolveNode]
    cases source? s with
    | none => exact .pure _
    | some source =>
      refine .bind (hsources _ _ _ _) fun v => ?_
      split
      · exact .throw _
      · exact .pure _
  | array node items => exact (returns_resolveItems hresolve hsources _ _ _ _ _).map _
  | object node members =>
    simp only [resolveNode, Template.resolveNode]
    split
    · refine .bind (.outcome _) fun _ => ?_
      exact .bind (returns_directive hresolve _ _ _ _) fun p => hresolve _ _ _ _
    · exact .bind (returns_resolveMembers hresolve hsources _ _ _ _ _) fun pieces => .outcome _
  | _ => exact .pure _

end

end

section

variable {limit : Nat} {modules : Fields Module}

theorem returns_evaluateSource {steps : Nat} (hsteps : limit < steps) {c : Counters}
    (hcounter : c .evaluation = 0) (here : Trail) (path : Path) (scope : Scope) (source : String) :
    Returns c (evaluateSource limit steps here path scope source)
      (Template.evaluate ⟨⟨.builtins, limit⟩, modules⟩ here path scope source) := by
  have hlevel := countsAs_level limit steps (c := c) (by omega)
  rw [hcounter] at hlevel
  exact .handle (.bind (.outcome _) fun e => hlevel.evaluate here e scope) _

theorem resolve_left (ws : Workspace) (depth : Nat) (here : Trail) (path : Path) (scope : Scope)
    (node : Value) :
    Template.resolve ws (ws.engine.limit - depth) here path scope node =
      if ws.engine.limit ≤ depth then .error (.eval path (.recursionLimit ws.engine.limit))
      else Template.resolveNode ws (Template.resolve ws (ws.engine.limit - (depth + 1))) here path
        scope node := by
  rw [levels_left]
  split <;> rfl

/-- With steps for all levels that the limit leaves, a node comes to what it comes to with these
levels, if the resolver is not inside of an evaluation. -/
theorem returns_resolve {sources : CountedSources}
    (hsources : ∀ {c : Counters}, c .evaluation = 0 → ∀ here path scope source,
      Returns c (sources here path scope source)
        (Template.evaluate ⟨⟨.builtins, limit⟩, modules⟩ here path scope source))
    (steps : Nat) {c : Counters} (hcounter : c .evaluation = 0)
    (hsteps : limit - c .document < steps) (here : Trail) (path : Path) (scope : Scope) (node : Value) :
    Returns c (resolve ⟨⟨.builtins, limit⟩, modules⟩ sources steps here path scope node)
      (Template.resolve ⟨⟨.builtins, limit⟩, modules⟩ (limit - c .document) here path scope
        node) := by
  induction steps generalizing c here path scope node with
  | zero => exact absurd hsteps (Nat.not_lt_zero _)
  | succ steps ih =>
    have hdepth : enter .document c .document = c .document + 1 := Function.update_self ..
    have houtside : enter .document c .evaluation = 0 :=
      (Function.update_of_ne (by decide) _ _).trans hcounter
    rw [resolve_left]
    refine .nested fun (hlt : c .document < limit) => ?_
    refine returns_resolveNode (fun here path scope node => ?_) (hsources houtside) _ _ _ _
    rw [← hdepth]
    exact ih houtside (by omega) _ _ _ _

end

/-- A node that a resolver is asked for. -/
structure NodeRequest where
  here : Trail
  path : Path
  scope : Scope
  node : Value

def NodeRequest.serve (limit steps : Nat) (modules : Fields Module) (q : NodeRequest) :
    Counted TemplateError Value :=
  resolve ⟨⟨.builtins, limit⟩, modules⟩ (evaluateSource limit steps) steps q.here q.path q.scope
    q.node

/-- What the node comes to with the levels that are left at a depth. -/
def NodeRequest.outcome (limit depth : Nat) (modules : Fields Module) (q : NodeRequest) :
    Result Value :=
  Template.resolve ⟨⟨.builtins, limit⟩, modules⟩ (limit - depth) q.here q.path q.scope q.node

/-- Whatever an evaluator is asked for, one after another and from whatever depth, and whether it
fails or not: behind each request the counters are as they were, and each comes to what an evaluator
comes to that is asked for nothing else. The same holds of a resolver of documents. -/
theorem session_leaves_no_trace {limit steps : Nat} (hsteps : limit < steps) :
    (∀ (c : Counters) (qs : List Request),
      (session (Request.serve limit steps) qs).run c =
        some (qs.map fun q => (q.outcome limit (c .evaluation), c), c)) ∧
    (∀ (modules : Fields Module) (c : Counters) (qs : List NodeRequest), c .evaluation = 0 →
      (session (NodeRequest.serve limit steps modules) qs).run c =
        some (qs.map fun q => (q.outcome limit (c .document) modules, c), c)) := by
  constructor
  · intro c qs
    exact run_session (fun q => q.returns_serve (by omega)) qs
  · intro modules c qs hcounter
    refine run_session (fun q => ?_) qs
    exact returns_resolve (returns_evaluateSource hsteps) steps hcounter (by omega) _ _ _ _

/-- The calls `[1].map(x => -"a")`, which fails inside a callback, and `[1].map(x => x)`. -/
def failingCall : Expr :=
  .call (some (.array [.integer 1])) "map" [.lambda ["x"] (.unary .negate (.string "a"))]

def plainCall : Expr :=
  .call (some (.array [.integer 1])) "map" [.lambda ["x"] (.name "x")]

def start : Counters :=
  fun _ => 0

theorem session_of_failingCall :
    (session (Request.serve 4 5) [.evaluate [] failingCall [], .evaluate [] plainCall []]).run
      start = some ([(.error (.type (.negate .string)), start), (.ok (.array none [.integer 1]), start)],
        start) ∧
    (session (NodeRequest.serve 4 5 [])
        [⟨[], .root, [], .array none [.string "\x7b\x7b x \x7d\x7d"]⟩,
          ⟨[], .root, [], .array none [.null]⟩]).run start =
      some ([(.error (.eval (Path.root.index 0) (.unknownVariable "x")), start),
        (.ok (.array none [.null]), start)], start) := by
  obtain ⟨hrequests, hnodes⟩ := session_leaves_no_trace (show 4 < 5 by decide)
  refine ⟨(hrequests start _).trans ?_, (hnodes [] start _ rfl).trans ?_⟩
  · rfl
  · cbv

end Stencil.Counted

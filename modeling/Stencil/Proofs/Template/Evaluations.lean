import Stencil.Proofs.Comment.Resolving
import Stencil.Proofs.Template.Lookups

/-!
# The expressions of a document

A document in which no directive extends modules and no key expands is resolved part by part: each
expression in it is evaluated, if at all, with the path at which it stands in the document.
-/

namespace Stencil.Template

/-- A key of documents that are resolved part by part. -/
structure PlainKey (key : String) : Prop where
  ne_extendKey : key ≠ extendKey
  ne_filesKey : key ≠ filesKey
  not_isExpansion : (classify key).isExpansion = false

/-- The path leads from the root of a value to a text that is an expression, or to a member whose
key is one. -/
def ExpressionAt (v : Value) (p : List Segment) (source : String) : Prop :=
  (∃ s, v.At p (.string s) ∧ source? s = some source) ∨
  ∃ q mark members key body, p = q ++ [.field key] ∧ v.At q (.object mark members) ∧
    (key, body) ∈ members ∧ classify key = .computed source

theorem ExpressionAt.item {mark : Node} {items : List Value} {i : Nat} {item : Value}
    {p : List Segment} {source : String} (hi : items[i]? = some item)
    (h : ExpressionAt item p source) : ExpressionAt (.array mark items) (.index i :: p) source := by
  rcases h with ⟨s, hat, hs⟩ | ⟨q, mark', members, key, body, rfl, hat, hmem, hkey⟩
  · exact .inl ⟨s, .item hi hat, hs⟩
  · exact .inr ⟨.index i :: q, mark', members, key, body, rfl, .item hi hat, hmem, hkey⟩

theorem ExpressionAt.member {mark : Node} {members : Fields Value} {key : String} {body : Value}
    {p : List Segment} {source : String} (hmem : (key, body) ∈ members)
    (h : ExpressionAt body p source) :
    ExpressionAt (.object mark members) (.field key :: p) source := by
  rcases h with ⟨s, hat, hs⟩ | ⟨q, mark', members', key', body', rfl, hat, hmem', hkey⟩
  · exact .inl ⟨s, .member hmem hat, hs⟩
  · exact .inr ⟨.field key :: q, mark', members', key', body', rfl, .member hmem hat, hmem', hkey⟩

/-- An expression that is evaluated, with its place in the run and in the document. -/
structure Evaluation where
  here : Trail
  path : Path
  scope : Scope
  source : String

def Evaluation.outcome (ws : Workspace) (e : Evaluation) : Except EvalError Value :=
  ws.engine.run e.here e.source e.scope

/-- Resolving a node with plain keys leads to the evaluation. -/
inductive Evaluates (ws : Workspace) :
    (depth : Nat) → Trail → Path → Scope → Value → Evaluation → Prop
  | text {depth here path scope s source} : source? s = some source →
      Evaluates ws (depth + 1) here path scope (.string s) ⟨here, path, scope, source⟩
  | item {depth here path scope mark items i item e} : items[i]? = some item →
      Evaluates ws depth (here.part i) (path.index i) scope item e →
      Evaluates ws (depth + 1) here path scope (.array mark items) e
  | key {depth here path scope mark members k key body source} :
      Fields.has members templateKey = false → (uncommented members)[k]? = some (key, body) →
      classify key = .computed source →
      Evaluates ws (depth + 1) here path scope (.object mark members)
        ⟨here.key k, path.field key, scope, source⟩
  | member {depth here path scope mark members k key body e} :
      Fields.has members templateKey = false → (uncommented members)[k]? = some (key, body) →
      Evaluates ws depth (here.part k) (path.field key) scope body e →
      Evaluates ws (depth + 1) here path scope (.object mark members) e
  | bindings {depth here path scope mark members node e} : Fields.has members templateKey →
      Fields.get? members scopeKey = some node →
      Evaluates ws depth (here.part 0) (path.field scopeKey) ([] :: scope) node e →
      Evaluates ws (depth + 1) here path scope (.object mark members) e
  | body {depth here path scope mark members working body e} : Fields.has members templateKey →
      directive ws (Template.resolve ws depth) here path scope members = .ok (working, body) →
      Evaluates ws depth (here.part 1) (path.field templateKey) working body e →
      Evaluates ws (depth + 1) here path scope (.object mark members) e

variable {ws : Workspace} {resolve : Resolver} {here : Trail} {path : Path} {scope : Scope}
  {mark : Node} {items : List Value} {members : Fields Value}

theorem not_plainKey_extendKey : ¬ PlainKey extendKey :=
  fun h => h.ne_extendKey rfl

theorem mem_of_uncommented {k : Nat} {m : String × Value}
    (h : (uncommented members)[k]? = some m) : m ∈ members :=
  (List.mem_filter.mp (List.mem_of_getElem? h)).1

/-- A directive that extends nothing has its own template for its body. -/
theorem get?_templateKey_of_directive (hextend : members.get? extendKey = none)
    (hhas : members.has templateKey) {working : Scope} {body : Value}
    (h : directive ws resolve here path scope members = .ok (working, body)) :
    members.get? templateKey = some body := by
  obtain ⟨modules, hmodules, hbody⟩ := body_of_directive h
  rw [hextend] at hmodules
  obtain rfl : [] = modules := Except.ok.inj hmodules
  obtain ⟨template, htemplate⟩ := Option.isSome_iff_exists.mp hhas
  change members.get? templateKey = some template at htemplate
  rw [htemplate] at hbody ⊢
  exact congrArg some (pure_eq_ok.mp hbody)

/-- The path of an evaluation leads to its expression. -/
theorem Evaluates.expressionAt {depth : Nat} {node : Value} {e : Evaluation}
    (h : Evaluates ws depth here path scope node e) (hkeys : node.EveryKey PlainKey) :
    ∃ p, e.path.segments = path.segments ++ p ∧ ExpressionAt node p e.source := by
  -- Each level of the run puts one segment in front of the rest of the way, also that of a
  -- directive, whose body stands at its `$template` because nothing else is merged into it.
  induction h with
  | text hs => exact ⟨[], (List.append_nil _).symm, .inl ⟨_, .here, hs⟩⟩
  | item hi _ ih =>
    obtain ⟨q, hq, hat⟩ := ih (hkeys.item (List.mem_of_getElem? hi))
    exact ⟨_, by simp [hq, Path.index], hat.item hi⟩
  | key _ hk hkey =>
    exact ⟨[.field _], rfl, .inr ⟨[], _, _, _, _, rfl, .here, mem_of_uncommented hk, hkey⟩⟩
  | member _ hk _ ih =>
    have hmem := mem_of_uncommented hk
    obtain ⟨q, hq, hat⟩ := ih (hkeys.member hmem)
    exact ⟨_, by simp [hq, Path.field], hat.member hmem⟩
  | bindings _ hnode _ ih =>
    have hmem := Fields.mem_of_get? hnode
    obtain ⟨q, hq, hat⟩ := ih (hkeys.member hmem)
    exact ⟨_, by simp [hq, Path.field], hat.member hmem⟩
  | body hhas hdirective _ ih =>
    have hmem := Fields.mem_of_get?
      (get?_templateKey_of_directive (hkeys.get?_eq_none not_plainKey_extendKey) hhas hdirective)
    obtain ⟨q, hq, hat⟩ := ih (hkeys.member hmem)
    exact ⟨_, by simp [hq, Path.field], hat.member hmem⟩

end Stencil.Template

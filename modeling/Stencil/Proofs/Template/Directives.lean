import Stencil.Builtin
import Stencil.Json.Equality
import Stencil.Proofs.Template.Calls
import Stencil.Proofs.Template.Documents

/-!
# Documents and directives

A document without `$files` is a directive at the root of a template. Compiling it and resolving it
as a value take different ways, and the body is one level further down in the second. But a level
more or less makes no difference as long as the levels do not run out, so that the two agree.
-/

namespace Stencil

/-- The expressions and nodes of a workspace, with so many levels left. -/
def Workspace.support (ws : Workspace) (depth : Nat) : Template.Support :=
  ⟨ws.engine, Template.resolve ws depth⟩

namespace Template

variable {ws : Workspace} {depth : Nat}

theorem eq_of_answers {α : Type} {f : Support → Result α}
    (hf : AsksNodes (Support.answer ws.modules) f)
    (hanswers : ∀ q, Avoids TemplateError.IsLimit ((ws.support depth).answer ws.modules q) →
      (ws.support (depth + 1)).answer ws.modules q = (ws.support depth).answer ws.modules q)
    (h : Avoids TemplateError.IsLimit (f (ws.support depth))) :
    f (ws.support (depth + 1)) = f (ws.support depth) := by
  obtain ⟨calls, hcalls, hdetermines⟩ := hf.exists_determines (ws.support depth)
  apply hdetermines
  intro c hc
  obtain ⟨hanswer, havoids⟩ := hcalls c hc
  rw [hanswers c.1 (hanswer ▸ havoids h), hanswer]

theorem answer_succ (depth : Nat) (q : Query)
    (h : Avoids TemplateError.IsLimit ((ws.support depth).answer ws.modules q)) :
    (ws.support (depth + 1)).answer ws.modules q = (ws.support depth).answer ws.modules q := by
  induction depth generalizing q with
  | zero =>
    cases q with
    | expression here path scope source => rfl
    | node here path scope v => exact absurd trivial (h _ rfl)
  | succ depth ih =>
    cases q with
    | expression here path scope source => rfl
    | node here path scope v =>
      exact eq_of_answers (asks_resolveNode (fun q => .call q) here path scope v) ih h

/-- What is computed from nodes and expressions is the same with one more level. -/
theorem eq_of_asks {α : Type} {f : Support → Result α}
    (hf : AsksNodes (Support.answer ws.modules) f)
    (h : Avoids TemplateError.IsLimit (f (ws.support depth))) :
    f (ws.support (depth + 1)) = f (ws.support depth) :=
  eq_of_answers hf (answer_succ depth) h

/-- The value of a directive. -/
def directiveValue (modules : Fields Module) (here : Trail) (path : Path) (scope : Scope)
    (members : Fields Value) (support : Support) : Result Value := do
  let (working, body) ← directive ⟨support.engine, modules⟩ support.resolve here path scope members
  support.resolve (here.part 1) (path.field templateKey) working body

theorem asks_directiveValue (modules : Fields Module) (here : Trail) (path : Path) (scope : Scope)
    (members : Fields Value) :
    AsksNodes (Support.answer modules) (directiveValue modules here path scope members) := by
  have hsupport (q : Query) : AsksNodes (Support.answer modules) fun support =>
      support.answer modules q := .call q
  apply Asks.bind (asks_directive hsupport here path scope members)
  exact fun opened => asks_resolve hsupport _ _ _ _

end Template

namespace Workspace

open Template

variable {ws : Workspace} {name text : String} {scope : Scope} {members : Fields Value}

theorem resolver_directive {depth : Nat} (hdepth : ws.engine.limit = depth + 1)
    (htemplate : members.has templateKey)
    (hkeys : ∀ key ∈ members.names, key ∈ [templateKey, scopeKey, extendKey, commentKey])
    (here : Trail) (path : Path) (node : Node) :
    ws.resolver here path scope (.object node members) =
      directiveValue ws.modules here path scope members (ws.support depth) := by
  rw [resolver, hdepth, resolve, resolveNode, if_pos htemplate, checkKeys_eq_ok.mpr hkeys]
  rfl

theorem compileMembers_directive (htemplate : members.has templateKey)
    (hkeys : ∀ key ∈ members.names, key ∈ [templateKey, scopeKey, extendKey, commentKey]) :
    ws.compileMembers name scope members = do
      let v ← directiveValue ws.modules [] .root scope members (ws.support ws.engine.limit)
      let json ← v.stripNulls.toJson.mapError fun kind =>
        .eval (Path.root.field templateKey) (.type (.toJson kind))
      return [(name, json)] := by
  have hfiles : members.get? filesKey = none := by
    rw [Fields.get?_eq_none_iff]
    exact fun h => absurd (hkeys _ h) (by decide)
  have hallowed (key : String) (hkey : key ∈ members.names) :
      key ∈ [templateKey, scopeKey, extendKey, filesKey, commentKey] := by
    have := hkeys key hkey
    simp only [List.mem_cons] at this ⊢
    tauto
  rw [compileMembers, checkKeys_eq_ok.mpr hallowed, hfiles]
  simp only [htemplate, documentOutputs, output, directiveValue, bind_assoc]
  rfl

/-- A document that is a directive alone has the outcome that it has as a template: the one output
is the document for the value, and a failure is the same at the same place. -/
theorem compileDocument_eq_resolveValue {fields : Fields Json}
    (htext : Json.ofText? text = some (.object fields)) (htemplate : fields.has templateKey)
    (hkeys : ∀ key ∈ fields.names, key ∈ [templateKey, scopeKey, extendKey, commentKey])
    (hlimit : Avoids TemplateError.IsLimit (ws.resolveValue (.ofJson (.object fields)) scope)) :
    ws.compileDocument name text scope = do
      let v ← ws.resolveValue (.ofJson (.object fields)) scope
      let json ← v.toJson.mapError fun kind =>
        .eval (Path.root.field templateKey) (.type (.toJson kind))
      return [(name, json)] := by
  have hmembers : (Value.ofJsonMembers fields).has templateKey := by
    rwa [Fields.has_eq_isSome, Value.get?_ofJsonMembers, Option.isSome_map]
  have hnames (key : String) (hkey : key ∈ (Value.ofJsonMembers fields).names) :
      key ∈ [templateKey, scopeKey, extendKey, commentKey] :=
    hkeys key (Value.names_ofJsonMembers fields ▸ hkey)
  rw [compileDocument, readObject_eq_ok.mpr ⟨fields, htext, rfl⟩]
  change ws.compileMembers name scope (Value.ofJsonMembers fields) = _
  rw [compileMembers_directive hmembers hnames]
  rw [resolveValue, Value.ofJson, Value.ofMembers] at hlimit ⊢
  cases hdepth : ws.engine.limit with
  | zero =>
    rw [resolver, hdepth] at hlimit
    exact absurd trivial (hlimit _ rfl)
  | succ depth =>
    rw [resolver_directive hdepth hmembers hnames] at hlimit ⊢
    rw [eq_of_asks (asks_directiveValue _ _ _ _ _)]
    · cases directiveValue ws.modules [] .root scope (Value.ofJsonMembers fields)
          (ws.support depth) <;> rfl
    · intro e he hP
      exact hlimit e (by rw [he]; rfl) hP

/-! A directive with bindings of its own over those of a module. -/

def layered : String :=
  "\x7b\"$comment\":0,\"$extend\":\"m\",\"$scope\":\x7b\"x\":\"\x7b\x7by + 1\x7d\x7d\"\x7d," ++
    "\"$template\":\x7b\"a\":\"\x7b\x7bx\x7d\x7d\"\x7d\x7d"

def layeredFields : Fields Json :=
  [("$comment", .integer 0), ("$extend", .string "m"),
    ("$scope", .object [("x", .string "\x7b\x7by + 1\x7d\x7d")]),
    ("$template", .object [("a", .string "\x7b\x7bx\x7d\x7d")])]

def layeredWorkspace : Workspace :=
  ⟨Engine.standard,
    [("m", ⟨"m", [("y", .integer 1)], some (.object none [("b", .array none [])]), 0⟩)]⟩

theorem toJson_resolveValue_layered :
    (layeredWorkspace.resolveValue (.ofJson (.object layeredFields)) []).map Value.toJson =
      .ok (.ok (.object [("a", .integer 2), ("b", .array [])])) := by
  decide +kernel

theorem compileDocument_layered :
    Json.ofText? layered = some (.object layeredFields) ∧
      layeredWorkspace.compileDocument "doc" layered [] =
        .ok [("doc", .object [("a", .integer 2), ("b", .array [])])] := by
  have htext : Json.ofText? layered = some (.object layeredFields) := by decide +kernel
  obtain ⟨v, hv, hjson⟩ := map_eq_ok.mp toJson_resolveValue_layered
  refine ⟨htext, ?_⟩
  rw [compileDocument_eq_resolveValue htext (by decide) (by decide) (hv ▸ .ok v), hv]
  change v.toJson.mapError _ >>= _ = _
  rw [hjson]
  rfl

end Workspace

end Stencil

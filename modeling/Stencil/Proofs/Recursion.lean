import Mathlib
import Stencil.Builtin
import Stencil.Json.Equality
import Stencil.Proofs.Template.Limit

/-!
# Recursion and the limit

Every expression, node and document comes to an outcome, by calls that go no deeper than the levels
that are left. A higher limit changes no outcome but the failure with the limit itself; and this
failure is the outcome where calls go on for ever, of a lambda in itself or of a module in itself.
-/

namespace Stencil

open Eval (Yields levelAt)
open Template (Resolves Compiles supportAt)

/-- What does not fail with the limit comes to the same under a higher one. -/
theorem same_outcome_of_higher_limit {limit limit' : Nat} (hlimit : limit ≤ limit')
    (modules : Fields Module) :
    (∀ here e scope,
      Avoids EvalError.IsLimit (Engine.evaluate ⟨.builtins, limit⟩ here e scope) →
      Engine.evaluate ⟨.builtins, limit'⟩ here e scope =
        Engine.evaluate ⟨.builtins, limit⟩ here e scope) ∧
    (∀ template scope,
      Avoids TemplateError.IsLimit
        (Workspace.resolveValue ⟨⟨.builtins, limit⟩, modules⟩ template scope) →
      Workspace.resolveValue ⟨⟨.builtins, limit'⟩, modules⟩ template scope =
        Workspace.resolveValue ⟨⟨.builtins, limit⟩, modules⟩ template scope) ∧
    (∀ name text scope,
      Avoids TemplateError.IsLimit
        (Workspace.compileDocument ⟨⟨.builtins, limit⟩, modules⟩ name text scope) →
      Workspace.compileDocument ⟨⟨.builtins, limit'⟩, modules⟩ name text scope =
        Workspace.compileDocument ⟨⟨.builtins, limit⟩, modules⟩ name text scope) := by
  have hr := Registry.asksCallbacks_builtins
  refine ⟨fun here e scope h => ?_, fun template scope h => ?_, fun name text scope h => ?_⟩
  · have htask : Avoids EvalError.IsLimit
        ((levelAt .builtins limit limit).answer (.evaluate here e scope)) := h
    exact Eval.answer_of_yields (Eval.yields_of_answer hr htask) limit' hlimit
  · have hnode : Avoids TemplateError.IsLimit
        ((supportAt .builtins modules limit limit).answer modules (.node [] .root scope template)) :=
      fun e he => h e (congrArg (Except.map Value.stripNulls) he)
    have hsame := Template.answer_of_resolves (Template.resolves_of_answer hr hnode) hlimit hlimit
    exact congrArg (Except.map Value.stripNulls) hsame
  · exact Template.compileDocument_of_compiles (Template.compiles_of_compileDocument hr h) hlimit

/-- A lambda in an object, called with 1. -/
def pairing : Expr :=
  .call (some (.object [("f", .lambda ["x"] (.array [.name "x", .name "x"]))])) "f" [.integer 1]

def pairingTemplate : String :=
  "\x7b\x7b\x7bf: x => [x, x]\x7d.f(1)\x7d\x7d"

def pairingDocument : String :=
  "\x7b\"$template\": \"" ++ pairingTemplate ++ "\"\x7d"

def pair : Value :=
  .array none [.integer 1, .integer 1]

theorem evaluate_pairing : Engine.evaluate ⟨.builtins, 4⟩ [] pairing [] = .ok pair := by
  rfl

theorem resolveValue_pairing :
    Workspace.resolveValue ⟨⟨.builtins, 4⟩, []⟩ (.string pairingTemplate) [] = .ok pair := by
  cbv

theorem compileDocument_pairing :
    Workspace.compileDocument ⟨⟨.builtins, 4⟩, []⟩ "doc" pairingDocument [] =
      .ok [("doc", .array [.integer 1, .integer 1])] := by
  decide +kernel

theorem same_outcome_of_pairing :
    Engine.evaluate Engine.standard [] pairing [] = .ok pair ∧
    Workspace.resolveValue ⟨Engine.standard, []⟩ (.string pairingTemplate) [] = .ok pair ∧
    Workspace.compileDocument ⟨Engine.standard, []⟩ "doc" pairingDocument [] =
      .ok [("doc", .array [.integer 1, .integer 1])] := by
  have hlimit : 4 ≤ Engine.defaultLimit := by decide
  obtain ⟨hexpression, hvalue, hdocument⟩ := same_outcome_of_higher_limit hlimit []
  refine ⟨(hexpression _ _ _ ?_).trans evaluate_pairing,
    (hvalue _ _ ?_).trans resolveValue_pairing,
    (hdocument _ _ _ ?_).trans compileDocument_pairing⟩
  · rw [evaluate_pairing]
    exact Avoids.ok _
  · rw [resolveValue_pairing]
    exact Avoids.ok _
  · rw [compileDocument_pairing]
    exact Avoids.ok _

/-- With so many levels left, each task, node and document has exactly the outcome that calls of at
most that depth lead to, and this is the limit if calls without a limit would have to go deeper. -/
theorem outcome_within_limit (limit : Nat) (modules : Fields Module) :
    (∀ left task,
      (∀ o, (levelAt .builtins limit left).answer task = o ↔
        Yields .builtins (some (.recursionLimit limit)) left task o) ∧
      ((levelAt .builtins limit left).answer task = .error (.recursionLimit limit) ↔
        ∀ o, ¬ Yields .builtins none left task o)) ∧
    (∀ left q,
      (∀ o, (supportAt .builtins modules limit left).answer modules q = o ↔
        Resolves .builtins modules limit (some (.recursionLimit limit)) left q o) ∧
      ((∃ path, (supportAt .builtins modules limit left).answer modules q =
          .error (.eval path (.recursionLimit limit))) ↔
        ∀ o, ¬ Resolves .builtins modules limit none left q o)) ∧
    (∀ name text scope,
      (∀ outcome,
        Workspace.compileDocument ⟨⟨.builtins, limit⟩, modules⟩ name text scope = outcome ↔
          Compiles .builtins modules limit (some (.recursionLimit limit)) name text scope outcome) ∧
      ((∃ path, Workspace.compileDocument ⟨⟨.builtins, limit⟩, modules⟩ name text scope =
          .error (.eval path (.recursionLimit limit))) ↔
        ∀ outcome, ¬ Compiles .builtins modules limit none name text scope outcome)) := by
  have hr := Registry.asksCallbacks_builtins
  refine ⟨fun left task => ⟨fun o => ?_, ?_⟩, fun left q => ⟨fun o => ?_, ?_⟩,
    fun name text scope => ⟨fun outcome => ?_, ?_⟩⟩
  · exact (Eval.yields_cutoff_iff hr).symm
  · exact Eval.answer_eq_limit_iff hr
  · exact (Template.resolves_cutoff_iff hr).symm
  · exact Template.answer_eq_limit_iff hr
  · exact (Template.compiles_cutoff_iff hr).symm
  · exact Template.compileDocument_eq_limit_iff hr

namespace Eval

/-- The calls `x.f(x)` and `x(x)`. -/
def memberCall : Expr :=
  .call (some (.name "x")) "f" [.name "x"]

def argumentCall : Expr :=
  .call none "x" [.name "x"]

/-- A call that comes back to itself if `x` has this value, by way of a member of an object or of an
argument alone. -/
inductive CallsItself : Expr → Value → Prop
  | throughMember {node origin captured} :
      CallsItself memberCall (.object node [("f", .lambda origin ["x"] memberCall captured)])
  | throughArgument {origin captured} :
      CallsItself argumentCall (.lambda origin ["x"] argumentCall captured)

/-- One level leads from the call to the same call in a scope with the same value. -/
theorem evaluate_of_callsItself (r : Registry) (limit depth : Nat) (here : Trail) {scope : Scope}
    {e : Expr} {v : Value} (h : CallsItself e v) (hscope : Scope.get? scope "x" = some v) :
    ∃ scope', Scope.get? scope' "x" = some v ∧
      evaluate r limit (depth + 2) here e scope =
        evaluate r limit (depth + 1) (here.round 0) e scope' := by
  cases h with
  | @throughMember node origin captured =>
    refine ⟨bindings ["x"] [_] :: captured, rfl, ?_⟩
    rw [evaluate, memberCall]
    simp only [Level.expression, Level.callOn, Level.all, evaluate_name hscope]
    rfl
  | @throughArgument origin captured =>
    refine ⟨bindings ["x"] [_] :: captured, rfl, ?_⟩
    rw [evaluate, argumentCall]
    simp only [Level.expression, Level.callNamed, Level.all, evaluate_name hscope, hscope]
    rfl

/-- Whatever the limit is, such a call fails with it. -/
theorem limit_of_callsItself (r : Registry) (limit depth : Nat) {here : Trail} {scope : Scope}
    {e : Expr} {v : Value} (h : CallsItself e v) (hscope : Scope.get? scope "x" = some v) :
    evaluate r limit depth here e scope = .error (.recursionLimit limit) := by
  match depth with
  | 0 => rfl
  | 1 => cases h <;> rfl
  | depth + 2 =>
    obtain ⟨scope', hscope', heq⟩ := evaluate_of_callsItself r limit depth here h hscope
    rw [heq]
    exact limit_of_callsItself r limit (depth + 1) h hscope'

end Eval

namespace Template

/-- A directive that extends `m` and has nothing of its own. -/
def extension : Fields Value :=
  [("$extend", .string "m"), ("$template", .object none [])]

/-- The template of `m`, in which a directive extends `m`. -/
def selfExtension : Value :=
  .object none [("a", .object none extension)]

/-- A workspace with such a module `m`. -/
def selfExtending (r : Registry) (limit : Nat) : Workspace :=
  ⟨⟨r, limit⟩, [("m", ⟨"m", [], some selfExtension, 0⟩)]⟩

variable {r : Registry} {limit : Nat} {here : Trail} {path : Path} {scope : Scope}

theorem directive_extension {resolve : Resolver} :
    directive (selfExtending r limit) resolve here path scope extension =
      .ok ([] :: scope, selfExtension) := by
  cbv

theorem resolve_extension (depth : Nat) :
    resolve (selfExtending r limit) (depth + 1) here path scope (.object none extension) =
      resolve (selfExtending r limit) depth (here.part 1) (path.field templateKey) ([] :: scope)
        selfExtension := by
  have hhas : Fields.has extension templateKey := by decide
  have hkeys : checkKeys path [templateKey, scopeKey, extendKey, commentKey] extension = .ok () := by
    rfl
  rw [resolve, resolveNode, if_pos hhas, hkeys, directive_extension]
  rfl

theorem resolve_selfExtension_of_error {depth : Nat} {e : TemplateError}
    (h : resolve (selfExtending r limit) depth (here.part 0) (path.field "a") scope
      (.object none extension) = .error e) :
    resolve (selfExtending r limit) (depth + 1) here path scope selfExtension = .error e := by
  have hkey : classify "a" = .literal := by decide +kernel
  have hmember : resolveMember (selfExtending r limit) (resolve (selfExtending r limit) depth) here
      0 (path.field "a") scope "a" (.object none extension) = .error e := by
    simp only [resolveMember, hkey, h]
    rfl
  change (resolveMember _ _ _ _ _ _ _ _ >>= _) >>= _ = _
  rw [hmember]
  rfl

/-- The template of `m` comes back to itself two levels further down. -/
theorem resolve_selfExtension (r : Registry) (limit depth : Nat) (here : Trail) (path : Path)
    (scope : Scope) :
    ∃ path', resolve (selfExtending r limit) depth here path scope selfExtension =
      .error (.eval path' (.recursionLimit limit)) := by
  match depth with
  | 0 => exact ⟨path, rfl⟩
  | 1 => exact ⟨path.field "a", resolve_selfExtension_of_error rfl⟩
  | depth + 2 =>
    obtain ⟨path', h⟩ := resolve_selfExtension r limit depth ((here.part 0).part 1)
      ((path.field "a").field templateKey) ([] :: scope)
    exact ⟨path', resolve_selfExtension_of_error ((resolve_extension depth).trans h)⟩

def extensionDocument : String :=
  "\x7b\"$extend\":\"m\",\"$template\":\x7b\x7d\x7d"

theorem readObject_extensionDocument (name : String) :
    readObject name extensionDocument = .ok extension := by
  have htext : Json.ofText? extensionDocument =
      some (.object [("$extend", .string "m"), ("$template", .object [])]) := by
    decide +kernel
  rw [readObject, htext]
  rfl

/-- Whatever the limit is, a document that extends such a module fails with it. -/
theorem limit_of_selfExtending (r : Registry) (limit : Nat) (name : String) (scope : Scope) :
    ∃ path, (selfExtending r limit).compileDocument name extensionDocument scope =
      .error (.eval path (.recursionLimit limit)) := by
  have hhas : Fields.has extension templateKey := by decide
  have hkeys : checkKeys .root [templateKey, scopeKey, extendKey, filesKey, commentKey] extension =
      .ok () := by rfl
  obtain ⟨path, h⟩ := resolve_selfExtension r limit limit (Trail.part [] 1)
    (Path.root.field templateKey) ([] :: scope)
  have houtput : output (selfExtending r limit).resolver (Trail.part [] 1)
      (Path.root.field templateKey) ([] :: scope) selfExtension =
        .error (.eval path (.recursionLimit limit)) := by
    change (resolve (selfExtending r limit) limit _ _ _ _ >>= _) = _
    rw [h]
    rfl
  have hmembers : (selfExtending r limit).compileMembers name scope extension =
      .error (.eval path (.recursionLimit limit)) := by
    rw [Workspace.compileMembers, hkeys]
    simp only [hhas, directive_extension]
    change (output _ _ _ _ _ >>= _) = _
    rw [houtput]
    rfl
  refine ⟨path, ?_⟩
  rw [Workspace.compileDocument, readObject_extensionDocument]
  exact hmembers

end Template

end Stencil

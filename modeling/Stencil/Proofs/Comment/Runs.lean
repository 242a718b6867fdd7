import Mathlib
import Stencil.Builtin
import Stencil.Json.Equality
import Stencil.Proofs.Comment.Resolving
import Stencil.Proofs.Template.Documents

/-!
# Runs with and without comments

Modules are loaded one after another and then a document is compiled. Without its comments a run
comes to the same, unless it meets an expansion that a comment hides or fails at a comment.
-/

namespace Stencil

open Template

namespace Template

variable {resolve' resolve : Resolver} {here : Trail} {path : Path} {scope : Scope}

theorem output_stripComments {body : Value} (hbody : IgnoresComments resolve' resolve body) :
    Agree (output resolve' here path scope body.stripComments)
      (output resolve here path scope body) :=
  .bind_same (hbody here path scope) fun _ _ => .refl _ _

theorem filesOf_stripComments (path : Path) (node : Value) :
    filesOf path node.stripComments =
      (fun r => (r.1.stripComments, r.2.stripComments)) <$> filesOf path node := by
  cases node with
  | object mark members =>
    have harray : "array" ≠ commentKey := by decide
    have hfileName : "fileName" ≠ commentKey := by decide
    rw [Value.stripComments, filesOf, filesOf, Value.get?_stripCommentMembers harray,
      Value.get?_stripCommentMembers hfileName]
    cases Fields.get? members "array" with
    | none => rfl
    | some array => cases Fields.get? members "fileName" <;> rfl
  | _ => rfl

theorem fanOut_stripComments {fileName body : Value}
    (hfileName : IgnoresComments resolve' resolve fileName)
    (hbody : IgnoresComments resolve' resolve body) (outputs : Fields Json) (i : Nat)
    (items : List Value) :
    Agree (fanOut resolve' scope fileName.stripComments body.stripComments outputs i items)
      (fanOut resolve scope fileName body outputs i items) := by
  induction items generalizing outputs i with
  | nil => exact .refl _ _
  | cons v vs ih =>
    apply AgreeUnless.bind_same (hfileName _ _ _)
    intro name _
    apply AgreeUnless.bind_same (output_stripComments hbody)
    intro json _
    by_cases hname : outputs.has name.text
    · rw [if_pos hname, if_pos hname]
      exact .refl _ _
    · rw [if_neg hname, if_neg hname]
      exact ih _ _

theorem documentOutputs_stripComments {name : String} {body : Value} {files : Option Value}
    (hbody : IgnoresComments resolve' resolve body)
    (hfiles : ∀ node path array fileName, files = some node →
      filesOf path node = .ok (array, fileName) →
      IgnoresComments resolve' resolve array ∧ IgnoresComments resolve' resolve fileName) :
    Agree (documentOutputs resolve' name scope body.stripComments (files.map Value.stripComments))
      (documentOutputs resolve name scope body files) := by
  cases files with
  | none => exact .bind_same (output_stripComments hbody) fun _ _ => .refl _ _
  | some node =>
    rw [Option.map_some, documentOutputs, documentOutputs, filesOf_stripComments]
    apply AgreeUnless.bind (.refl _ _)
    intro r hr
    rcases hfiles node _ r.1 r.2 rfl hr with ⟨harray, hfileName⟩
    have hitems : Agree
        (filesItems resolve' (Trail.part [] 2) ((Path.root.field filesKey).field "array") scope
          r.1.stripComments)
        (filesItems resolve (Trail.part [] 2) ((Path.root.field filesKey).field "array") scope r.1) :=
      .bind_same (harray _ _ _) fun _ _ => .refl _ _
    exact .bind_same hitems fun items _ => fanOut_stripComments hfileName hbody [] 0 items

/-- A text and the same text without comments. -/
def Uncomments (text' text : String) : Prop :=
  Json.ofText? text' = (Json.ofText? text).map Json.stripComments

theorem readObject_of_uncomments {name text text' : String} (h : Uncomments text' text) :
    readObject name text' = Value.stripCommentMembers <$> readObject name text := by
  rw [readObject, readObject, h]
  cases Json.ofText? text with
  | none => rfl
  | some json =>
    rw [Option.map_some]
    simp only [Value.ofJson_stripComments]
    cases Value.ofJson json <;> rfl

end Template

namespace Workspace

theorem moduleName_stripComments (members : Fields Value) :
    moduleName (Value.stripCommentMembers members) = moduleName members := by
  have hmodule : moduleKey ≠ commentKey := by decide
  rw [moduleName, moduleName, Value.get?_stripCommentMembers hmodule]
  cases members.get? moduleKey with
  | none => rfl
  | some v => cases v <;> rfl

theorem readModule_stripComments {ws : Workspace} {scope : Scope} {members : Fields Value}
    (hscope : ∀ v, members.get? scopeKey = some v → ¬ MeetsHidden ws v) :
    Agree (ws.stripComments.readModule scope (Value.stripCommentMembers members))
      (Module.stripComments <$> ws.readModule scope members) := by
  rw [readModule, readModule, checkKeys_stripComments (by simp), map_bind]
  apply AgreeUnless.bind_same (.refl _ _)
  intro _ _
  rw [moduleName_stripComments, map_bind]
  apply AgreeUnless.bind_same (.refl _ _)
  intro name _
  have hmodule : ws.stripComments.module? name = (ws.module? name).map Module.stripComments :=
    Fields.get?_map _ _ _
  have hedition : (ws.stripComments.module? name).elim 0 (·.edition + 1) =
      (ws.module? name).elim 0 (·.edition + 1) := by
    rw [hmodule]
    cases ws.module? name <;> rfl
  simp only [hedition, Value.get?_stripCommentMembers scopeKey_ne_commentKey,
    Value.get?_stripCommentMembers templateKey_ne_commentKey]
  cases hget : members.get? scopeKey with
  | none => exact .refl _ _
  | some v =>
    simp only [Option.map_some, map_bind]
    refine .bind_same ?_ fun bindings _ => .refl _ _
    exact .bind_same (resolve_stripComments (hscope v hget) _ _ _) fun _ _ => .refl _ _

theorem loadModule_stripComments {ws : Workspace} {text text' : String} {scope : Scope}
    (htext : Uncomments text' text)
    (hscope : ∀ members v, Template.readModule text = .ok members →
      members.get? scopeKey = some v → ¬ MeetsHidden ws v) :
    Agree (ws.stripComments.loadModule text' scope)
      ((fun r => (r.1.stripComments, r.2.stripComments)) <$> ws.loadModule text scope) := by
  rw [loadModule, loadModule, Template.readModule, Template.readModule,
    readObject_of_uncomments htext, map_bind]
  apply AgreeUnless.bind (.refl _ _)
  intro members hmembers
  rw [map_bind]
  apply AgreeUnless.bind (readModule_stripComments fun v => hscope members v hmembers)
  intro m _
  have hinsert : ws.stripComments.modules.insert m.name m.stripComments =
      (ws.modules.insert m.name m).map fun m => (m.1, m.2.stripComments) :=
    Fields.insert_map _ _ _ _
  refine .inl ?_
  change Except.ok (m.stripComments, { ws.stripComments with
    modules := ws.stripComments.modules.insert m.name m.stripComments }) = _
  rw [hinsert]
  rfl

theorem compileDocument_stripComments {ws : Workspace} {name text text' : String} {scope : Scope}
    (htext : Uncomments text' text)
    (hdocument : ∀ members, readObject name text = .ok members →
      ¬ MeetsHidden ws (.ofMembers members))
    (hfiles : ∀ members node path array fileName, readObject name text = .ok members →
      members.get? filesKey = some node → filesOf path node = .ok (array, fileName) →
      ¬ MeetsHidden ws array ∧ ¬ MeetsHidden ws fileName) :
    Agree (ws.stripComments.compileDocument name text' scope)
      (ws.compileDocument name text scope) := by
  have hfilesKey : filesKey ≠ commentKey := by decide
  rw [compileDocument, compileDocument, readObject_of_uncomments htext]
  apply AgreeUnless.bind (.refl _ _)
  intro members hmembers
  rw [compileMembers, compileMembers, checkKeys_stripComments (by simp),
    Value.has_stripCommentMembers templateKey_ne_commentKey,
    Value.get?_stripCommentMembers hfilesKey]
  apply AgreeUnless.bind_same (.refl _ _)
  intro _ _
  by_cases hhas : Fields.has members templateKey
  · simp only [hhas, Bool.not_true, Bool.false_eq_true, if_false]
    have hnode := hdocument members hmembers
    have hdirective : Agree
        (directive ws.stripComments ws.stripComments.resolver [] .root scope
          (Value.stripCommentMembers members))
        ((fun r => (r.1, r.2.stripComments)) <$>
          directive ws ws.resolver [] .root scope members) :=
      directive_stripComments fun v hget =>
        resolve_stripComments fun h => hnode (.scope hhas hget h)
    apply AgreeUnless.bind hdirective
    intro r hr
    have hbody : ¬ MeetsHidden ws r.2 :=
      fun h => hnode (.body hhas (mergedBody_of_directive hr) h)
    refine documentOutputs_stripComments (resolve_stripComments hbody) ?_
    intro node path array fileName hget hfilesOf
    rcases hfiles members node path array fileName hmembers hget hfilesOf with ⟨harray, hfileName⟩
    exact ⟨resolve_stripComments harray, resolve_stripComments hfileName⟩
  · simp only [hhas, Bool.not_false, if_true]
    exact .refl _ _

/-- Loads sources one after another, each with a scope of its own, and compiles a document. -/
def run (name text : String) (scope : Scope) :
    (ws : Workspace) → (sources : List (String × Scope)) → Result (Fields Json)
  | ws, [] => ws.compileDocument name text scope
  | ws, (source, scope') :: sources => do
    let (_, ws) ← ws.loadModule source scope'
    run name text scope ws sources

/-- Among the nodes that a run can come to is an array in which a comment hides an expansion. -/
inductive RunMeetsHidden (name text : String) : Workspace → List (String × Scope) → Prop
  | bindings {ws source scope sources members v} : Template.readModule source = .ok members →
      members.get? scopeKey = some v → MeetsHidden ws v →
      RunMeetsHidden name text ws ((source, scope) :: sources)
  | later {ws source scope sources r} : ws.loadModule source scope = .ok r →
      RunMeetsHidden name text r.2 sources →
      RunMeetsHidden name text ws ((source, scope) :: sources)
  | document {ws members} : readObject name text = .ok members →
      MeetsHidden ws (.ofMembers members) → RunMeetsHidden name text ws []
  | files {ws members node path array fileName} : readObject name text = .ok members →
      members.get? filesKey = some node → filesOf path node = .ok (array, fileName) →
      MeetsHidden ws array ∨ MeetsHidden ws fileName → RunMeetsHidden name text ws []

theorem run_stripComments {ws : Workspace} {name text text' : String} {scope : Scope}
    {sources sources' : List (String × Scope)} (htext : Uncomments text' text)
    (hsources : List.Forall₂ (fun s' s => Uncomments s'.1 s.1 ∧ s'.2 = s.2) sources' sources)
    (hplain : ¬ RunMeetsHidden name text ws sources) :
    Agree (run name text' scope ws.stripComments sources') (run name text scope ws sources) := by
  induction hsources generalizing ws with
  | nil =>
    apply compileDocument_stripComments htext
    · exact fun members hmembers h => hplain (.document hmembers h)
    · intro members node path array fileName hmembers hget hfiles
      exact ⟨fun h => hplain (.files hmembers hget hfiles (.inl h)),
        fun h => hplain (.files hmembers hget hfiles (.inr h))⟩
  | @cons s' s sources' sources hsource _ ih =>
    rcases s' with ⟨source', scope'⟩
    rcases s with ⟨source, scope''⟩
    rcases hsource with ⟨huncomments, rfl⟩
    have hload : Agree (ws.stripComments.loadModule source' scope')
        ((fun r => (r.1.stripComments, r.2.stripComments)) <$> ws.loadModule source scope') :=
      loadModule_stripComments huncomments fun members v hmembers hget h =>
        hplain (.bindings hmembers hget h)
    exact .bind hload fun r hr => ih fun h => hplain (.later hr h)

/-- Comments make no difference to a run, but for those that hide an expansion and those that do
not merge. -/
theorem comments_of_run {engine : Engine} {name text text' : String} {scope : Scope}
    {sources sources' : List (String × Scope)} (htext : Uncomments text' text)
    (hsources : List.Forall₂ (fun s' s => Uncomments s'.1 s.1 ∧ s'.2 = s.2) sources' sources)
    (hplain : ¬ RunMeetsHidden name text (empty engine) sources) :
    Agree (run name text' scope (empty engine) sources')
      (run name text scope (empty engine) sources) :=
  run_stripComments htext hsources hplain

def commentedModule : String :=
  "\x7b\"$module\": \"m\", \"$comment\": 1, \"$template\": \x7b\"$comment\": [2], \"b\": 3\x7d\x7d"

def uncommentedModule : String :=
  "\x7b\"$module\": \"m\", \"$template\": \x7b\"b\": 3\x7d\x7d"

def commentedDocument : String :=
  "\x7b\"$extend\": \"m\", \"$template\": \x7b\"$comment\": \"c\", \"a\": 4\x7d\x7d"

def uncommentedDocument : String :=
  "\x7b\"$extend\": \"m\", \"$template\": \x7b\"a\": 4\x7d\x7d"

def moduleMembers : Fields Value :=
  [("$module", .string "m"), ("$comment", .integer 1),
    ("$template", .object none [("$comment", .array none [.integer 2]), ("b", .integer 3)])]

def loadedModule : Module :=
  ⟨"m", [], some (.object none [("$comment", .array none [.integer 2]), ("b", .integer 3)]), 0⟩

def documentMembers : Fields Value :=
  [("$extend", .string "m"),
    ("$template", .object none [("$comment", .string "c"), ("a", .integer 4)])]

/-- The template of the document with that of the module merged into it. -/
def documentBody : Fields Value :=
  [("$comment", .array none [.string "c", .integer 2]), ("a", .integer 4), ("b", .integer 3)]

theorem readModule_commentedModule : Template.readModule commentedModule = .ok moduleMembers := by
  cbv

theorem loadModule_commentedModule :
    (empty Engine.standard).loadModule commentedModule [] =
      .ok (loadedModule, ⟨Engine.standard, [("m", loadedModule)]⟩) := by
  cbv

theorem readObject_commentedDocument :
    readObject "doc" commentedDocument = .ok documentMembers := by
  cbv

theorem mergedBody_documentMembers (path : Path) :
    mergedBody ⟨Engine.standard, [("m", loadedModule)]⟩ path documentMembers =
      .ok (.object none documentBody) := by
  cbv

theorem not_meetsHidden_documentMembers :
    ¬ MeetsHidden ⟨Engine.standard, [("m", loadedModule)]⟩ (.ofMembers documentMembers) := by
  have hscope : Fields.get? documentMembers scopeKey = none := by cbv
  have hkept : uncommented documentBody = [("a", .integer 4), ("b", .integer 3)] := by cbv
  intro h
  cases h with
  | member hhas => exact absurd hhas (by decide +kernel)
  | scope _ hget => simp [hscope] at hget
  | body _ hbody h =>
    rw [mergedBody_documentMembers, Except.ok.injEq] at hbody
    rw [← hbody] at h
    cases h with
    | scope hhas => exact absurd hhas (by decide +kernel)
    | body hhas => exact absurd hhas (by decide +kernel)
    | member _ hm h =>
      rw [hkept, List.mem_cons, List.mem_singleton] at hm
      rcases hm with rfl | rfl
      · cases h
      · cases h

theorem comments_of_commentedDocument :
    Agree (run "doc" uncommentedDocument [] (empty Engine.standard) [(uncommentedModule, [])])
      (run "doc" commentedDocument [] (empty Engine.standard) [(commentedModule, [])]) := by
  apply comments_of_run
  · change Json.ofText? _ = _
    decide +kernel
  · refine .cons ⟨?_, rfl⟩ .nil
    change Json.ofText? _ = _
    decide +kernel
  · have hscope : Fields.get? moduleMembers scopeKey = none := by cbv
    have hfiles : Fields.get? documentMembers filesKey = none := by cbv
    intro h
    cases h with
    | bindings hread hget _ =>
      rw [readModule_commentedModule, Except.ok.injEq] at hread
      rw [← hread, hscope] at hget
      simp at hget
    | later hload h =>
      rw [loadModule_commentedModule, Except.ok.injEq] at hload
      rw [← hload] at h
      cases h with
      | document hread h =>
        rw [readObject_commentedDocument, Except.ok.injEq] at hread
        rw [← hread] at h
        exact not_meetsHidden_documentMembers h
      | files hread hget =>
        rw [readObject_commentedDocument, Except.ok.injEq] at hread
        rw [← hread, hfiles] at hget
        simp at hget

/-- Without its comment the item is repeated. -/
example :
    let item := "\"\x7b\x7b#0..1\x7d\x7d\": \x7b\"a\": 2\x7d\x7d"
    run "doc" ("\x7b\"$template\": [\x7b\"$comment\": 1, " ++ item ++ "]\x7d") []
        (empty Engine.standard) [] = .ok [("doc", .array [.object [("a", .integer 2)]])] ∧
      run "doc" ("\x7b\"$template\": [\x7b" ++ item ++ "]\x7d") [] (empty Engine.standard) [] =
        .ok [("doc", .array [.object [("a", .integer 2)], .object [("a", .integer 2)]])] := by
  decide +kernel

/-- Two comments that do not merge. -/
example :
    run "doc" commentedDocument [] (empty Engine.standard)
        [("\x7b\"$module\": \"m\", \"$template\": \x7b\"$comment\": \x7b\x7d\x7d\x7d", [])] =
      .error (.eval (Path.root.field templateKey)
        (.mergeConflict ⟨Path.root.field commentKey, .kinds .object .string⟩)) := by
  decide +kernel

end Workspace

end Stencil

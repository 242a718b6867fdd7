import Stencil.Proofs.Success
import Stencil.Proofs.Value.Induction
import Stencil.Template.Workspace

/-!
# Compiling a document, step by step

A document that compiles is an object, has a scope and a body, and makes its outputs of them. An
output is what the body resolves to, without nulls, as JSON.
-/

namespace Stencil

namespace Template

theorem readObject_eq_ok {name text : String} {members : Fields Value} :
    readObject name text = .ok members ↔
      ∃ fields, Json.ofText? text = some (.object fields) ∧
        Value.ofJsonMembers fields = members := by
  rw [readObject]
  cases Json.ofText? text with
  | none => simp
  | some json =>
    cases json <;> simp [Value.ofJson, Value.ofItems, Value.ofMembers]

theorem checkKeys_eq_ok {path : Path} {allowed : List String} {members : Fields Value} :
    checkKeys path allowed members = .ok () ↔ ∀ key ∈ members.names, key ∈ allowed := by
  have hfind : members.names.find? (!allowed.contains ·) = none ↔
      ∀ key ∈ members.names, key ∈ allowed := by
    simp [List.find?_eq_none]
  rw [checkKeys, ← hfind]
  cases members.names.find? (!allowed.contains ·) <;> simp

theorem output_eq_ok {resolve : Resolver} {here : Trail} {path : Path} {scope : Scope}
    {body : Value} {json : Json} :
    output resolve here path scope body = .ok json ↔
      ∃ v, resolve here path scope body = .ok v ∧ v.stripNulls.toJson = .ok json := by
  simp [output]

theorem documentOutputs_none {resolve : Resolver} {name : String} {scope : Scope} {body : Value}
    {outputs : Fields Json} :
    documentOutputs resolve name scope body none = .ok outputs ↔
      ∃ v json, resolve (Trail.part [] 1) (Path.root.field templateKey) scope body = .ok v ∧
        v.stripNulls.toJson = .ok json ∧ outputs = [(name, json)] := by
  simp only [documentOutputs, bind_eq_ok, pure_eq_ok, output_eq_ok]
  constructor
  · rintro ⟨json, ⟨v, hv, hjson⟩, rfl⟩
    exact ⟨v, json, hv, hjson, rfl⟩
  · rintro ⟨v, json, hv, hjson, rfl⟩
    exact ⟨json, ⟨v, hv, hjson⟩, rfl⟩

end Template

namespace Workspace

open Template

/-- The scope and the body that a document comes to. -/
def Opens (ws : Workspace) (text : String) (scope : Scope) (fields : Fields Json)
    (working : Scope) (body : Value) : Prop :=
  Json.ofText? text = some (.object fields) ∧
    directive ws ws.resolver [] .root scope (Value.ofJsonMembers fields) = .ok (working, body)

theorem compileDocument_eq_ok {ws : Workspace} {name text : String} {scope : Scope}
    {outputs : Fields Json} (h : ws.compileDocument name text scope = .ok outputs) :
    ∃ fields working body, ws.Opens text scope fields working body ∧
      documentOutputs ws.resolver name working body
        ((Value.ofJsonMembers fields).get? filesKey) = .ok outputs := by
  simp only [compileDocument, bind_eq_ok] at h
  obtain ⟨members, hread, h⟩ := h
  obtain ⟨fields, htext, rfl⟩ := readObject_eq_ok.mp hread
  simp only [compileMembers, bind_eq_ok] at h
  obtain ⟨-, -, h⟩ := h
  split at h
  · simp at h
  · obtain ⟨⟨working, body⟩, hdirective, h⟩ := bind_eq_ok.mp h
    exact ⟨fields, working, body, ⟨htext, hdirective⟩, h⟩

end Workspace

end Stencil

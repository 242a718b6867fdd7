import Stencil.Json.Reader
import Stencil.Template.Resolve
import Stencil.Value.Json

/-!
# Documents and modules

A workspace loads modules from text and turns documents into outputs.
-/

namespace Stencil

namespace Template

/-- The members of the object that a text writes. -/
def readObject (name text : String) : Result (Fields Value) :=
  match Json.ofText? text with
  | none => .error (.json name)
  | some json =>
    match Value.ofJson json with
    | .object _ members => .ok members
    | v => .error (.invalid .root (.notAnObject v.kind))

/-- The members of a module's source. -/
def readModule (text : String) : Result (Fields Value) :=
  readObject "module" text

/-- A body resolved, without nulls, as JSON. -/
def output (resolve : Resolver) (here : Trail) (path : Path) (scope : Scope) (body : Value) :
    Result Json := do
  let v ← resolve here path scope body
  v.stripNulls.toJson.mapError fun kind => .eval path (.type (.toJson kind))

/-- The array and the file name of `$files`. -/
def filesOf (path : Path) : Value → Result (Value × Value)
  | .object _ members =>
    match Fields.get? members "array", Fields.get? members "fileName" with
    | some array, some fileName => .ok (array, fileName)
    | _, _ => .error (.invalid path .filesKeys)
  | _ => .error (.invalid path .filesShape)

def filesItems (resolve : Resolver) (here : Trail) (path : Path) (scope : Scope) (array : Value) :
    Result (List Value) := do
  match ← resolve here path scope array with
  | .array _ items => return items
  | v => .error (.invalid path (.filesArray v.kind))

/-- Adds an output for each item to those there are; the first item has the number `i`. -/
def fanOut (resolve : Resolver) (scope : Scope) (fileName body : Value) (outputs : Fields Json) :
    (i : Nat) → List Value → Result (Fields Json)
  | _, [] => .ok outputs
  | i, v :: vs => do
    let here := Trail.round [] i
    let scope' := roundBindings elementName i v :: scope
    let namePath := (Path.root.field filesKey).field "fileName"
    let name := (← resolve (here.part 3) namePath scope' fileName).text
    let json ← output resolve (here.part 1) (Path.root.field templateKey) scope' body
    if outputs.has name then .error (.invalid namePath (.duplicateOutput name))
    else fanOut resolve scope fileName body (outputs.insert name json) (i + 1) vs

/-- The outputs of a document with the working scope and the body of its directive. -/
def documentOutputs (resolve : Resolver) (name : String) (scope : Scope) (body : Value) :
    Option Value → Result (Fields Json)
  | none => do
    let json ← output resolve (Trail.part [] 1) (Path.root.field templateKey) scope body
    return [(name, json)]
  | some node => do
    let path := Path.root.field filesKey
    let (array, fileName) ← filesOf path node
    let items ← filesItems resolve (Trail.part [] 2) (path.field "array") scope array
    fanOut resolve scope fileName body [] 0 items

end Template

namespace Workspace

open Template

def empty (engine : Engine) : Workspace :=
  ⟨engine, []⟩

def module? (ws : Workspace) (name : String) : Option Module :=
  ws.modules.get? name

/-- Resolves nodes from the first level on. -/
def resolver (ws : Workspace) : Resolver :=
  resolve ws ws.engine.limit

def compileMembers (ws : Workspace) (name : String) (scope : Scope) (members : Fields Value) :
    Result (Fields Json) := do
  checkKeys .root [templateKey, scopeKey, extendKey, filesKey, commentKey] members
  if !members.has templateKey then .error (.invalid .root (.missing templateKey))
  else
    let (working, body) ← directive ws ws.resolver [] .root scope members
    documentOutputs ws.resolver name working body (members.get? filesKey)

/-- The outputs of a document: one under its own name, or one for each element of `$files`. -/
def compileDocument (ws : Workspace) (name text : String) (scope : Scope) :
    Result (Fields Json) := do
  ws.compileMembers name scope (← readObject name text)

/-- A template outside any document, resolved and without nulls. -/
def resolveValue (ws : Workspace) (template : Value) (scope : Scope) : Result Value :=
  (ws.resolver [] .root scope template).map Value.stripNulls

def moduleName (members : Fields Value) : Result String :=
  match members.get? moduleKey with
  | some (.string name) =>
    if name.isEmpty then .error (.invalid (Path.root.field moduleKey) .moduleName) else .ok name
  | some _ => .error (.invalid (Path.root.field moduleKey) .moduleName)
  | none => .error (.invalid .root (.missing moduleKey))

/-- The module that a source describes. Its bindings are resolved once, here. -/
def readModule (ws : Workspace) (scope : Scope) (members : Fields Value) : Result Module := do
  checkKeys .root [moduleKey, scopeKey, templateKey, commentKey] members
  let name ← moduleName members
  let edition := (ws.module? name).elim 0 (·.edition + 1)
  let bindings ← match members.get? scopeKey with
    | some node =>
      resolveBindings ws.resolver [.load name edition] (Path.root.field scopeKey) scope node
    | none => pure []
  return ⟨name, bindings, members.get? templateKey, edition⟩

/-- Loads a module in place of an earlier one of its name. -/
def loadModule (ws : Workspace) (text : String) (scope : Scope) : Result (Module × Workspace) := do
  let m ← ws.readModule scope (← Template.readModule text)
  return (m, { ws with modules := ws.modules.insert m.name m })

end Workspace

end Stencil

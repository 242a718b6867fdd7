import Stencil.Eval.Basic
import Stencil.Template.Error
import Stencil.Template.Key

/-!
# Resolving templates

A template is a value with expressions in its texts and keys. Resolving puts the values of the
expressions in their places. An object with a `$template` is a directive: it has bindings of its
own and can extend modules, whose templates are merged under its own.
-/

namespace Stencil

/-- What a module gives to the templates that extend it. -/
structure Module where
  name : String
  scope : Fields Value
  template : Option Value
  /-- The number of modules of this name that were loaded before. -/
  edition : Nat

/-- Modules by name, and what their templates are evaluated with. -/
structure Workspace where
  engine : Engine
  modules : Fields Module

namespace Template

def templateKey : String := "$template"
def scopeKey : String := "$scope"
def extendKey : String := "$extend"
def filesKey : String := "$files"
def moduleKey : String := "$module"

abbrev Result (α : Type) := Except TemplateError α

/-- Resolves a node at a place in the run and in the document. -/
abbrev Resolver := Trail → Path → Scope → Value → Result Value

def evaluate (ws : Workspace) (here : Trail) (path : Path) (scope : Scope) (source : String) :
    Result Value :=
  (ws.engine.run here source scope).mapError (.eval path)

def mergeAt (path : Path) (template parent : Value) : Result Value :=
  (template.merge parent).mapError fun conflict => .eval path (.mergeConflict conflict)

def checkKeys (path : Path) (allowed : List String) (members : Fields Value) : Result Unit :=
  match members.names.find? (!allowed.contains ·) with
  | some key => .error (.invalid (path.field key) (.unexpectedKey key))
  | none => .ok ()

/-- The names in `$extend`. -/
def extendedNames (path : Path) : Option Value → Result (List String)
  | none => .ok []
  | some (.string name) => .ok [name]
  | some (.array _ items) =>
    items.mapM fun
      | .string name => .ok name
      | _ => .error (.invalid path .extendEntry)
  | some v => .error (.invalid path (.extend v.kind))

def extendedModules (ws : Workspace) (path : Path) (node : Option Value) :
    Result (List Module) := do
  (← extendedNames path node).mapM fun name =>
    match ws.modules.get? name with
    | some m => .ok m
    | none => .error (.eval path (.moduleNotFound name))

/-- The bindings of modules, of which the first one's win. -/
def inheritedBindings (path : Path) (modules : List Module) : Result (Fields Value) := do
  let merged ← modules.foldlM (fun b m => mergeAt path b (.ofMembers m.scope)) (.ofMembers [])
  match merged with
  | .object _ members => return members
  | _ => return []

def resolveBindings (resolve : Resolver) (here : Trail) (path : Path) (scope : Scope)
    (node : Value) : Result (Fields Value) := do
  match ← resolve here path scope node with
  | .object _ members => return members
  | v => .error (.invalid path (.scope v.kind))

/-- A deleted name that merging has removed, bound to null: it still hides outer bindings. -/
def keepDeleted (own bindings : Fields Value) : Fields Value :=
  own.foldl (fun bindings (name, v) =>
    if v.isDeletion && !bindings.has name then bindings.insert name .null else bindings) bindings

/-- Own bindings over inherited ones. -/
def combinedBindings (path : Path) (own inherited : Fields Value) : Result (Fields Value) := do
  match ← mergeAt path (.ofMembers own) (.ofMembers inherited) with
  | .object _ members => return keepDeleted own members
  | _ => return []

/-- The bindings of a directive. Its own are resolved over the inherited ones. -/
def directiveBindings (resolve : Resolver) (here : Trail) (path : Path) (scope : Scope)
    (inherited : Fields Value) : Option Value → Result (Fields Value)
  | none => .ok inherited
  | some node => do
    let own ← resolveBindings resolve here path (inherited :: scope) node
    combinedBindings path own inherited

/-- The scope of a directive, and its body with the templates of its modules merged into it. -/
def directive (ws : Workspace) (resolve : Resolver) (here : Trail) (path : Path) (scope : Scope)
    (members : Fields Value) : Result (Scope × Value) := do
  let modules ← extendedModules ws (path.field extendKey) (members.get? extendKey)
  let inherited ← inheritedBindings (path.field extendKey) modules
  let bindings ← directiveBindings resolve (here.part 0) (path.field scopeKey) scope inherited
    (members.get? scopeKey)
  let body ← (modules.filterMap (·.template)).foldlM (mergeAt (path.field templateKey))
    ((members.get? templateKey).getD .null)
  return (bindings :: scope, body)

/-- The layer of one round of an iteration. -/
def roundBindings (name : String) (i : Nat) (v : Value) : Fields Value :=
  Fields.insert [(indexName, .integer (Int64.ofNat i))] name v

/-- The body of the member with the number `k`, resolved for each item; the first item has the
number `i`. -/
def rounds (resolve : Resolver) (here : Trail) (k : Nat) (path : Path) (scope : Scope)
    (name : String) (body : Value) : (i : Nat) → List Value → Result (List Value)
  | _, [] => .ok []
  | i, v :: vs => do
    let result ← resolve ((here.round i).part k) (path.index i) (roundBindings name i v :: scope) body
    return result :: (← rounds resolve here k path scope name body (i + 1) vs)

/-- The body of a member, resolved once for each element of the array that a source evaluates to. -/
def iterate (ws : Workspace) (resolve : Resolver) (here : Trail) (k : Nat) (path : Path)
    (scope : Scope) (source name : String) (body : Value) : Result (List Value) := do
  match ← evaluate ws (here.key k) path scope source with
  | .array _ items => rounds resolve here k path scope name body 0 items
  | v => .error (.eval path (.type (.iterate v.kind)))

/-- The body of a member, resolved if the condition holds. -/
def choose (ws : Workspace) (resolve : Resolver) (here : Trail) (k : Nat) (path : Path)
    (scope : Scope) (source : String) (body : Value) : Result (List Value) := do
  let test ← evaluate ws (here.key k) path scope source
  if test.truthy then return [← resolve (here.part k) path scope body] else return []

/-- What a member with an iteration or a condition for a key expands to. -/
def expand (ws : Workspace) (resolve : Resolver) (here : Trail) (k : Nat) (path : Path)
    (scope : Scope) (body : Value) : Key → Option (Result (List Value))
  | .iteration source name => some (iterate ws resolve here k path scope source name body)
  | .conditional source => some (choose ws resolve here k path scope source body)
  | _ => none

/-- What an item expands to, if it is an object with one member that does. -/
def expandItem (ws : Workspace) (resolve : Resolver) (here : Trail) (path : Path) (scope : Scope) :
    Value → Option (Result (List Value))
  | .object _ [(key, body)] => expand ws resolve here 0 (path.field key) scope body (classify key)
  | _ => none

/-- An expansion that is an array stands for its items. -/
def spliced : Value → List Value
  | .array _ items => items
  | v => [v]

/-- The elements that an item contributes to its array. -/
def resolveItem (ws : Workspace) (resolve : Resolver) (here : Trail) (path : Path) (scope : Scope)
    (item : Value) : Result (List Value) :=
  match expandItem ws resolve here path scope item with
  | some expansions => expansions.map (·.flatMap spliced)
  | none => (resolve here path scope item).map ([·])

def resolveItems (ws : Workspace) (resolve : Resolver) (here : Trail) (path : Path)
    (scope : Scope) : (i : Nat) → List Value → Result (List Value)
  | _, [] => .ok []
  | i, item :: items => do
    let elements ← resolveItem ws resolve (here.part i) (path.index i) scope item
    return elements ++ (← resolveItems ws resolve here path scope (i + 1) items)

/-- What the members of an object come to: members of its own, and expansions to be merged. -/
structure Pieces where
  own : List (String × Value)
  expansions : List (Path × Value)

def Pieces.append (a b : Pieces) : Pieces :=
  ⟨a.own ++ b.own, a.expansions ++ b.expansions⟩

/-- The name that the expression in a key gives to its member. -/
def computedName (ws : Workspace) (here : Trail) (path : Path) (scope : Scope) (source : String) :
    Result String := do
  let name ← evaluate ws here path scope source
  if name.isCallable then .error (.eval path (.type (.key name.kind))) else return name.text

/-- The member with the number `k`. -/
def resolveMember (ws : Workspace) (resolve : Resolver) (here : Trail) (k : Nat) (path : Path)
    (scope : Scope) (key : String) (body : Value) : Result Pieces :=
  match classify key with
  | .comment => .ok ⟨[], []⟩
  | .literal => do
    let v ← resolve (here.part k) path scope body
    return ⟨[(key, v)], []⟩
  | .computed source => do
    let name ← computedName ws (here.key k) path scope source
    let v ← resolve (here.part k) path scope body
    return ⟨[(name, v)], []⟩
  | .iteration source name => do
    let vs ← iterate ws resolve here k path scope source name body
    return ⟨[], vs.map (path, ·)⟩
  | .conditional source => do
    let vs ← choose ws resolve here k path scope source body
    return ⟨[], vs.map (path, ·)⟩

def resolveMembers (ws : Workspace) (resolve : Resolver) (here : Trail) (path : Path)
    (scope : Scope) : (k : Nat) → List (String × Value) → Result Pieces
  | _, [] => .ok ⟨[], []⟩
  | k, (key, body) :: members => do
    let piece ← resolveMember ws resolve here k (path.field key) scope key body
    return piece.append (← resolveMembers ws resolve here path scope (k + 1) members)

/-- Merges an expansion under what an object has already; null adds nothing. -/
def addExpansion (object : Value) (expansion : Path × Value) : Result Value :=
  match expansion.2 with
  | .object .. => mergeAt expansion.1 object expansion.2
  | .null => .ok object
  | v => .error (.invalid expansion.1 (.expansion v.kind))

/-- Comments do not count. The object's own members win over expansions. -/
def resolveObject (ws : Workspace) (resolve : Resolver) (here : Trail) (path : Path)
    (scope : Scope) (members : Fields Value) : Result Value := do
  let pieces ← resolveMembers ws resolve here path scope 0
    (members.filter fun (key, _) => key ≠ commentKey)
  pieces.expansions.foldlM addExpansion (.ofMembers (Fields.ofList pieces.own))

/-- The value of an expression in a document. It shares nothing with the scope. -/
def resolveSource (ws : Workspace) (here : Trail) (path : Path) (scope : Scope) (source : String) :
    Result Value := do
  let v ← evaluate ws here path scope source
  if v.isCallable then .error (.eval path (.type (.stored v.kind))) else return v.deepCopy

/-- Resolves a node, given how nodes one level deeper are resolved. -/
def resolveNode (ws : Workspace) (resolve : Resolver) : Resolver := fun here path scope node =>
  match node with
  | .string s =>
    match source? s with
    | some source => resolveSource ws here path scope source
    | none => .ok node
  | .array _ items => (resolveItems ws resolve here path scope 0 items).map .ofItems
  | .object _ members =>
    if Fields.has members templateKey then do
      checkKeys path [templateKey, scopeKey, extendKey, commentKey] members
      let (working, body) ← directive ws resolve here path scope members
      resolve (here.part 1) (path.field templateKey) working body
    else resolveObject ws resolve here path scope members
  | v => .ok v

/-- Resolves a node with at most `depth` levels below it. -/
def resolve (ws : Workspace) : (depth : Nat) → Resolver
  | 0, _, path, _, _ => .error (.eval path (.recursionLimit ws.engine.limit))
  | depth + 1, here, path, scope, node => resolveNode ws (resolve ws depth) here path scope node

end Template

end Stencil

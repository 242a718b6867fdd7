import Stencil.Builtin
import Stencil.Command.Error
import Stencil.Template.Workspace

/-!
# Compiling files

Modules are loaded first, then every document is compiled. A source that fails is reported, and
the others go on.
-/

namespace Stencil.Compile

def moduleExtension : String := "modl"
def templateExtension : String := "templ"
def scopeExtension : String := "json"

structure Options where
  /-- Files and directories with sources. -/
  paths : List String
  /-- Files and directories with bindings for all sources. -/
  scope : List String
  /-- The directory for outputs; without it they are printed. -/
  out : Option String
  /-- Whether sources that compiled are deleted. -/
  removeSources : Bool
  pretty : Bool

/-- The sources in the order in which they are compiled. -/
structure Sources where
  modules : List String
  templates : List String

/-- What a run has come to. -/
structure Run where
  disk : Disk
  workspace : Workspace
  printed : String
  /-- Outputs on the disk. -/
  written : List String
  failures : List (String × CommandError)
  /-- Sources without a failure. -/
  compiled : List String

def filesAt (d : Disk) (path : String) : Except CommandError (List String) :=
  match d.files? path with
  | some files => .ok files
  | none => .error (.walk path)

/-- The modules and templates at paths and below them. -/
def collectSources (d : Disk) (paths : List String) : Except CommandError Sources := do
  let files := (← paths.mapM (filesAt d)).flatten
  let withExtension (ext : String) := files.filter (FilePath.extension? · = some ext)
  return ⟨withExtension moduleExtension, withExtension templateExtension⟩

/-- The file at a path, or the files with bindings in the directory there. -/
def scopeFiles (d : Disk) (path : String) : Except CommandError (List String) :=
  if d.isDirectory path then
    (filesAt d path).map (·.filter (FilePath.extension? · = some scopeExtension))
  else .ok [path]

/-- Merges the bindings in a file under those there are. -/
def addScopeFile (d : Disk) (scope : Value) (path : String) : Except CommandError Value := do
  let text ← (d.readText path).mapError .disk
  match (Json.ofText? text).map Value.ofJson with
  | none => .error (.json path)
  | some v =>
    match v with
    | .object .. => (scope.merge v).mapError fun conflict => .eval (.mergeConflict conflict)
    | _ => .error (.scopeNotObject path)

def addScopePath (d : Disk) (scope : Value) (path : String) : Except CommandError Value := do
  (← scopeFiles d path).foldlM (addScopeFile d) scope

/-- The bindings in files, of which the first one's win. -/
def loadScope (d : Disk) (paths : List String) : Except CommandError Scope := do
  match ← paths.foldlM (addScopePath d) (.ofMembers []) with
  | .object _ members => return [members]
  | _ => return []

def loadModule (scope : Scope) (run : Run) (path : String) : Run :=
  let loaded : Except CommandError Workspace := do
    let text ← (run.disk.readText path).mapError .disk
    let (_, ws) ← (run.workspace.loadModule text scope).mapError .template
    return ws
  match loaded with
  | .ok ws => { run with workspace := ws, compiled := run.compiled ++ [path] }
  | .error e => { run with failures := run.failures ++ [(path, e)] }

/-- The outputs of a template, as texts. -/
def renderTemplate (pretty : Bool) (scope : Scope) (run : Run) (path : String) :
    Except CommandError (List (String × String)) := do
  let text ← (run.disk.readText path).mapError .disk
  let outputs ←
    (run.workspace.compileDocument (FilePath.stem path) text scope).mapError .template
  return outputs.map fun (name, json) => (name, if pretty then json.pretty else json.compact)

/-- The path of an output: its source's directory, nested under the directory for outputs. -/
def outputPath (out source name : String) : String :=
  FilePath.join (FilePath.join out (FilePath.innerDirectory source)) (name ++ ".json")

/-- Writes outputs until one cannot be written. -/
def writeOutputs (out source : String) (run : Run) :
    List (String × String) → Run × Option DiskFault
  | [] => (run, none)
  | (name, text) :: outputs =>
    let path := outputPath out source name
    let disk := do (← run.disk.makeParents path).write path (text ++ "\n").toUTF8
    match disk with
    | .ok disk => writeOutputs out source { run with disk, written := run.written ++ [path] } outputs
    | .error e => (run, some e)

def printOutputs (run : Run) (outputs : List (String × String)) : Run :=
  let texts := outputs.map fun (name, text) => name ++ ".json:\n" ++ text ++ "\n"
  { run with printed := run.printed ++ String.join texts }

def compileTemplate (options : Options) (scope : Scope) (run : Run) (path : String) : Run :=
  match renderTemplate options.pretty scope run path with
  | .error e => { run with failures := run.failures ++ [(path, e)] }
  | .ok outputs =>
    let (run, fault) := match options.out with
      | some out => writeOutputs out path run outputs
      | none => (printOutputs run outputs, none)
    match fault with
    | some e => { run with failures := run.failures ++ [(path, .disk e)] }
    | none => { run with compiled := run.compiled ++ [path] }

/-- Deletes the sources that compiled, one after another. -/
def removeCompiled (run : Run) : Except CommandError Run := do
  let disk ← (run.compiled.foldlM Disk.remove run.disk).mapError .disk
  return { run with disk }

/-- A run over all sources, before any of them is deleted. -/
def compileAll (d : Disk) (options : Options) : Except CommandError Run := do
  let scope ← loadScope d options.scope
  let sources ← collectSources d options.paths
  let start : Run := ⟨d, .empty .standard, "", [], [], []⟩
  let loaded := sources.modules.foldl (loadModule scope) start
  return sources.templates.foldl (compileTemplate options scope) loaded

def execute (d : Disk) (options : Options) : Except CommandError Run := do
  let run ← compileAll d options
  if options.removeSources then removeCompiled run else return run

end Stencil.Compile

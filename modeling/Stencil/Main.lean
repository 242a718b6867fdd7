import Stencil.Command.Arguments
import Stencil.Command.Prompt

/-!
# The program

Takes a picture of the files that a command is about, lets the command work on it, and carries out
what came of it.
-/

namespace Stencil.Program

/-- Whether commands read files of this name in directories. -/
def isRead (name : String) : Bool :=
  [Compile.moduleExtension, Compile.templateExtension, Compile.scopeExtension].any
    (FilePath.extension? name = some ·)

/-- Adds what an entry of a directory holds, links apart. A file that is not read is taken to be
empty. -/
partial def addEntry (d : Disk) (place : Place) (found : IO.FS.DirEntry) : IO Disk := do
  match (← found.path.symlinkMetadata).type with
  | .dir =>
    (← found.path.readDir).foldlM (fun d below => addEntry d (place ++ [below.fileName]) below)
      (d.put place .directory)
  | .file =>
    let content ← if isRead found.fileName then IO.FS.readBinFile found.path else pure .empty
    return d.put place (.file content)
  | _ => return d

/-- Adds the directories on the way along a path and what there is at its end. -/
def addSteps (d : Disk) (path : String) (place : Place) (taken : List String) :
    (steps : List String) → IO Disk
  | [] => do
    let here : IO.FS.DirEntry := ⟨".", FilePath.withSteps path taken⟩
    if ← here.path.isDir then
      (← here.path.readDir).foldlM (fun d below => addEntry d (place ++ [below.fileName]) below) d
    else if ← here.path.pathExists then
      return d.put place (.file (← IO.FS.readBinFile here.path))
    else return d
  | step :: steps => do
    let here : IO.FS.DirEntry := ⟨".", FilePath.withSteps path (taken ++ [step])⟩
    let place := if step = ".." then place.dropLast else place ++ [step]
    let d := if ← here.path.isDir then d.put place .directory else d
    addSteps d path place (taken ++ [step]) steps

/-- What there is at paths and below them. -/
def picture (paths : List String) : IO Disk := do
  let here := FilePath.steps (← IO.currentDir).toString
  let above := (List.range here.length).map fun n => (here.take (n + 1), Entry.directory)
  paths.foldlM (fun d path => addSteps d path (if path.startsWith "/" then [] else here) []
    (FilePath.steps path)) ⟨above, here⟩

def fail (e : CommandError) : IO UInt32 := do
  IO.eprintln e.message
  return 1

partial def converse (scope : Scope) (interactive : Bool) : IO Unit := do
  IO.print (Prompt.sign interactive)
  (← IO.getStdout).flush
  let line ← (← IO.getStdin).getLine
  if !line.isEmpty then
    if let some output := Prompt.reply? scope line then
      IO.print output
      converse scope interactive

def eval (expressions scopePaths : List String) : IO UInt32 := do
  match Compile.loadScope (← picture scopePaths) scopePaths with
  | .error e => fail e
  | .ok scope =>
    if expressions.isEmpty then
      converse scope (← (← IO.getStdin).isTty)
      return 0
    else
      let (output, error?) := Prompt.evaluateAll scope expressions
      IO.print output
      match error? with
      | none => return 0
      | some e => fail e

/-- Writes an output of a run to where the run has put it. -/
def write (run : Compile.Run) (path : String) : IO Unit := do
  if let .ok content := run.disk.read path then
    let parent := FilePath.withSteps path (FilePath.steps path).dropLast
    if !parent.isEmpty then
      IO.FS.createDirAll parent
    IO.FS.writeBinFile path content

def compile (options : Compile.Options) : IO UInt32 := do
  let disk ← picture (options.paths ++ options.scope ++ options.out.toList)
  match Compile.compileAll disk options with
  | .error e => fail e
  | .ok run =>
    IO.print run.printed
    run.written.forM (write run)
    for (path, e) in run.failures do
      IO.eprintln (path ++ ": " ++ e.message)
    if options.removeSources then
      run.compiled.forM fun path => IO.FS.removeFile path
    if run.failures.isEmpty then return 0
    else fail (.failed run.failures.length (run.failures.length + run.compiled.length))

def execute : Command → IO UInt32
  | .eval expressions scope => eval expressions scope
  | .compile options => compile options
  | .help => do
    IO.print Command.usage
    return 0

end Stencil.Program

open Stencil in
def main (arguments : List String) : IO UInt32 := do
  match Command.ofArguments arguments with
  | .error e =>
    IO.eprintln ("error: " ++ e.message ++ "\n\n" ++ Command.usage)
    return 2
  | .ok command =>
    try Program.execute command
    catch e =>
      IO.eprintln ("error: " ++ toString e)
      return 1

import Stencil.Command.FilePath

/-!
# Files

A tree of directories and files, with the operations on it that compiling needs. Paths are read as
they are on a disk: step by step from the working directory or from the root, `..` included.
-/

namespace Stencil

inductive DiskFault where
  | notFound
  | taken
  | notADirectory
  | isADirectory
  | nameTooLong
  | nul
  | notText
deriving DecidableEq

def DiskFault.message : DiskFault → String
  | notFound => "No such file or directory (os error 2)"
  | taken => "File exists (os error 17)"
  | notADirectory => "Not a directory (os error 20)"
  | isADirectory => "Is a directory (os error 21)"
  | nameTooLong => "File name too long (os error 36)"
  | nul => "file name contained an unexpected NUL byte"
  | notText => "stream did not contain valid UTF-8"

/-- The names that lead from the root to a file or directory. -/
abbrev Place := List String

inductive Entry where
  | file (content : ByteArray)
  | directory

structure Disk where
  entries : List (Place × Entry)
  workingDirectory : Place

/-- Where a path leads: to something, or to a name that is free in a directory that there is. -/
inductive Target where
  | entry (place : Place) (e : Entry)
  | free (place : Place)

namespace Disk

def entry? (d : Disk) (place : Place) : Option Entry :=
  if place.isEmpty then some .directory else d.entries.lookup place

/-- Follows steps from a place. Each of them but the last must lead to a directory. -/
def follow (d : Disk) (place : Place) : List String → Except DiskFault Target
  | [] =>
    match d.entry? place with
    | some e => .ok (.entry place e)
    | none => .error .notFound
  | step :: steps =>
    match d.entry? place with
    | some .directory =>
      if step = "" || step = "." then d.follow place steps
      else if step = ".." then d.follow place.dropLast steps
      else if 255 < step.utf8ByteSize then .error .nameTooLong
      else
        match d.entry? (place ++ [step]) with
        | some _ => d.follow (place ++ [step]) steps
        | none => if steps.all (· = "") then .ok (.free (place ++ [step])) else .error .notFound
    | some (.file _) => .error .notADirectory
    | none => .error .notFound

/-- Where a path leads. A path has at most 4095 bytes, and a name in it at most 255. -/
def target (d : Disk) (path : String) : Except DiskFault Target :=
  if path.isEmpty then .error .notFound
  else if path.toList.contains '\x00' then .error .nul
  else if 4095 < path.utf8ByteSize then .error .nameTooLong
  else d.follow (if FilePath.isAbsolute path then [] else d.workingDirectory) (FilePath.pieces path)

def isDirectory (d : Disk) (path : String) : Bool :=
  match d.target path with
  | .ok (.entry _ .directory) => true
  | _ => false

def read (d : Disk) (path : String) : Except DiskFault ByteArray :=
  match d.target path with
  | .ok (.entry _ (.file content)) => .ok content
  | .ok (.entry _ .directory) => .error .isADirectory
  | .ok (.free _) => .error .notFound
  | .error e => .error e

/-- The text of a file. -/
def readText (d : Disk) (path : String) : Except DiskFault String := do
  match String.fromUTF8? (← d.read path) with
  | some s => return s
  | none => .error .notText

def before (a b : String) : Bool :=
  a < b || a = b

/-- The names in a directory, in order. -/
def names (d : Disk) (place : Place) : List String :=
  let names := d.entries.filterMap fun (p, _) =>
    if p.dropLast = place then p.getLast? else none
  names.mergeSort before

/-- The files at a place and below it, each under the path to it. Directories are nested at most
`fuel` deep. -/
def filesFrom (d : Disk) : (fuel : Nat) → (path : String) → Place → List String
  | 0, _, _ => []
  | fuel + 1, path, place =>
    match d.entry? place with
    | some (.file _) => [path]
    | some .directory =>
      (d.names place).flatMap fun name =>
        d.filesFrom fuel (FilePath.join path name) (place ++ [name])
    | none => []

/-- The files at a path and below it, or nothing if it leads nowhere. -/
def files? (d : Disk) (path : String) : Option (List String) :=
  match d.target path with
  | .ok (.entry place _) => some (d.filesFrom (d.entries.length + 1) path place)
  | _ => none

def put (d : Disk) (place : Place) (e : Entry) : Disk :=
  { d with entries := d.entries.filter (·.1 ≠ place) ++ [(place, e)] }

def write (d : Disk) (path : String) (content : ByteArray) : Except DiskFault Disk :=
  match d.target path with
  | .ok (.entry place (.file _)) | .ok (.free place) => .ok (d.put place (.file content))
  | .ok (.entry _ .directory) => .error .isADirectory
  | .error e => .error e

def remove (d : Disk) (path : String) : Except DiskFault Disk :=
  match d.target path with
  | .ok (.entry place (.file _)) => .ok { d with entries := d.entries.filter (·.1 ≠ place) }
  | .ok (.entry _ .directory) => .error .isADirectory
  | .ok (.free _) => .error .notFound
  | .error e => .error e

def makeDirectory (d : Disk) (path : String) : Except DiskFault Disk :=
  match d.target path with
  | .ok (.free place) => .ok (d.put place .directory)
  | .ok (.entry ..) => .error .taken
  | .error e => .error e

/-- Makes a directory unless there is one. -/
def ensure (d : Disk) (path : String) : Except DiskFault Disk :=
  match d.makeDirectory path with
  | .error e => if d.isDirectory path then .ok d else .error e
  | .ok d => .ok d

/-- Makes the directory at the end of steps, given from the last to the first, and the directories
on the way to it. -/
def ensureSteps (d : Disk) (path : String) : List String → Except DiskFault Disk
  | [] => .ok d
  | step :: earlier =>
    let here := FilePath.withSteps path (step :: earlier).reverse
    match ensure d here with
    | .error .notFound => do ensure (← ensureSteps d path earlier) here
    | result => result

/-- Makes the directory that a path lies in, with all those on the way to it. -/
def makeParents (d : Disk) (path : String) : Except DiskFault Disk :=
  ensureSteps d path (FilePath.steps path).dropLast.reverse

end Disk

end Stencil

/-!
# Paths of files

Paths as they are written: names with `/` between them. What is at a path is not asked here.
-/

namespace Stencil.FilePath

/-- A path from the root. -/
def isAbsolute (path : String) : Bool :=
  path.startsWith '/'

def join (a b : String) : String :=
  if isAbsolute b || a.isEmpty then b
  else if a.endsWith '/' then a ++ b
  else a ++ "/" ++ b

/-- What stands before, between and behind the `/` of a path. -/
def pieces (path : String) : List String :=
  (path.toList.splitOn '/').map String.ofList

/-- The names in a path; empty steps and steps to the same directory do not count. -/
def steps (path : String) : List String :=
  (pieces path).filter fun s => s ≠ "" && s ≠ "."

/-- A path with the same start and these steps. -/
def withSteps (path : String) (steps : List String) : String :=
  (if isAbsolute path then "/" else "") ++ "/".intercalate steps

def fileName (path : String) : String :=
  (steps path).getLast?.getD ""

/-- The characters behind the last point, and those before it, which there must be. -/
def splitPoint? (name : List Char) : Option (List Char × List Char) :=
  match name.reverse.dropWhile (· ≠ '.') with
  | _ :: c :: before =>
    some ((c :: before).reverse, (name.reverse.takeWhile (· ≠ '.')).reverse)
  | _ => none

def extension? (path : String) : Option String :=
  (splitPoint? (fileName path).toList).map fun (_, after) => String.ofList after

/-- The file name without its extension. -/
def stem (path : String) : String :=
  let name := fileName path
  (splitPoint? name.toList).elim name fun (before, _) => String.ofList before

/-- The directory of a path without its root and its steps upwards. -/
def innerDirectory (path : String) : String :=
  "/".intercalate ((steps path).dropLast.filter (· ≠ ".."))

end Stencil.FilePath

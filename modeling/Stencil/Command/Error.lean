import Stencil.Command.Disk
import Stencil.Template.Error

/-!
# Errors of commands
-/

namespace Stencil

inductive CommandError where
  | eval (e : EvalError)
  | template (e : TemplateError)
  /-- The file at this path is not JSON. -/
  | json (path : String)
  | scopeNotObject (path : String)
  | disk (fault : DiskFault)
  /-- There is nothing at this path to look for sources in. -/
  | walk (path : String)
  | failed (failures total : Nat)
deriving DecidableEq

def CommandError.message : CommandError → String
  | eval e => "Evaluation error: " ++ e.message
  | template e => "Template error: " ++ e.message
  | json path => "Invalid JSON in " ++ path
  | scopeNotObject path => "Scope file " ++ path ++ " must contain a JSON object"
  | disk fault => "IO error: " ++ fault.message
  | walk path => "Cannot walk directory: " ++ path
  | failed failures total =>
    toString failures ++ " of " ++ toString total ++ " file(s) failed to compile"

end Stencil

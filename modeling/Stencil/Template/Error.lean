import Stencil.Eval.Error

/-!
# Errors of templates

A template fails where an expression in it fails, or where its directives make no sense.
-/

namespace Stencil

inductive TemplateFault where
  | notAnObject (found : Value.Kind)
  | unexpectedKey (key : String)
  | missing (key : String)
  | moduleName
  | extendEntry
  | extend (found : Value.Kind)
  | scope (found : Value.Kind)
  | filesShape
  | filesKeys
  | filesArray (found : Value.Kind)
  | duplicateOutput (name : String)
  | expansion (found : Value.Kind)
deriving DecidableEq

def TemplateFault.message : TemplateFault → String
  | notAnObject found => "expected an object, found " ++ found.name
  | unexpectedKey key => "unexpected key '" ++ key ++ "' in directive"
  | missing key => "missing " ++ key
  | moduleName => "module name must be a non-empty string"
  | extendEntry => "$extend entries must be module names"
  | extend found => "$extend must be a module name or a list of names, found " ++ found.name
  | scope found => "$scope must be an object, found " ++ found.name
  | filesShape => "$files must be an object with array and fileName"
  | filesKeys => "$files requires both array and fileName"
  | filesArray found => "$files array must be an array, found " ++ found.name
  | duplicateOutput name => "duplicate output name '" ++ name ++ "'"
  | expansion found => "expansions inside an object must produce objects, found " ++ found.name

inductive TemplateError where
  /-- The text of this name is not JSON. -/
  | json (name : String)
  | eval (path : Path) (cause : EvalError)
  | invalid (path : Path) (fault : TemplateFault)
deriving DecidableEq

def TemplateError.message : TemplateError → String
  | json name => "Invalid JSON in " ++ name
  | eval path cause => path.render ++ ": " ++ cause.message
  | invalid path fault => path.render ++ ": " ++ fault.message

end Stencil

import Stencil.Value.Display

/-!
# Signatures

What a function takes: the kinds of its parameters, and how arguments are brought to them.
-/

namespace Stencil

inductive ParamKind where
  | any
  | boolean
  | number
  | string
  | array
  | object
  | lambda
deriving DecidableEq

namespace ParamKind

def name : ParamKind → String
  | any => "any"
  | boolean => "boolean"
  | number => "number"
  | string => "string"
  | array => "array"
  | object => "object"
  | lambda => "lambda"

/-- Whether a value is of this kind as it stands. Nothing is just `any`. -/
def isExact : ParamKind → Value → Bool
  | boolean, .boolean _ => true
  | number, .integer _ | number, .float _ => true
  | string, .string _ => true
  | array, .array .. => true
  | object, .object .. => true
  | lambda, v => v.isCallable
  | _, _ => false

/-- The value brought to this kind, if it can be. -/
def coerce? : ParamKind → Value → Option Value
  | any, v => some v
  | boolean, v => some (.boolean v.truthy)
  | number, v => v.number?.map .ofNumber
  | string, v =>
    match v with
    | .string _ => some v
    | .integer _ | .float _ | .boolean _ => some (.string v.text)
    | _ => none
  | array, v => if v.kind = .array then some v else none
  | object, v => if v.kind = .object then some v else none
  | lambda, v => if v.isCallable then some v else none

end ParamKind

structure Signature where
  name : String
  params : List ParamKind
  /-- Whether the first argument may stand in front, as in `target.name(rest)`. -/
  instanceCall : Bool
  /-- Whether the last parameter, a lambda, may be left out. -/
  optionalLambda : Bool
deriving DecidableEq

namespace Signature

/-- A function with these parameters, called with all of them behind its name. -/
def plain (name : String) (params : List ParamKind) : Signature :=
  ⟨name, params, false, false⟩

def onTarget (s : Signature) : Signature :=
  { s with instanceCall := true }

/-- Without effect unless the last parameter is a lambda. -/
def withOptionalLambda (s : Signature) : Signature :=
  { s with optionalLambda := s.params.getLast? = some .lambda }

def accepts (s : Signature) (arity : Nat) : Bool :=
  arity = s.params.length || s.optionalLambda && arity + 1 = s.params.length

/-- The number of arguments that are of the declared kind as they stand. -/
def score (s : Signature) (args : List Value) : Nat :=
  ((s.params.zip args).filter fun (kind, v) => kind.isExact v).length

def render (s : Signature) : String :=
  s.name ++ "(" ++ ", ".intercalate (s.params.map (·.name)) ++
    (if s.optionalLambda && !s.params.isEmpty then "?)" else ")")

end Signature

end Stencil

import Stencil.Eval.Signature
import Stencil.Expr.Parser
import Stencil.Value.Merge

/-!
# Errors of evaluation

Every way in which an expression can fail, and the message for it.
-/

namespace Stencil

open Value (Kind)

/-- Values of the wrong kind. -/
inductive TypeFault where
  | notCallable (kind : Kind)
  | memberNotCallable (name : String) (kind : Kind)
  | noMember (kind : Kind) (name : String)
  | rangeBound (kind : Kind)
  | negate (kind : Kind)
  | index (target i : Kind)
  | compare (left : Kind) (op : Comparison) (right : Kind)
  | add (left right : Kind)
  | arith (op : Arith) (left right : Kind)
  | iterate (kind : Kind)
  | stored (kind : Kind)
  | key (kind : Kind)
  | toJson (kind : Kind)
deriving DecidableEq

def TypeFault.message : TypeFault → String
  | notCallable kind => kind.name ++ " is not callable"
  | memberNotCallable name kind =>
    "member '" ++ name ++ "' is a " ++ kind.name ++ ", not a function"
  | noMember kind name => kind.name ++ " has no member '" ++ name ++ "'"
  | rangeBound kind => "Range bounds must be numbers, found " ++ kind.name
  | negate kind => "Cannot negate " ++ kind.name
  | index target i => "Cannot index " ++ target.name ++ " with " ++ i.name
  | compare left op right =>
    "Cannot compare " ++ left.name ++ " " ++ op.symbol ++ " " ++ right.name
  | add left right => "Cannot add " ++ left.name ++ " and " ++ right.name
  | arith op left right =>
    "Cannot apply '" ++ op.symbol ++ "' to " ++ left.name ++ " and " ++ right.name
  | iterate kind => "cannot iterate over " ++ kind.name
  | stored kind => "a " ++ kind.name ++ " cannot be stored in a document"
  | key kind => "a " ++ kind.name ++ " cannot be used as a key"
  | toJson kind => "Cannot convert " ++ kind.name ++ " to JSON"

/-- Arguments that a function does not take. -/
inductive ArgumentFault where
  /-- The argument at this position, counted from one, cannot be brought to its kind. -/
  | kind (position : Nat) (signature : Signature) (expected : ParamKind) (found : Kind)
  | notPowerOfTwo (space : Int64)
  /-- The arguments are not those of the signature. -/
  | shape
deriving DecidableEq

def ArgumentFault.message : ArgumentFault → String
  | kind position signature expected found =>
    "argument " ++ toString position ++ " of " ++ signature.render ++ " expects " ++
      expected.name ++ ", found " ++ found.name
  | notPowerOfTwo space =>
    "space must be a power of 2 greater than 1, found " ++ toString space.toInt
  | shape => "arguments do not fit the signature"

/-- Failures of a function on arguments of the right kinds. -/
inductive FunctionFault where
  | noMatch
  | notANumber (found : Kind)
  | resultNotANumber (found : Kind)
  | outOfRange (n space : Int64)
deriving DecidableEq

def FunctionFault.message : FunctionFault → String
  | noMatch => "no matching items found"
  | notANumber found => "expected a number, found " ++ found.name
  | resultNotANumber found => "lambda must return a number, found " ++ found.name
  | outOfRange n space =>
    "number " ++ toString n.toInt ++ " is out of range 0.." ++ toString (space.toInt - 1)

inductive EvalError where
  | lex (e : LexError)
  | parse (e : ParseError)
  | unknownVariable (name : String)
  | unknownFunction (name : String) (arity : Nat)
  | argument (function : String) (fault : ArgumentFault)
  | type (fault : TypeFault)
  | divisionByZero
  | indexOutOfRange (index : Int64) (length : Nat)
  | recursionLimit (limit : Nat)
  | mergeConflict (conflict : MergeConflict)
  | moduleNotFound (name : String)
  | functionFailed (function : String) (fault : FunctionFault)
  /-- There is no room for an array of so many items. -/
  | capacityOverflow
deriving DecidableEq

def EvalError.message : EvalError → String
  | lex e => "Lex error: " ++ e.message
  | parse e => "Parse error: " ++ e.message
  | unknownVariable name => "Unknown variable: " ++ name
  | unknownFunction name arity =>
    "Unknown function: " ++ name ++ " with " ++ toString arity ++ " argument(s)"
  | argument function fault => "Invalid argument for " ++ function ++ ": " ++ fault.message
  | type fault => "Type error: " ++ fault.message
  | divisionByZero => "Division by zero"
  | indexOutOfRange index length =>
    "Index " ++ toString index.toInt ++ " is out of range for length " ++ toString length
  | recursionLimit limit => "Recursion limit of " ++ toString limit ++ " exceeded"
  | mergeConflict conflict =>
    "Merge conflict at " ++ conflict.path.render ++ ": " ++ conflict.fault.message
  | moduleNotFound name => "Module not found: " ++ name
  | functionFailed function fault => function ++ " failed: " ++ fault.message
  | capacityOverflow => "capacity overflow"

/-- The expression that a source writes. -/
def Expr.ofSource (source : String) : Except EvalError Expr := do
  let tokens ← (tokenize source).mapError .lex
  (parse tokens Parser.defaultLimit).mapError .parse

end Stencil

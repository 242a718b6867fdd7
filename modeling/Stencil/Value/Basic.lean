import Stencil.Expr.Basic
import Stencil.Fields

/-!
# Values

What expressions evaluate to: the values of JSON, lambdas, and references to functions. Arrays and
objects are nodes: a node can be in several places at once, and its mark tells it from others that
look the same. Lambdas are told apart by the place in a run where they were made.
-/

namespace Stencil

/-- A step from a place in a run into a part of it. -/
inductive Turn where
  /-- The part of an expression or template with this number. -/
  | part (i : Nat)
  /-- The key of the member with this number. -/
  | key (i : Nat)
  /-- The round of an iteration, or the call of a callback, with this number. -/
  | round (i : Nat)
  /-- The loading of a module, with the number of earlier modules of that name. -/
  | load (name : String) (edition : Nat)
deriving DecidableEq

/-- A place in a run, by the turns that lead to it, the last one first. -/
abbrev Trail := List Turn

namespace Trail

def part (t : Trail) (i : Nat) : Trail :=
  .part i :: t

def key (t : Trail) (i : Nat) : Trail :=
  .key i :: t

def round (t : Trail) (i : Nat) : Trail :=
  .round i :: t

end Trail

/-- The mark of a node; a node that is in one place only needs none. -/
abbrev Node := Option Nat

inductive Value where
  | null
  | boolean (b : Bool)
  | integer (n : Int64)
  | float (x : Float)
  | string (s : String)
  | array (node : Node) (items : List Value)
  | object (node : Node) (members : List (String × Value))
  /-- A lambda, with the bindings in force where it was made. -/
  | lambda (origin : Trail) (params : List String) (body : Expr)
      (scope : List (List (String × Value)))
  | function (name : String)

instance : Inhabited Value := ⟨.null⟩

/-- Layers of bindings, the innermost first. -/
abbrev Scope := List (Fields Value)

namespace Scope

/-- The innermost binding of a name. -/
def get? (scope : Scope) (name : String) : Option Value :=
  scope.findSome? (·.get? name)

theorem get?_cons (layer : Fields Value) (scope : Scope) (name : String) :
    get? (layer :: scope) name = (layer.get? name).or (get? scope name) := by
  rw [get?, List.findSome?_cons]
  cases layer.get? name <;> rfl

/-- Binds a name in the innermost layer. -/
def insert (scope : Scope) (name : String) (v : Value) : Scope :=
  match scope with
  | [] => [[(name, v)]]
  | layer :: outer => layer.insert name v :: outer

end Scope

namespace Value

inductive Kind where
  | null
  | boolean
  | integer
  | float
  | string
  | array
  | object
  | lambda
  | function
deriving DecidableEq

def Kind.name : Kind → String
  | null => "null"
  | boolean => "boolean"
  | integer => "integer"
  | float => "float"
  | string => "string"
  | array => "array"
  | object => "object"
  | lambda => "lambda"
  | function => "function"

def kind : Value → Kind
  | null => .null
  | boolean _ => .boolean
  | integer _ => .integer
  | float _ => .float
  | string _ => .string
  | array .. => .array
  | object .. => .object
  | lambda .. => .lambda
  | function _ => .function

/-- A new array. -/
def ofItems (items : List Value) : Value :=
  array none items

/-- A new object. -/
def ofMembers (members : Fields Value) : Value :=
  object none members

def ofNumber : Number → Value
  | .integer n => integer n
  | .float x => float x

/-- Arrays and objects count as true even when they are empty. -/
def truthy : Value → Bool
  | null => false
  | boolean b => b
  | integer n => n != 0
  | float x => x != 0.0
  | string s => !s.isEmpty
  | _ => true

def isCallable : Value → Bool
  | lambda .. | function _ => true
  | _ => false

/-- The number that a value is or writes. -/
def number? : Value → Option Number
  | integer n => some (.integer n)
  | float x => some (.float x)
  | string s => Number.ofText? s
  | _ => none

/-- The values that stand for a deleted member: `null`, and the text of it. -/
def isDeletion : Value → Bool
  | null => true
  | string s => s = "null"
  | _ => false

end Value

end Stencil

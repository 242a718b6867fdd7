import Stencil.Number.Arithmetic

/-!
# Expressions

The trees that sources are parsed to and that evaluation walks.
-/

namespace Stencil

inductive Comparison where
  | less
  | greater
  | lessEqual
  | greaterEqual
deriving DecidableEq

inductive UnaryOp where
  | not
  | negate
deriving DecidableEq

inductive BinaryOp where
  | or
  | and
  | equal
  | notEqual
  | order (c : Comparison)
  | arith (a : Arith)
deriving DecidableEq

def Comparison.symbol : Comparison → String
  | less => "<"
  | greater => ">"
  | lessEqual => "<="
  | greaterEqual => ">="

def Comparison.holds : Comparison → Ordering → Bool
  | less, o => o.isLT
  | greater, o => o.isGT
  | lessEqual, o => o.isLE
  | greaterEqual, o => o.isGE

def Arith.symbol : Arith → String
  | add => "+"
  | sub => "-"
  | mul => "*"
  | div => "/"
  | rem => "%"

def BinaryOp.symbol : BinaryOp → String
  | or => "||"
  | and => "&&"
  | equal => "=="
  | notEqual => "!="
  | order c => c.symbol
  | arith a => a.symbol

inductive Expr where
  | float (x : Float)
  | integer (n : Int64)
  | string (s : String)
  | boolean (b : Bool)
  | null
  | name (s : String)
  | array (items : List Expr)
  | object (members : List (String × Expr))
  | range (first last : Expr)
  | unary (op : UnaryOp) (e : Expr)
  | binary (op : BinaryOp) (left right : Expr)
  | conditional (test yes no : Expr)
  | member (e : Expr) (name : String)
  | index (e i : Expr)
  /-- A call of a function, or of a function on a target. -/
  | call (target : Option Expr) (name : String) (args : List Expr)
  | lambda (params : List String) (body : Expr)

end Stencil

import Stencil.Eval.Registry
import Stencil.Value.Compare

/-!
# Operators

What the operators make of values that are already evaluated.
-/

namespace Stencil.Value

def bound (v : Value) : Except EvalError Int :=
  match v.number? with
  | some n => .ok n.toInt64.toInt
  | none => .error (.type (.rangeBound v.kind))

/-- The integers from one bound to the other, both included, up or down. -/
def rangeItems (first last : Int) : List Value :=
  if first ≤ last then
    (List.range (last - first + 1).toNat).map fun i : Nat => integer (Int64.ofInt (first + i))
  else
    (List.range (first - last + 1).toNat).map fun i : Nat => integer (Int64.ofInt (first - i))

/-- How many bytes an item takes up in an array. -/
def itemSize : Nat := 32

/-- How many items an array has room for at most: their bytes are counted in a signed word. -/
def maxLength : Nat := (Nat.pow 2 63 - 1) / itemSize

/-- The array of a range, if there is room for it. -/
def range (first last : Value) : Outcome := do
  let first ← bound first
  let last ← bound last
  if (last - first).natAbs < maxLength then return ofItems (rangeItems first last)
  else .error .capacityOverflow

/-- A number as it stands; texts do not count. -/
def numeric? : Value → Option Number
  | integer n => some (.integer n)
  | float x => some (.float x)
  | _ => none

def unary (op : UnaryOp) (v : Value) : Outcome :=
  match op with
  | .not => .ok (boolean !v.truthy)
  | .negate =>
    match v.numeric? with
    | some n => .ok (ofNumber n.negate)
    | none => .error (.type (.negate v.kind))

/-- The place in a row of `length` that an index means. -/
def position (target index : Value) (length : Nat) : Except EvalError Nat :=
  match index.number? with
  | some n =>
    if n.isIntegral then
      let i := n.toInt64
      if i.toInt < 0 || (length : Int) ≤ i.toInt then .error (.indexOutOfRange i length)
      else .ok i.toInt.toNat
    else .error (.type (.index target.kind index.kind))
  | none => .error (.type (.index target.kind index.kind))

/-- A member by its name, or the name of a member, an item or a character by its place. -/
def index (target i : Value) : Outcome :=
  match target, i with
  | object _ members, string name => .ok ((Fields.get? members name).getD null)
  | object _ members, _ => do
    let p ← position target i members.length
    return (members[p]?).elim null fun m => string m.1
  | array _ items, _ => do
    let p ← position target i items.length
    return items[p]?.getD null
  | string s, _ => do
    let p ← position target i s.length
    return (s.toList[p]?).elim null fun c => string c.toString
  | _, _ => .error (.type (.index target.kind i.kind))

def arith (op : Arith) (v w : Value) : Outcome :=
  match v.numeric?, w.numeric? with
  | some a, some b =>
    match Number.arith? op a b with
    | some n => .ok (ofNumber n)
    | none => .error .divisionByZero
  | _, _ => .error (.type (.arith op v.kind w.kind))

def isString : Value → Bool
  | string _ => true
  | _ => false

/-- A sum, or the texts of both values joined if one of them is a string. -/
def add (v w : Value) : Outcome :=
  if v.isString || w.isString then
    if v.isCallable || w.isCallable then .error (.type (.add v.kind w.kind))
    else .ok (string (v.text ++ w.text))
  else arith .add v w

def order (op : Comparison) (v w : Value) : Outcome :=
  match v.compare? w with
  | some o => .ok (boolean (op.holds o))
  | none => .error (.type (.compare v.kind op w.kind))

def binary (op : BinaryOp) (v w : Value) : Outcome :=
  match op with
  | .or => .ok (boolean (v.truthy || w.truthy))
  | .and => .ok (boolean (v.truthy && w.truthy))
  | .equal => .ok (boolean (v.equals w))
  | .notEqual => .ok (boolean !(v.equals w))
  | .order op => order op v w
  | .arith .add => add v w
  | .arith op => arith op v w

end Stencil.Value

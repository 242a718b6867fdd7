import Stencil.Value.Basic

/-!
# Nodes

Arrays and objects that are the same one, copies that are not, and marks.
-/

namespace Stencil.Value

/-- Whether two values are one and the same array or object. -/
def sameNode : Value → Value → Bool
  | array (some a) _, array (some b) _ => a = b
  | object (some a) _, object (some b) _ => a = b
  | _, _ => false

mutual

/-- A copy made of new nodes throughout. -/
def deepCopy : Value → Value
  | array _ items => ofItems (copyItems items)
  | object _ members => ofMembers (copyMembers members)
  | v => v

def copyItems : List Value → List Value
  | [] => []
  | v :: vs => v.deepCopy :: copyItems vs

def copyMembers : List (String × Value) → Fields Value
  | [] => []
  | (name, v) :: ms => (name, v.deepCopy) :: copyMembers ms

end

/-- The mark of a node, the next one if it has none, and the mark after the last one given. -/
def markNode (next : Nat) : Node → Node × Nat
  | some mark => (some mark, next)
  | none => (some next, next + 1)

mutual

/-- Marks the nodes without a mark, from the mark `next` on, and returns the mark after them. -/
def marked (next : Nat) : Value → Value × Nat
  | array node items =>
    let (node, next) := markNode next node
    let (items, next) := markItems next items
    (array node items, next)
  | object node members =>
    let (node, next) := markNode next node
    let (members, next) := markMembers next members
    (object node members, next)
  | v => (v, next)

def markItems (next : Nat) : List Value → List Value × Nat
  | [] => ([], next)
  | v :: vs =>
    let (v, next) := v.marked next
    let (vs, next) := markItems next vs
    (v :: vs, next)

def markMembers (next : Nat) : List (String × Value) → Fields Value × Nat
  | [] => ([], next)
  | (name, v) :: ms =>
    let (v, next) := v.marked next
    let (ms, next) := markMembers next ms
    ((name, v) :: ms, next)

end

end Stencil.Value

import Stencil.Value.Basic

/-!
# Comparing values

Two equalities and an order. `equals` is the equality of the expression language, in which a
number is equal to another of the same size and to a text that writes it. `same` also asks for
the same kinds. In both, members may come in any order.
-/

namespace Stencil.Value

def equalNumbers (v w : Value) : Bool :=
  match v.number?, w.number? with
  | some a, some b => a.toFloat == b.toFloat
  | _, _ => false

/-- Equality of values that hold no others. -/
def equalScalars : Value → Value → Bool
  | null, null => true
  | boolean a, boolean b => a = b
  | integer a, integer b => a = b
  | string a, string b => a = b
  | lambda a .., lambda b .. => a = b
  | function a, function b => a = b
  | v@(integer _), w | v@(float _), w | v, w@(integer _) | v, w@(float _) => equalNumbers v w
  | _, _ => false

mutual

def equals : Value → Value → Bool
  | array _ as, array _ bs => equalItems as bs
  | object _ as, object _ bs => as.length = bs.length && equalMembers as bs
  | v, w => equalScalars v w

def equalItems : List Value → List Value → Bool
  | [], [] => true
  | a :: as, b :: bs => a.equals b && equalItems as bs
  | _, _ => false

/-- Every member is in the second object too. -/
def equalMembers : List (String × Value) → List (String × Value) → Bool
  | [], _ => true
  | (name, a) :: as, bs =>
    (match Fields.get? bs name with
      | some b => a.equals b
      | none => false) && equalMembers as bs

end

def sameScalars : Value → Value → Bool
  | null, null => true
  | boolean a, boolean b => a = b
  | integer a, integer b => a = b
  | float a, float b => a == b
  | string a, string b => a = b
  | lambda a .., lambda b .. => a = b
  | function a, function b => a = b
  | _, _ => false

mutual

def same : Value → Value → Bool
  | array _ as, array _ bs => sameItems as bs
  | object _ as, object _ bs => as.length = bs.length && sameMembers as bs
  | v, w => sameScalars v w

def sameItems : List Value → List Value → Bool
  | [], [] => true
  | a :: as, b :: bs => a.same b && sameItems as bs
  | _, _ => false

/-- Every member is in the second object too. -/
def sameMembers : List (String × Value) → List (String × Value) → Bool
  | [], _ => true
  | (name, a) :: as, bs =>
    (match Fields.get? bs name with
      | some b => a.same b
      | none => false) && sameMembers as bs

end

/-- Texts compare by code points, and all else as numbers; other values have no order. -/
def compare? : Value → Value → Option Ordering
  | string a, string b => some (compareChars a.toList b.toList)
  | v, w => do (← v.number?).compare? (← w.number?)
where
  compareChars : List Char → List Char → Ordering
    | [], [] => .eq
    | [], _ :: _ => .lt
    | _ :: _, [] => .gt
    | a :: as, b :: bs => (compare a.toNat b.toNat).then (compareChars as bs)

end Stencil.Value

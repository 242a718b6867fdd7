import Stencil.Json.Basic
import Stencil.Value.Basic

/-!
# Values and JSON

Every JSON document is a value; a value is one too if no lambda and no reference to a function is
in it. A float that is not finite becomes null.
-/

namespace Stencil.Value

mutual

def ofJson : Json → Value
  | .null => null
  | .boolean b => boolean b
  | .integer n => integer n
  | .float x => float x
  | .string s => string s
  | .array items => ofItems (ofJsonItems items)
  | .object members => ofMembers (ofJsonMembers members)

def ofJsonItems : List Json → List Value
  | [] => []
  | v :: vs => ofJson v :: ofJsonItems vs

def ofJsonMembers : List (String × Json) → Fields Value
  | [] => []
  | (name, v) :: ms => (name, ofJson v) :: ofJsonMembers ms

end

mutual

/-- The document for a value, or the kind of the first value that has none. -/
def toJson : Value → Except Kind Json
  | null => .ok .null
  | boolean b => .ok (.boolean b)
  | integer n => .ok (.integer n)
  | float x => .ok (if x.isFinite then .float x else .null)
  | string s => .ok (.string s)
  | array _ items => return .array (← toJsonItems items)
  | object _ members => return .object (← toJsonMembers members)
  | lambda .. => .error .lambda
  | function _ => .error .function

def toJsonItems : List Value → Except Kind (List Json)
  | [] => .ok []
  | v :: vs => return (← v.toJson) :: (← toJsonItems vs)

def toJsonMembers : List (String × Value) → Except Kind (List (String × Json))
  | [] => .ok []
  | (name, v) :: ms => return (name, ← v.toJson) :: (← toJsonMembers ms)

end

end Stencil.Value

import Stencil.Fields
import Stencil.Number.Style
import Stencil.Text.Quoted

/-!
# JSON

Documents as data, and their text: `compact` without blanks, `pretty` with a line for each item.
Integers and floats are apart.
-/

namespace Stencil

inductive Json where
  | null
  | boolean (b : Bool)
  | integer (n : Int64)
  | float (x : Float)
  | string (s : String)
  | array (items : List Json)
  | object (members : List (String × Json))

instance : Inhabited Json := ⟨.null⟩

namespace Json

/-- The text of a value that holds no others. There is no way to write a float that is not finite. -/
def scalar : Json → String
  | null => "null"
  | boolean b => if b then "true" else "false"
  | integer n => toString n.toInt
  | float x => if x.isFinite then Style.value.render x else "null"
  | string s => Text.quoted s
  | array _ => "[]"
  | object _ => "\x7b\x7d"

mutual

def compact : Json → String
  | array items => "[" ++ ",".intercalate (compactItems items) ++ "]"
  | object members => "\x7b" ++ ",".intercalate (compactMembers members) ++ "\x7d"
  | v => v.scalar

def compactItems : List Json → List String
  | [] => []
  | v :: vs => v.compact :: compactItems vs

def compactMembers : List (String × Json) → List String
  | [] => []
  | (name, v) :: ms => (Text.quoted name ++ ":" ++ v.compact) :: compactMembers ms

end

/-- Items between brackets, each on a line of its own two blanks further in. -/
def block (opening closing : String) (depth : Nat) (items : List String) : String :=
  let line (depth : Nat) := "\n" ++ "".pushn ' ' (2 * depth)
  if items.isEmpty then opening ++ closing
  else
    opening ++ line (depth + 1) ++ ("," ++ line (depth + 1)).intercalate items ++ line depth ++ closing

mutual

def prettyAt (depth : Nat) : Json → String
  | array items => block "[" "]" depth (prettyItems (depth + 1) items)
  | object members => block "\x7b" "\x7d" depth (prettyMembers (depth + 1) members)
  | v => v.scalar

def prettyItems (depth : Nat) : List Json → List String
  | [] => []
  | v :: vs => prettyAt depth v :: prettyItems depth vs

def prettyMembers (depth : Nat) : List (String × Json) → List String
  | [] => []
  | (name, v) :: ms => (Text.quoted name ++ ": " ++ prettyAt depth v) :: prettyMembers depth ms

end

def pretty (v : Json) : String :=
  prettyAt 0 v

end Json

end Stencil

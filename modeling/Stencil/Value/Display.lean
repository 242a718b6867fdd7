import Stencil.Json.Basic
import Stencil.Value.Basic

/-!
# Displaying values

The text of a value as expressions see it. It looks like compact JSON, with words for the values
that JSON does not have.
-/

namespace Stencil.Value

def displayScalar : Value → String
  | null => "null"
  | boolean b => if b then "true" else "false"
  | integer n => toString n.toInt
  | float x => Style.value.render x
  | string s => Text.quoted s
  | lambda _ params _ _ => "<lambda(" ++ ", ".intercalate params ++ ")>"
  | function name => "<function " ++ name ++ ">"
  | array .. => "[]"
  | object .. => "\x7b\x7d"

mutual

def display : Value → String
  | array _ items => "[" ++ ",".intercalate (displayItems items) ++ "]"
  | object _ members => "\x7b" ++ ",".intercalate (displayMembers members) ++ "\x7d"
  | v => v.displayScalar

def displayItems : List Value → List String
  | [] => []
  | v :: vs => v.display :: displayItems vs

def displayMembers : List (String × Value) → List String
  | [] => []
  | (name, v) :: ms => (Text.quoted name ++ ":" ++ v.display) :: displayMembers ms

end

/-- The display of a value, but the bare text of a string. -/
def text : Value → String
  | string s => s
  | v => v.display

end Stencil.Value

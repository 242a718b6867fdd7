import Stencil.Expr.Lexer
import Stencil.Text.Blank
import Stencil.Text.Run

/-!
# Keys and embedded expressions

A text between double braces is an expression. In a key it gives the name of a member, unless a
sign in front makes it an iteration or a condition.
-/

namespace Stencil.Template

/-- The name of an element where the key of the iteration gives none. -/
def elementName : String := "value"

/-- The name of the place of an element. -/
def indexName : String := "index"

def commentKey : String := "$comment"

inductive Key where
  | comment
  | iteration (source name : String)
  | conditional (source : String)
  | computed (source : String)
  | literal
deriving DecidableEq

/-- A text without the two closing braces at its end. -/
def dropClosing? (cs : List Char) : Option (List Char) :=
  match cs.reverse with
  | '\x7d' :: '\x7d' :: rest => some rest.reverse
  | _ => none

/-- What stands between the braces of a text. -/
def source? (s : String) : Option String :=
  match Text.strip s.toList with
  | '\x7b' :: '\x7b' :: rest => (dropClosing? rest).map String.ofList
  | _ => none

/-- The text behind opening braces and a sign. -/
def behindSign? (sign : Char) (cs : List Char) : Option (List Char) :=
  match cs with
  | '\x7b' :: '\x7b' :: rest =>
    match Text.dropBlanks rest with
    | c :: rest => if c = sign then some rest else none
    | [] => none
  | _ => none

/-- Blanks, then the closing braces. -/
def closes (cs : List Char) : Bool :=
  Text.dropBlanks cs = ['\x7d', '\x7d']

/-- The name in ` as name` in front of the closing braces. -/
def asName? (cs : List Char) : Option (List Char) :=
  match Text.run Text.isBlank cs with
  | (_ :: _, 'a' :: 's' :: rest) =>
    match Text.run Text.isBlank rest with
    | (_ :: _, c :: rest) =>
      let (name, rest) := Text.run Lexeme.isNamePart (c :: rest)
      if Lexeme.isNameStart c && closes rest then some name else none
    | _ => none
  | _ => none

/-- What may end an iteration: a name and closing braces, or closing braces alone. -/
def ending? (cs : List Char) : Option (Option (List Char)) :=
  match asName? cs with
  | some name => some (some name)
  | none => if closes cs then some none else none

/-- The shortest source, of at least one character, with an ending behind it. -/
def iteration? : List Char → Option (List Char × Option (List Char))
  | [] => none
  | c :: cs =>
    match ending? cs with
    | some name => some ([c], name)
    | none => (iteration? cs).map fun (source, name) => (c :: source, name)

/-- A condition is not empty. -/
def condition? (cs : List Char) : Option (List Char) :=
  (dropClosing? cs).filter (!·.isEmpty)

def iterationKey? (key : List Char) : Option Key := do
  let (source, name) ← iteration? (← behindSign? '#' key)
  some (.iteration (String.ofList source) (name.elim elementName String.ofList))

def conditionalKey? (key : List Char) : Option Key := do
  some (.conditional (String.ofList (← condition? (← behindSign? '?' key))))

def classify (key : String) : Key :=
  if key = commentKey then .comment
  else
    let cs := Text.strip key.toList
    ((iterationKey? cs).or (conditionalKey? cs)).getD ((source? key).elim .literal .computed)

example : classify "\x7b\x7b#0..2 as item\x7d\x7d" = .iteration "0..2" "item" ∧
    classify " \x7b\x7b? x > 1\x7d\x7d" = .conditional " x > 1" ∧
    classify "\x7b\x7bname\x7d\x7d" = .computed "name" ∧ classify "\x7b\x7d" = .literal := by
  decide +kernel

end Stencil.Template

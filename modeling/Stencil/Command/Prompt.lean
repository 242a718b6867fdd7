import Stencil.Builtin
import Stencil.Command.Error

/-!
# Evaluating expressions from the command line

A list of expressions, or lines at a prompt. The list ends with its first failure; at the prompt a
failure is only shown.
-/

namespace Stencil.Prompt

/-- The value of an expression, shown as a line. -/
def answer (source : String) (scope : Scope) : Except EvalError String :=
  (Engine.standard.run [] source scope).map fun v => v.text ++ "\n"

/-- What is written for expressions one after another, and the error that ended it. -/
def evaluateAll (scope : Scope) : List String → String × Option CommandError
  | [] => ("", none)
  | source :: sources =>
    match answer source scope with
    | .error e => ("", some (.eval e))
    | .ok line =>
      let (output, e) := evaluateAll scope sources
      (line ++ output, e)

/-- What is written for a line, or nothing if the line ends the session. -/
def reply? (scope : Scope) (line : String) : Option String :=
  let source := String.ofList (Text.strip line.toList)
  if source = "exit" then none
  else if source.isEmpty then some ""
  else
    match answer source scope with
    | .ok line => some line
    | .error e => some ("Error: " ++ e.message ++ "\n")

/-- The text of a prompt. -/
def sign (interactive : Bool) : String :=
  if interactive then "> " else ""

/-- What is written for lines up to the end of the session. -/
def session (scope : Scope) (interactive : Bool) : List String → String
  | [] => sign interactive
  | line :: lines =>
    match reply? scope line with
    | none => sign interactive
    | some output => sign interactive ++ output ++ session scope interactive lines

/-- The lines of a text, the first of which starts with `line`, reversed. A line ends at a line
feed; a carriage return in front of it goes too. -/
def linesFrom (line : List Char) : List Char → List (List Char)
  | [] => if line.isEmpty then [] else [line.reverse]
  | '\n' :: cs =>
    match line with
    | '\r' :: line => line.reverse :: linesFrom [] cs
    | _ => line.reverse :: linesFrom [] cs
  | c :: cs => linesFrom (c :: line) cs

def lines (s : String) : List String :=
  (linesFrom [] s.toList).map String.ofList

/-- What is written for an input. -/
def run (scope : Scope) (interactive : Bool) (input : String) : String :=
  session scope interactive (lines input)

end Stencil.Prompt

import Stencil.Command.Compile

/-!
# The arguments of the command line

The first argument names a command. Flags stand anywhere behind it; what follows `--` is no flag.
-/

namespace Stencil

inductive Command where
  /-- Shows the values of expressions; if there are none, those of the lines that are read. -/
  | eval (expressions scope : List String)
  | compile (options : Compile.Options)
  | help

inductive Flag where
  | scope
  | out
  | pretty
  | removeSources
deriving DecidableEq

inductive UsageError where
  | noCommand
  | unknownCommand (name : String)
  | unknownFlag (text : String)
  | noValue (flag : Flag)
  | unwantedValue (flag : Flag)
  | noPaths
deriving DecidableEq

namespace Flag

def name : Flag → String
  | scope => "scope"
  | out => "out"
  | pretty => "pretty"
  | removeSources => "remove-src"

def letter? : Flag → Option Char
  | scope => some 's'
  | out => some 'o'
  | pretty => some 'p'
  | removeSources => none

def takesValue : Flag → Bool
  | scope | out => true
  | pretty | removeSources => false

end Flag

def UsageError.message : UsageError → String
  | noCommand => "a command is missing"
  | unknownCommand name => "there is no command '" ++ name ++ "'"
  | unknownFlag text => "there is no flag '" ++ text ++ "'"
  | noValue flag => "a value is missing behind '--" ++ flag.name ++ "'"
  | unwantedValue flag => "'--" ++ flag.name ++ "' takes no value"
  | noPaths => "there is nothing to compile"

namespace Command

def usage : String :=
  "eval [EXPRESSION]... [--scope PATH]...\n" ++
  "    show the values of expressions, or of lines that are read\n" ++
  "compile PATH... [--scope PATH]... [--out DIRECTORY] [--pretty] [--remove-src]\n" ++
  "    compile .modl and .templ files into JSON\n"

/-- What arguments have given. -/
structure Given where
  plain : List String
  scope : List String
  out : Option String
  pretty : Bool
  removeSources : Bool

namespace Given

def empty : Given :=
  ⟨[], [], none, false, false⟩

def addPlain (g : Given) (arguments : List String) : Given :=
  { g with plain := g.plain ++ arguments }

def set (g : Given) : Flag → (value : String) → Given
  | .scope, path => { g with scope := g.scope ++ [path] }
  | .out, path => { g with out := path }
  | .pretty, _ => { g with pretty := true }
  | .removeSources, _ => { g with removeSources := true }

end Given

/-- A flag with its whole name, and a value if `=` joins one to it. Returns also the flag whose value
is still to come. -/
def readLong (known : List Flag) (g : Given) (text : List Char) :
    Except UsageError (Given × Option Flag) :=
  let (name, value) := Text.run (· ≠ '=') text
  match known.find? (·.name = String.ofList name), value with
  | none, _ => .error (.unknownFlag ("--" ++ String.ofList name))
  | some flag, '=' :: value =>
    if flag.takesValue then .ok (g.set flag (String.ofList value), none)
    else .error (.unwantedValue flag)
  | some flag, _ => if flag.takesValue then .ok (g, some flag) else .ok (g.set flag "", none)

/-- Flags by their letters, of which the last one may have its value behind it. Returns also the flag
whose value is still to come. -/
def readLetters (known : List Flag) (g : Given) : List Char →
    Except UsageError (Given × Option Flag)
  | [] => .ok (g, none)
  | c :: cs =>
    match known.find? (·.letter? = some c) with
    | none => .error (.unknownFlag ("-" ++ c.toString))
    | some flag =>
      if flag.takesValue then
        match cs with
        | [] => .ok (g, some flag)
        | '=' :: value | value => .ok (g.set flag (String.ofList value), none)
      else readLetters known (g.set flag "") cs

def readArgument (known : List Flag) (g : Given) (argument : String) :
    Except UsageError (Given × Option Flag) :=
  match argument.toList with
  | '-' :: '-' :: name => readLong known g name
  | '-' :: c :: cs => readLetters known g (c :: cs)
  | _ => .ok (g.addPlain [argument], none)

def readArguments (known : List Flag) (g : Given) : List String → Except UsageError Given
  | [] => .ok g
  | "--" :: arguments => .ok (g.addPlain arguments)
  | argument :: arguments =>
    match readArgument known g argument with
    | .error e => .error e
    | .ok (g, none) => readArguments known g arguments
    | .ok (g, some flag) =>
      match arguments with
      | [] => .error (.noValue flag)
      | value :: arguments => readArguments known (g.set flag value) arguments

def asksForHelp (arguments : List String) : Bool :=
  (arguments.takeWhile (· ≠ "--")).any fun a => a = "-h" || a = "--help"

/-- The command that arguments give. -/
def ofArguments : List String → Except UsageError Command
  | [] => .error .noCommand
  | name :: arguments =>
    if asksForHelp (name :: arguments) then .ok .help
    else if name = "eval" then do
      let g ← readArguments [.scope] .empty arguments
      return .eval g.plain g.scope
    else if name = "compile" then do
      let g ← readArguments [.scope, .out, .pretty, .removeSources] .empty arguments
      if g.plain.isEmpty then .error .noPaths
      else return .compile ⟨g.plain, g.scope, g.out, g.removeSources, g.pretty⟩
    else .error (.unknownCommand name)

end Command

end Stencil

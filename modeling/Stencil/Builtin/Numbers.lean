import Stencil.Eval.Registry

/-!
# Functions on numbers

Results stay integers where the arguments are integers and the result is one.
-/

namespace Stencil.Builtin

/-- Arguments that the signature of the function lets nobody pass. -/
def misshapen (name : String) : Outcome :=
  .error (.argument name .shape)

def onNumber (name : String) (f : Number → Number) : Overload where
  signature := (Signature.plain name [.number]).onTarget
  body _ args :=
    match args with
    | [v] =>
      match v.number? with
      | some n => .ok (.ofNumber (f n))
      | none => misshapen name
    | _ => misshapen name

def onNumbers (s : Signature) (f : Number → Number → Outcome) : Overload where
  signature := s
  body _ args :=
    match args with
    | [v, w] =>
      match v.number?, w.number? with
      | some a, some b => f a b
      | _, _ => misshapen s.name
    | _ => misshapen s.name

def modulo : Overload :=
  onNumbers (.plain "mod" [.number, .number]) fun a b =>
    match Number.modulo? a b with
    | some n => .ok (.ofNumber n)
    | none => .error .divisionByZero

def power : Overload :=
  onNumbers (Signature.plain "pow" [.number, .number]).onTarget fun a b =>
    .ok (.ofNumber (a.pow b))

def onNumbersAlone : List Overload :=
  [modulo, onNumber "floor" (Number.rounded .down), onNumber "ceil" (Number.rounded .up),
    onNumber "round" (Number.rounded .nearest), onNumber "abs" Number.abs, power]

end Stencil.Builtin

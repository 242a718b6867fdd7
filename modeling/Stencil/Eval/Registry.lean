import Stencil.Eval.Error

/-!
# Functions by name

A name can have several overloads. A call takes the one for its number of arguments of which the
most arguments fit as they stand; of equally good ones, the first.
-/

namespace Stencil

abbrev Outcome := Except EvalError Value

/-- How a function calls back: the number of the call, the callable, and its arguments. -/
abbrev Callback := Nat → Value → List Value → Outcome

structure Overload where
  signature : Signature
  body : Callback → List Value → Outcome

/-- Overloads in the order in which they were registered. -/
structure Registry where
  overloads : List Overload

namespace Registry

def empty : Registry :=
  ⟨[]⟩

def register (r : Registry) (o : Overload) : Registry :=
  ⟨r.overloads ++ [o]⟩

def named (r : Registry) (name : String) : List Overload :=
  r.overloads.filter (·.signature.name = name)

def contains (r : Registry) (name : String) : Bool :=
  !(r.named name).isEmpty

def acceptsArity (r : Registry) (name : String) (arity : Nat) : Bool :=
  (r.named name).any (·.signature.accepts arity)

/-- The overloads that a call can mean. -/
def candidates (r : Registry) (name : String) (arity : Nat) (onTarget : Bool) : List Overload :=
  (r.named name).filter fun o =>
    (!onTarget || o.signature.instanceCall) && o.signature.accepts arity

/-- The first overload with the highest score. -/
def best? (args : List Value) (os : List Overload) : Option Overload :=
  os.foldl (fun best o =>
    match best with
    | none => some o
    | some b => if b.signature.score args < o.signature.score args then some o else best) none

/-- The arguments brought to the kinds of the parameters, the first of which is the one with the
number `position`. -/
def coerceAll (s : Signature) :
    (position : Nat) → List ParamKind → List Value → Except ArgumentFault (List Value)
  | position, kind :: kinds, v :: vs =>
    match kind.coerce? v with
    | none => .error (.kind position s kind v.kind)
    | some v => (coerceAll s (position + 1) kinds vs).map (v :: ·)
  | _, _, _ => .ok []

/-- The overload for a call, and its arguments. -/
def resolve (r : Registry) (name : String) (args : List Value) (onTarget : Bool) :
    Except EvalError (Overload × List Value) :=
  match best? args (r.candidates name args.length onTarget) with
  | none => .error (.unknownFunction name args.length)
  | some o =>
    ((coerceAll o.signature 1 o.signature.params args).mapError (.argument name)).map (o, ·)

/-- The most arguments, up to `arity`, that some overload takes. -/
def fittingArity? (r : Registry) (name : String) : (arity : Nat) → Option Nat
  | 0 => if r.acceptsArity name 0 then some 0 else none
  | n + 1 => if r.acceptsArity name (n + 1) then some (n + 1) else r.fittingArity? name n

end Registry

end Stencil

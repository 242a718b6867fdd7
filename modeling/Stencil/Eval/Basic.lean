import Stencil.Eval.Operators

/-!
# Evaluation

The value of an expression in a scope. Every expression inside another one, every call of a
function and every call of a lambda is one level deeper, and the levels are limited: that is why
evaluation ends.
-/

namespace Stencil

namespace Eval

/-- What a level asks of the level below it: the value of an expression, and the value of a call
of a function, `onTarget` if the first argument stood in front of the name. -/
structure Level where
  evaluate : Trail → Expr → Scope → Outcome
  call : Trail → String → List Value → (onTarget : Bool) → Outcome

/-- The layer of a lambda's parameters. Missing arguments are null, and further ones are left out. -/
def bindings (params : List String) (args : List Value) : Fields Value :=
  Fields.ofList (params.mapIdx fun i name => (name, args[i]?.getD .null))

/-- Calls a callable. A function gets as many of the arguments as it takes. -/
def Level.invoke (level : Level) (r : Registry) (here : Trail) (callable : Value)
    (args : List Value) : Outcome :=
  match callable with
  | .lambda _ params body scope => level.evaluate here body (bindings params args :: scope)
  | .function name =>
    match r.fittingArity? name args.length with
    | some arity => level.call here name (args.take arity) false
    | none => .error (.unknownFunction name args.length)
  | v => .error (.type (.notCallable v.kind))

/-- The values of expressions from left to right; the first is the part with the number `i`. -/
def Level.all (level : Level) (here : Trail) (scope : Scope) :
    (i : Nat) → List Expr → Except EvalError (List Value)
  | _, [] => .ok []
  | i, e :: es => do
    let v ← level.evaluate (here.part i) e scope
    return v :: (← level.all here scope (i + 1) es)

def Level.members (level : Level) (here : Trail) (scope : Scope) :
    (i : Nat) → List (String × Expr) → Except EvalError (List (String × Value))
  | _, [] => .ok []
  | i, (name, e) :: es => do
    let v ← level.evaluate (here.part i) e scope
    return (name, v) :: (← level.members here scope (i + 1) es)

/-- A bound value, or else the function of that name. -/
def lookup (r : Registry) (scope : Scope) (name : String) : Outcome :=
  match scope.get? name with
  | some v => .ok v
  | none => if r.contains name then .ok (.function name) else .error (.unknownVariable name)

/-- A member without a call. What an object lacks is the result of a function on it, or null; other
values have no members but functions. -/
def Level.member (level : Level) (here : Trail) (target : Value) (name : String) : Outcome :=
  match target with
  | .object _ members =>
    match Fields.get? members name with
    | some v => .ok v
    | none =>
      match level.call here name [target] true with
      | .error (.unknownFunction ..) | .error (.argument ..) => .ok .null
      | result => result
  | _ =>
    match level.call here name [target] true with
    | .error (.unknownFunction ..) => .error (.type (.noMember target.kind name))
    | result => result

/-- A call behind a target: of the member of that name if there is one, or else of a function. -/
def Level.callOn (level : Level) (r : Registry) (here : Trail) (target : Value) (name : String)
    (args : List Expr) (scope : Scope) : Outcome := do
  let member? := match target with
    | .object _ members => Fields.get? members name
    | _ => none
  let args ← level.all here scope 1 args
  match member? with
  | some callee =>
    if callee.isCallable then level.invoke r (here.round 0) callee args
    else .error (.type (.memberNotCallable name callee.kind))
  | none => level.call here name (target :: args) true

/-- A call by name alone: of the value bound to it if it is callable, or else of a function. -/
def Level.callNamed (level : Level) (r : Registry) (here : Trail) (name : String)
    (args : List Expr) (scope : Scope) : Outcome := do
  let callee? := (scope.get? name).filter (·.isCallable)
  let args ← level.all here scope 0 args
  match callee? with
  | some callee => level.invoke r (here.round 0) callee args
  | none => level.call here name args false

/-- The value of an expression, given the level below. -/
def Level.expression (level : Level) (r : Registry) (here : Trail) (scope : Scope) : Expr → Outcome
  | .float x => .ok (.float x)
  | .integer n => .ok (.integer n)
  | .string s => .ok (.string s)
  | .boolean b => .ok (.boolean b)
  | .null => .ok .null
  | .name name => lookup r scope name
  | .array items => (level.all here scope 0 items).map .ofItems
  | .object ms => (level.members here scope 0 ms).map fun ms => .ofMembers (Fields.ofList ms)
  | .range first last => do
    let first ← level.evaluate (here.part 0) first scope
    let last ← level.evaluate (here.part 1) last scope
    first.range last
  | .unary op e => do
    let v ← level.evaluate (here.part 0) e scope
    v.unary op
  | .binary .and left right => do
    let v ← level.evaluate (here.part 0) left scope
    if v.truthy then
      let w ← level.evaluate (here.part 1) right scope
      return .boolean w.truthy
    else return .boolean false
  | .binary .or left right => do
    let v ← level.evaluate (here.part 0) left scope
    if v.truthy then return .boolean true
    else
      let w ← level.evaluate (here.part 1) right scope
      return .boolean w.truthy
  | .binary op left right => do
    let v ← level.evaluate (here.part 0) left scope
    let w ← level.evaluate (here.part 1) right scope
    v.binary op w
  | .conditional test yes no => do
    let v ← level.evaluate (here.part 0) test scope
    if v.truthy then level.evaluate (here.part 1) yes scope
    else level.evaluate (here.part 2) no scope
  | .member e name => do
    let target ← level.evaluate (here.part 0) e scope
    level.member here target name
  | .index e i => do
    let target ← level.evaluate (here.part 0) e scope
    let i ← level.evaluate (here.part 1) i scope
    target.index i
  | .call (some e) name args => do
    let target ← level.evaluate (here.part 0) e scope
    level.callOn r here target name args scope
  | .call none name args => level.callNamed r here name args scope
  | .lambda params body => .ok (.lambda here params body scope)

mutual

/-- The value of an expression with at most `depth` levels left, of `limit` altogether. -/
def evaluate (r : Registry) (limit : Nat) : (depth : Nat) → Trail → Expr → Scope → Outcome
  | 0, _, _, _ => .error (.recursionLimit limit)
  | depth + 1, here, e, scope =>
    Level.expression ⟨evaluate r limit depth, call r limit depth⟩ r here scope e

/-- A call of the overload for the arguments. Which one it is counts before the limit does. -/
def call (r : Registry) (limit : Nat) :
    (depth : Nat) → Trail → String → List Value → Bool → Outcome
  | 0, _, name, args, onTarget => do
    let _ ← r.resolve name args onTarget
    .error (.recursionLimit limit)
  | depth + 1, here, name, args, onTarget => do
    let (overload, args) ← r.resolve name args onTarget
    let level : Level := ⟨evaluate r limit depth, call r limit depth⟩
    overload.body (fun i => level.invoke r (here.round i)) args

end

end Eval

/-- Functions to call and a limit on the levels of evaluation. -/
structure Engine where
  registry : Registry
  limit : Nat

namespace Engine

/-- The limit where nothing else is said. -/
def defaultLimit : Nat := 256

def evaluate (engine : Engine) (here : Trail) (e : Expr) (scope : Scope) : Outcome :=
  Eval.evaluate engine.registry engine.limit engine.limit here e scope

/-- The value of the expression that a source writes. -/
def run (engine : Engine) (here : Trail) (source : String) (scope : Scope) : Outcome := do
  engine.evaluate here (← Expr.ofSource source) scope

end Engine

end Stencil

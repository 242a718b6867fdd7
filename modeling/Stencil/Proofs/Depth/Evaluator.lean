import Stencil.Proofs.Depth.Functions
import Stencil.Proofs.Eval.Levels

/-!
# Evaluation that keeps count

An evaluator that does not pass down how many levels are left: it counts the one it is in, whatever
it evaluates or calls. Each level does with the one inside it what evaluation does with the level
below.
-/

namespace Stencil.Counted

open Eval (Level)

/-- What a level asks of the one inside it. -/
structure CountedLevel where
  evaluate : Trail → Expr → Scope → Counted EvalError Value
  call : Trail → String → List Value → (onTarget : Bool) → Counted EvalError Value

namespace CountedLevel

def invoke (level : CountedLevel) (r : Registry) (here : Trail) (callable : Value)
    (args : List Value) : Counted EvalError Value :=
  match callable with
  | .lambda _ params body scope => level.evaluate here body (Eval.bindings params args :: scope)
  | .function name =>
    match r.fittingArity? name args.length with
    | some arity => level.call here name (args.take arity) false
    | none => throw (.unknownFunction name args.length)
  | v => throw (.type (.notCallable v.kind))

def all (level : CountedLevel) (here : Trail) (scope : Scope) :
    (i : Nat) → List Expr → Counted EvalError (List Value)
  | _, [] => pure []
  | i, e :: es => do
    let v ← level.evaluate (here.part i) e scope
    return v :: (← level.all here scope (i + 1) es)

def members (level : CountedLevel) (here : Trail) (scope : Scope) :
    (i : Nat) → List (String × Expr) → Counted EvalError (List (String × Value))
  | _, [] => pure []
  | i, (name, e) :: es => do
    let v ← level.evaluate (here.part i) e scope
    return (name, v) :: (← level.members here scope (i + 1) es)

def member (level : CountedLevel) (here : Trail) (target : Value) (name : String) :
    Counted EvalError Value :=
  match target with
  | .object _ members =>
    match Fields.get? members name with
    | some v => pure v
    | none =>
      handle (level.call here name [target] true) fun
        | .error (.unknownFunction ..) | .error (.argument ..) => .ok .null
        | result => result
  | _ =>
    handle (level.call here name [target] true) fun
      | .error (.unknownFunction ..) => .error (.type (.noMember target.kind name))
      | result => result

def callOn (level : CountedLevel) (r : Registry) (here : Trail) (target : Value) (name : String)
    (args : List Expr) (scope : Scope) : Counted EvalError Value := do
  let member? := match target with
    | .object _ members => Fields.get? members name
    | _ => none
  let args ← level.all here scope 1 args
  match member? with
  | some callee =>
    if callee.isCallable then level.invoke r (here.round 0) callee args
    else throw (.type (.memberNotCallable name callee.kind))
  | none => level.call here name (target :: args) true

def callNamed (level : CountedLevel) (r : Registry) (here : Trail) (name : String)
    (args : List Expr) (scope : Scope) : Counted EvalError Value := do
  let callee? := (scope.get? name).filter (·.isCallable)
  let args ← level.all here scope 0 args
  match callee? with
  | some callee => level.invoke r (here.round 0) callee args
  | none => level.call here name args false

def expression (level : CountedLevel) (r : Registry) (here : Trail) (scope : Scope) :
    Expr → Counted EvalError Value
  | .float x => pure (.float x)
  | .integer n => pure (.integer n)
  | .string s => pure (.string s)
  | .boolean b => pure (.boolean b)
  | .null => pure .null
  | .name name => outcome (Eval.lookup r scope name)
  | .array items => .ofItems <$> level.all here scope 0 items
  | .object ms => (fun ms => .ofMembers (Fields.ofList ms)) <$> level.members here scope 0 ms
  | .range first last => do
    let first ← level.evaluate (here.part 0) first scope
    let last ← level.evaluate (here.part 1) last scope
    outcome (first.range last)
  | .unary op e => do
    let v ← level.evaluate (here.part 0) e scope
    outcome (v.unary op)
  | .binary .and left right => do
    let v ← level.evaluate (here.part 0) left scope
    if v.truthy then
      let w ← level.evaluate (here.part 1) right scope
      return .boolean w.truthy
    else return .boolean false
  | .binary .or left right => do
    let v ← level.evaluate (here.part 0) left scope
    if v.truthy then return .boolean true
    else
      let w ← level.evaluate (here.part 1) right scope
      return .boolean w.truthy
  | .binary op left right => do
    let v ← level.evaluate (here.part 0) left scope
    let w ← level.evaluate (here.part 1) right scope
    outcome (v.binary op w)
  | .conditional test yes no => do
    let v ← level.evaluate (here.part 0) test scope
    if v.truthy then level.evaluate (here.part 1) yes scope
    else level.evaluate (here.part 2) no scope
  | .member e name => do
    let target ← level.evaluate (here.part 0) e scope
    level.member here target name
  | .index e i => do
    let target ← level.evaluate (here.part 0) e scope
    let i ← level.evaluate (here.part 1) i scope
    outcome (target.index i)
  | .call (some e) name args => do
    let target ← level.evaluate (here.part 0) e scope
    level.callOn r here target name args scope
  | .call none name args => level.callNamed r here name args scope
  | .lambda params body => pure (.lambda here params body scope)

end CountedLevel

mutual

/-- The value of an expression, one level deeper than the counter says. The run is given up after
`steps` levels, whatever the counter says. -/
def evaluate (limit : Nat) : (steps : Nat) → Trail → Expr → Scope → Counted EvalError Value
  | 0, _, _, _ => unfinished
  | steps + 1, here, e, scope =>
    nested .evaluation limit (.recursionLimit limit)
      (CountedLevel.expression ⟨evaluate limit steps, call limit steps⟩ .builtins here scope e)

/-- A call of a function. It is resolved before its level is entered. -/
def call (limit : Nat) :
    (steps : Nat) → Trail → String → List Value → Bool → Counted EvalError Value
  | 0, _, _, _, _ => unfinished
  | steps + 1, here, name, args, onTarget => do
    let (overload, args) ← outcome (Registry.builtins.resolve name args onTarget)
    let level : CountedLevel := ⟨evaluate limit steps, call limit steps⟩
    nested .evaluation limit (.recursionLimit limit)
      (body overload (fun i => level.invoke .builtins (here.round i)) args)

end

/-- Inside, the level returns what `level` comes to. -/
structure CountedLevel.CountsAs (c : Counters) (counted : CountedLevel) (level : Level) : Prop where
  evaluate : ∀ here e scope, Returns c (counted.evaluate here e scope) (level.evaluate here e scope)
  call : ∀ here name args onTarget,
    Returns c (counted.call here name args onTarget) (level.call here name args onTarget)

namespace CountedLevel.CountsAs

variable {c : Counters} {counted : CountedLevel} {level : Level} {r : Registry}
  (h : CountsAs c counted level) (here : Trail)
include h

theorem invoke (callable : Value) (args : List Value) :
    Returns c (counted.invoke r here callable args) (level.invoke r here callable args) := by
  cases callable with
  | lambda _ params body scope => exact h.evaluate _ _ _
  | function name =>
    simp only [CountedLevel.invoke, Level.invoke]
    cases r.fittingArity? name args.length with
    | some arity => exact h.call _ _ _ _
    | none => exact .throw _
  | _ => exact .throw _

theorem all (scope : Scope) (i : Nat) (es : List Expr) :
    Returns c (counted.all here scope i es) (level.all here scope i es) := by
  induction es generalizing i with
  | nil => exact .pure []
  | cons e es ih =>
    exact .bind (h.evaluate _ e _) fun v => .bind (ih (i + 1)) fun vs => .pure (v :: vs)

theorem members (scope : Scope) (i : Nat) (ms : List (String × Expr)) :
    Returns c (counted.members here scope i ms) (level.members here scope i ms) := by
  induction ms generalizing i with
  | nil => exact .pure []
  | cons m ms ih =>
    exact .bind (h.evaluate _ m.2 _) fun v => .bind (ih (i + 1)) fun vs => .pure ((m.1, v) :: vs)

theorem member (target : Value) (name : String) :
    Returns c (counted.member here target name) (level.member here target name) := by
  have hcall := h.call here name [target] true
  cases target with
  | object node members =>
    exact returns_option (o := Fields.get? members name) .pure (hcall.handle _)
  | _ => exact hcall.handle _

theorem callOn (target : Value) (name : String) (args : List Expr) (scope : Scope) :
    Returns c (counted.callOn r here target name args scope)
      (level.callOn r here target name args scope) := by
  refine .bind (h.all here scope 1 args) fun args => ?_
  refine returns_option (fun callee => ?_) (h.call _ _ _ _)
  split
  · exact h.invoke _ _ _
  · exact .throw _

theorem callNamed (name : String) (args : List Expr) (scope : Scope) :
    Returns c (counted.callNamed r here name args scope)
      (level.callNamed r here name args scope) := by
  refine .bind (h.all here scope 0 args) fun args => ?_
  exact returns_option (fun callee => h.invoke _ _ _) (h.call _ _ _ _)

/-- Whatever an expression is, its level returns what evaluation comes to. -/
theorem expression (scope : Scope) (e : Expr) :
    Returns c (counted.expression r here scope e) (level.expression r here scope e) := by
  cases e with
  | float | integer | string | boolean | null | lambda => exact .pure _
  | name => exact .outcome _
  | array items => exact (h.all here scope 0 items).map _
  | object ms => exact (h.members here scope 0 ms).map _
  | range first last =>
    exact .bind (h.evaluate _ first _) fun _ => .bind (h.evaluate _ last _) fun _ => .outcome _
  | unary op e => exact .bind (h.evaluate _ e _) fun _ => .outcome _
  | binary op left right =>
    cases op with
    | and =>
      refine .bind (h.evaluate _ left _) fun v => ?_
      split
      · exact .bind (h.evaluate _ right _) fun _ => .pure _
      · exact .pure _
    | or =>
      refine .bind (h.evaluate _ left _) fun v => ?_
      split
      · exact .pure _
      · exact .bind (h.evaluate _ right _) fun _ => .pure _
    | _ =>
      exact .bind (h.evaluate _ left _) fun _ => .bind (h.evaluate _ right _) fun _ => .outcome _
  | conditional test yes no =>
    refine .bind (h.evaluate _ test _) fun v => ?_
    split
    · exact h.evaluate _ yes _
    · exact h.evaluate _ no _
  | member e name => exact .bind (h.evaluate _ e _) fun _ => h.member here _ _
  | index e i =>
    exact .bind (h.evaluate _ e _) fun _ => .bind (h.evaluate _ i _) fun _ => .outcome _
  | call target? name args =>
    cases target? with
    | none => exact h.callNamed here _ _ _
    | some e => exact .bind (h.evaluate _ e _) fun _ => h.callOn here _ _ _ _

end CountedLevel.CountsAs

/-- The level with the levels of `limit` that are left at a depth. -/
def levelFrom (limit depth : Nat) : Level :=
  ⟨Eval.evaluate .builtins limit (limit - depth), Eval.call .builtins limit (limit - depth)⟩

theorem evaluate_levelFrom (limit depth : Nat) (here : Trail) (e : Expr) (scope : Scope) :
    (levelFrom limit depth).evaluate here e scope =
      if limit ≤ depth then .error (.recursionLimit limit)
      else (levelFrom limit (depth + 1)).expression .builtins here scope e := by
  rw [levelFrom, levels_left]
  split <;> rfl

theorem call_levelFrom (limit depth : Nat) (here : Trail) (name : String) (args : List Value)
    (onTarget : Bool) :
    (levelFrom limit depth).call here name args onTarget = (do
      let (overload, args) ← Registry.builtins.resolve name args onTarget
      let level := levelFrom limit (depth + 1)
      if limit ≤ depth then .error (.recursionLimit limit)
      else overload.body (fun i => level.invoke .builtins (here.round i)) args) := by
  rw [levelFrom, levels_left]
  split <;> rfl

/-- With steps for all levels that the limit leaves, a level returns what evaluation comes to with
these levels. -/
theorem countsAs_level (limit steps : Nat) {c : Counters} (hsteps : limit - c .evaluation < steps) :
    CountedLevel.CountsAs c ⟨evaluate limit steps, call limit steps⟩
      (levelFrom limit (c .evaluation)) := by
  induction steps generalizing c with
  | zero => exact absurd hsteps (Nat.not_lt_zero _)
  | succ steps ih =>
    have hdepth : enter .evaluation c .evaluation = c .evaluation + 1 := Function.update_self ..
    have hinside (hlt : c .evaluation < limit) :
        CountedLevel.CountsAs (enter .evaluation c) ⟨evaluate limit steps, call limit steps⟩
          (levelFrom limit (c .evaluation + 1)) := by
      rw [← hdepth]
      exact ih (by omega)
    refine ⟨fun here e scope => ?_, fun here name args onTarget => ?_⟩
    · rw [evaluate_levelFrom]
      exact .nested fun hlt => (hinside hlt).expression here scope e
    · rw [call_levelFrom]
      refine .outcome_bind fun p hresolve => .nested fun hlt => ?_
      have hcallback (i : Nat) := (hinside hlt).invoke (r := .builtins) (here.round i)
      exact countsAs_builtins _ (Registry.mem_of_resolve hresolve) hcallback _

/-- What an evaluator is asked for. -/
inductive Request where
  | evaluate (here : Trail) (e : Expr) (scope : Scope)
  | invoke (here : Trail) (callable : Value) (args : List Value)
  | call (here : Trail) (name : String) (args : List Value) (onTarget : Bool)

namespace Request

def serve (limit steps : Nat) : Request → Counted EvalError Value
  | evaluate here e scope => Counted.evaluate limit steps here e scope
  | invoke here callable args =>
    CountedLevel.invoke ⟨Counted.evaluate limit steps, Counted.call limit steps⟩ .builtins here
      callable args
  | call here name args onTarget => Counted.call limit steps here name args onTarget

/-- What the request comes to with the levels that are left at a depth. -/
def outcome (limit depth : Nat) : Request → Outcome
  | evaluate here e scope => (levelFrom limit depth).evaluate here e scope
  | invoke here callable args => (levelFrom limit depth).invoke .builtins here callable args
  | call here name args onTarget => (levelFrom limit depth).call here name args onTarget

theorem returns_serve {limit steps : Nat} {c : Counters} (hsteps : limit - c .evaluation < steps)
    (q : Request) : Returns c (q.serve limit steps) (q.outcome limit (c .evaluation)) := by
  have hlevel := countsAs_level limit steps hsteps
  cases q with
  | evaluate here e scope => exact hlevel.evaluate here e scope
  | invoke here callable args => exact hlevel.invoke here callable args
  | call here name args onTarget => exact hlevel.call here name args onTarget

end Request

end Stencil.Counted

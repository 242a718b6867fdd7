import Stencil.Proofs.Eval.Limit

/-!
# Functions applied

A function is called with all its arguments behind its name, or with the first one in front of it.
What the name is bound to, if it is callable, and a member that the first argument has itself come
before a function. If neither is there, and there is a level for the call, the value of the call is
the one of the overload for the arguments, and for functions that allow a target it is the same in
both forms.
-/

namespace Stencil

namespace Registry

variable {r : Registry} {name : String} {args args' : List Value} {onTarget : Bool}

theorem resolve_of_best? {o : Overload}
    (h : best? args (r.candidates name args.length onTarget) = some o)
    (hargs : coerceAll o.signature 1 o.signature.params args = .ok args') :
    r.resolve name args onTarget = .ok (o, args') := by
  simp only [resolve, h, hargs]
  rfl

/-- An overload that no other one competes with is the one for a call. -/
theorem resolve_of_candidate {o : Overload} (h : r.candidates name args.length onTarget = [o])
    (hargs : coerceAll o.signature 1 o.signature.params args = .ok args') :
    r.resolve name args onTarget = .ok (o, args') := by
  apply resolve_of_best? _ hargs
  rw [h]
  rfl

theorem resolve_arrayWithCallable {o : Overload} (node : Node) (items : List Value) {p : Value}
    (h : r.candidates name 2 onTarget = [o]) (hparams : o.signature.params = [.array, .lambda])
    (hp : p.isCallable = true) :
    r.resolve name [.array node items, p] onTarget = .ok (o, [.array node items, p]) := by
  have hlambda : ParamKind.lambda.coerce? p = some p := if_pos hp
  apply resolve_of_candidate h
  rw [hparams]
  simp only [coerceAll, hlambda]
  rfl

/-- Every function of the name may be called behind a target. -/
def AllowsTarget (r : Registry) (name : String) : Prop :=
  ∀ o ∈ r.named name, o.signature.instanceCall = true

theorem candidates_onTarget (h : r.AllowsTarget name) (arity : Nat) :
    r.candidates name arity true = r.candidates name arity false := by
  apply List.filter_congr
  intro o ho
  simp [h o ho]

theorem resolve_onTarget (h : r.AllowsTarget name) (args : List Value) :
    r.resolve name args true = r.resolve name args false := by
  rw [resolve, candidates_onTarget h, resolve]

/-- Of two overloads, the second one is taken only if more of the arguments fit. -/
theorem best?_pair (args : List Value) (o o' : Overload) :
    best? args [o, o'] = if o.signature.score args < o'.signature.score args then some o' else o :=
  rfl

end Registry

namespace Eval

/-- The member that is called behind a target rather than a function. -/
def ownMember? (target : Value) (name : String) : Option Value :=
  match target with
  | .object _ members => Fields.get? members name
  | _ => none

/-- The expression calls the function of this name, and these are the arguments. -/
inductive Applies (level : Level) (here : Trail) (scope : Scope) (name : String) :
    Expr → List Value → (onTarget : Bool) → Prop
  | named {es : List Expr} {args : List Value} :
      (∀ v, scope.get? name = some v → v.isCallable = false) →
      level.all here scope 0 es = .ok args →
      Applies level here scope name (.call none name es) args false
  | behind {e : Expr} {es : List Expr} {target : Value} {args : List Value} :
      level.evaluate (here.part 0) e scope = .ok target →
      ownMember? target name = none →
      level.all here scope 1 es = .ok args →
      Applies level here scope name (.call (some e) name es) (target :: args) true

/-- What functions get to call back, if there are `depth` levels left for what they call. -/
def callbackAt (r : Registry) (limit depth : Nat) (here : Trail) : Callback :=
  fun i => (levelAt r limit depth).invoke r (here.round i)

variable {r : Registry} {limit depth : Nat} {here : Trail} {scope : Scope} {name : String}
  {e : Expr} {args args' : List Value} {onTarget : Bool}

theorem callOn_of_ownMember? {level : Level} {target : Value} (es : List Expr)
    (hmember : ownMember? target name = none) :
    level.callOn r here target name es scope =
      level.all here scope 1 es >>= fun args => level.call here name (target :: args) true := by
  cases target with
  | object node members =>
    have hget : Fields.get? members name = none := hmember
    simp only [Level.callOn, hget]
  | _ => rfl

theorem callNamed_of_unbound {level : Level} (es : List Expr)
    (hbound : ∀ v, scope.get? name = some v → v.isCallable = false) :
    level.callNamed r here name es scope =
      level.all here scope 0 es >>= fun args => level.call here name args false := by
  have hcallee : (scope.get? name).filter (·.isCallable) = none := by
    rw [Option.filter_eq_none_iff]
    intro v hv hcallable
    rw [hbound v hv] at hcallable
    cases hcallable
  rw [Level.callNamed, hcallee]

theorem Applies.expression {level : Level} (h : Applies level here scope name e args onTarget) :
    level.expression r here scope e = level.call here name args onTarget := by
  cases h with
  | named hbound hargs =>
    rw [Level.expression, callNamed_of_unbound _ hbound, hargs]
    rfl
  | behind htarget hmember hargs =>
    rw [Level.expression, htarget]
    exact (callOn_of_ownMember? _ hmember).trans (by rw [hargs]; rfl)

theorem call_of_resolve {o : Overload} (h : r.resolve name args onTarget = .ok (o, args')) :
    call r limit (depth + 1) here name args onTarget =
      o.body (callbackAt r limit depth here) args' := by
  simp only [call, h]
  rfl

theorem Applies.evaluate_eq_body {o : Overload}
    (h : Applies (levelAt r limit (depth + 1)) here scope name e args onTarget)
    (hresolve : r.resolve name args onTarget = .ok (o, args')) :
    evaluate r limit (depth + 2) here e scope = o.body (callbackAt r limit depth here) args' :=
  h.expression.trans (call_of_resolve hresolve)

theorem call_onTarget (h : r.AllowsTarget name) (limit depth : Nat) (here : Trail)
    (args : List Value) :
    call r limit depth here name args true = call r limit depth here name args false := by
  cases depth <;> simp only [call, Registry.resolve_onTarget h]

theorem expression_call_behind (level : Level) (es : List Expr)
    (hcall : ∀ args, level.call here name args true = level.call here name args false)
    (hbound : ∀ v, scope.get? name = some v → v.isCallable = false)
    (hmember : ∀ v, level.evaluate (here.part 0) e scope = .ok v → ownMember? v name = none) :
    level.expression r here scope (.call (some e) name es) =
      level.expression r here scope (.call none name (e :: es)) := by
  rw [Level.expression, Level.expression, callNamed_of_unbound _ hbound, Level.all]
  cases htarget : level.evaluate (here.part 0) e scope with
  | error e => rfl
  | ok target =>
    refine (callOn_of_ownMember? es (hmember target htarget)).trans ?_
    cases level.all here scope 1 es with
    | error e => rfl
    | ok args => exact hcall (target :: args)

/-- A call behind a target comes to the same as the call with the target for its first argument, if
the functions of the name allow a target and neither a member nor a bound callable comes first. -/
theorem evaluate_call_behind (limit depth : Nat) (here : Trail) (es : List Expr)
    (hallows : r.AllowsTarget name)
    (hbound : ∀ v, scope.get? name = some v → v.isCallable = false)
    (hmember : ∀ v, evaluate r limit (depth - 1) (here.part 0) e scope = .ok v →
      ownMember? v name = none) :
    evaluate r limit depth here (.call (some e) name es) scope =
      evaluate r limit depth here (.call none name (e :: es)) scope := by
  cases depth with
  | zero => rfl
  | succ depth =>
    exact expression_call_behind (levelAt r limit depth) es
      (call_onTarget hallows limit depth here) hbound hmember

/-- The lambda `x => x > 1`, and an array to filter with it. -/
def aboveOne : Expr :=
  .lambda ["x"] (.binary (.order .greater) (.name "x") (.integer 1))

def numbersScope : Scope :=
  [[("xs", .ofItems [.integer 3, .integer 1, .integer 2])]]

theorem evaluate_call_behind_of_filter :
    Registry.builtins.AllowsTarget "filter" ∧
      (∀ v, Scope.get? numbersScope "filter" = some v → v.isCallable = false) ∧
      (∀ v, evaluate .builtins 4 3 (Trail.part [] 0) (.name "xs") numbersScope = .ok v →
        ownMember? v "filter" = none) ∧
      evaluate .builtins 4 4 [] (.call (some (.name "xs")) "filter" [aboveOne]) numbersScope =
        .ok (.ofItems [.integer 3, .integer 2]) := by
  have hallows : Registry.builtins.AllowsTarget "filter" := by
    have hnamed : Registry.builtins.named "filter" = [Builtin.filter] := rfl
    rw [Registry.AllowsTarget, hnamed, List.forall_mem_singleton]
    rfl
  have hbound : ∀ v, Scope.get? numbersScope "filter" = some v → v.isCallable = false := nofun
  have hmember : ∀ v, evaluate .builtins 4 3 (Trail.part [] 0) (.name "xs") numbersScope = .ok v →
      ownMember? v "filter" = none := by
    intro v hv
    obtain rfl := Except.ok.inj hv
    rfl
  exact ⟨hallows, hbound, hmember, evaluate_call_behind 4 4 [] [aboveOne] hallows hbound hmember⟩

end Eval

end Stencil

import Mathlib.Data.List.Forall2
import Mathlib.Order.Bounds.Basic
import Stencil.Proofs.Agreement
import Stencil.Proofs.Eval.Applications
import Stencil.Proofs.Value.Captures

/-!
# References to functions

A reference to a function is called with as many of the arguments as the function takes. A lambda
that passes so many parameters on to the function does the same one level deeper: with one level
more it comes to the same outcome in every registry, and with as many levels wherever it does not
fail with the limit, in registries whose functions do not hide that failure.
-/

namespace Stencil

theorem Asks.agreeUnless {σ ι ε α γ : Type} {P : ε → Prop} {answer : σ → ι → Except ε γ}
    {f : σ → Except ε α} (hf : Asks P answer f) {s s' : σ}
    (h : ∀ q, AgreeUnless P (answer s' q) (answer s q)) : AgreeUnless P (f s') (f s) := by
  obtain ⟨calls, hcalls⟩ := hf s
  by_cases hfails : ∃ q ∈ calls, ∃ e, answer s q = .error e ∧ P e
  · obtain ⟨q, hq, e, he, hP⟩ := hfails
    exact .inr ⟨e, (hcalls.error_iff e hP).mpr ⟨q, hq, he⟩, hP⟩
  · refine .inl (hcalls.determined s' fun q hq => (h q).resolve_right ?_)
    rintro ⟨e, he, hP⟩
    exact hfails ⟨q, hq, e, he, hP⟩

theorem AsksLevels.agreeUnlessLimit {σ ι α γ : Type} {answer : σ → ι → Except EvalError γ}
    {f : σ → Except EvalError α} (hf : AsksLevels answer f) {s s' : σ}
    (h : ∀ q, AgreeUnless EvalError.IsLimit (answer s' q) (answer s q)) :
    AgreeUnless EvalError.IsLimit (f s') (f s) := by
  have hlimit : Asks EvalError.IsLimit answer f :=
    hf.mono fun _ he => EvalError.isPassedOn_iff.mpr (.inl he)
  exact hlimit.agreeUnless h

/-- The function does not hide that a callback runs out of levels: with a callback that does so less
often it comes to the same, unless it fails with the limit itself. -/
def Overload.PassesOnLimit (o : Overload) : Prop :=
  ∀ (callback callback' : Callback) (args : List Value),
    (∀ i v vs, AgreeUnless EvalError.IsLimit (callback' i v vs) (callback i v vs)) →
    AgreeUnless EvalError.IsLimit (o.body callback' args) (o.body callback args)

def Registry.PassesOnLimit (r : Registry) : Prop :=
  ∀ o ∈ r.overloads, o.PassesOnLimit

theorem Registry.AsksCallbacks.passesOnLimit {r : Registry} (hr : r.AsksCallbacks) :
    r.PassesOnLimit := by
  intro o ho callback callback' args h
  let answer (callback : Callback) (q : Nat × Value × List Value) : Outcome :=
    callback q.1 q.2.1 q.2.2
  have hasks : AsksLevels answer fun callback => o.body callback args :=
    hr o ho (fun i v vs => .call (i, v, vs)) args
  exact hasks.agreeUnlessLimit fun q => h q.1 q.2.1 q.2.2

namespace Eval

variable {r : Registry} {limit depth : Nat} {here : Trail}

theorem Level.agree_invoke {level level' : Level}
    (h : ∀ task, AgreeUnless EvalError.IsLimit (level'.answer task) (level.answer task))
    (here : Trail) (callable : Value) (args : List Value) :
    AgreeUnless EvalError.IsLimit (level'.invoke r here callable args)
      (level.invoke r here callable args) := by
  have hasks : AsksLevels Level.answer fun level => level.invoke r here callable args :=
    asks_invoke (fun task => .call task) EvalError.isForeign_of_isPassedOn here callable args
  exact hasks.agreeUnlessLimit h

theorem Level.agree_perform (hr : r.PassesOnLimit) {level level' : Level}
    (h : ∀ task, AgreeUnless EvalError.IsLimit (level'.answer task) (level.answer task))
    (task : Task) :
    AgreeUnless EvalError.IsLimit (level'.perform r task) (level.perform r task) := by
  cases task with
  | evaluate here e scope =>
    have hasks : AsksLevels Level.answer fun level => level.expression r here scope e :=
      asks_expression (fun task => .call task) here scope e
    exact hasks.agreeUnlessLimit h
  | call here name args onTarget =>
    cases hresolve : r.resolve name args onTarget with
    | error e =>
      simp only [perform, hresolve]
      exact .refl _ _
    | ok resolved =>
      simp only [perform, hresolve]
      exact hr _ (Registry.mem_of_resolve hresolve) _ _ _ fun i => agree_invoke h (here.round i)

/-- With one level more, tasks come to the same unless they failed with the limit. -/
theorem agree_levelAt (hr : r.PassesOnLimit) (limit depth : Nat) (task : Task) :
    AgreeUnless EvalError.IsLimit ((levelAt r limit (depth + 1)).answer task)
      ((levelAt r limit depth).answer task) := by
  induction depth generalizing task with
  | zero =>
    cases hrefusal : task.refusal? r with
    | some e => exact .inl ((answer_of_refused hrefusal).trans (answer_of_refused hrefusal).symm)
    | none => exact .inr ⟨_, answer_zero hrefusal, trivial⟩
  | succ depth ih =>
    rw [answer_levelAt_succ, answer_levelAt_succ]
    exact Level.agree_perform hr ih task

end Eval

namespace Registry

variable {r : Registry} {name : String} {n k : Nat}

theorem isGreatest_of_fittingArity? (h : r.fittingArity? name n = some k) :
    IsGreatest {arity | arity ≤ n ∧ r.acceptsArity name arity = true} k := by
  induction n with
  | zero =>
    obtain ⟨haccepts, hk⟩ := Option.ite_none_right_eq_some.mp h
    obtain rfl := Option.some.inj hk
    exact ⟨⟨Nat.le_refl 0, haccepts⟩, fun arity harity => harity.1⟩
  | succ n ih =>
    rw [fittingArity?] at h
    split at h
    · rename_i haccepts
      obtain rfl := Option.some.inj h
      exact ⟨⟨Nat.le_refl _, haccepts⟩, fun arity harity => harity.1⟩
    · rename_i haccepts
      obtain ⟨⟨hk, hkaccepts⟩, hmax⟩ := ih h
      refine ⟨⟨Nat.le_succ_of_le hk, hkaccepts⟩, fun arity ⟨harity, haccepted⟩ => ?_⟩
      have hne : arity ≠ n + 1 := by
        rintro rfl
        exact haccepts haccepted
      exact hmax ⟨by omega, haccepted⟩

theorem fittingArity?_eq_none_iff :
    r.fittingArity? name n = none ↔ ∀ arity ≤ n, r.acceptsArity name arity = false := by
  induction n with
  | zero => simp [fittingArity?]
  | succ n ih =>
    simp only [Nat.le_succ_iff, or_imp, forall_and, forall_eq]
    cases haccepts : r.acceptsArity name (n + 1) <;> simp [fittingArity?, haccepts, ih]

theorem fittingArity?_of_isGreatest
    (h : IsGreatest {arity | arity ≤ n ∧ r.acceptsArity name arity = true} k) :
    r.fittingArity? name n = some k := by
  cases hfitting : r.fittingArity? name n with
  | none =>
    have haccepts := fittingArity?_eq_none_iff.mp hfitting k h.1.1
    rw [h.1.2] at haccepts
    cases haccepts
  | some k' => rw [(isGreatest_of_fittingArity? hfitting).unique h]

end Registry

namespace Eval

variable {r : Registry} {limit depth : Nat} {here : Trail} {name : String} {params : List String}
  {args : List Value} {scope : Scope}

theorem get?_bindings (hnodup : params.Nodup) {i : Nat} {p : String} {v : Value}
    (hp : params[i]? = some p) (hv : args[i]? = some v) :
    Fields.get? (bindings params args) p = some v := by
  have hnames : Fields.names (params.mapIdx fun i name => (name, args[i]?.getD .null)) = params := by
    apply List.ext_getElem <;> simp [Fields.names]
  rw [bindings, Fields.ofList_of_nodup (hnames.symm ▸ hnodup),
    ← Fields.mem_iff_get? (hnames.symm ▸ hnodup), List.mem_mapIdx]
  obtain ⟨hlt, rfl⟩ := List.getElem?_eq_some_iff.mp hp
  exact ⟨i, hlt, by rw [hv]; rfl⟩

theorem get?_bindings_eq_none (h : name ∉ params) (args : List Value) :
    Fields.get? (bindings params args) name = none := by
  have hhas := (Value.has_bindings params args name).not.mpr h
  rwa [Fields.has_eq_isSome, Bool.not_eq_true, Option.isSome_eq_false_iff,
    Option.isNone_iff_eq_none] at hhas

theorem all_names {level : Level} {values : List Value}
    (h : List.Forall₂ (fun p v => ∀ here, level.evaluate here (.name p) scope = .ok v) params values)
    (i : Nat) : level.all here scope i (params.map .name) = .ok values := by
  induction h generalizing i with
  | nil => rfl
  | cons hp _ ih =>
    rw [List.map_cons, Level.all, hp, ih]
    rfl

/-- A level further down, the names of the parameters have the arguments for their values. -/
theorem all_params (hnodup : params.Nodup) (hlength : params.length ≤ args.length) :
    (levelAt r limit (depth + 1)).all here (bindings params args :: scope) 0
      (params.map .name) = .ok (args.take params.length) := by
  apply all_names
  rw [List.forall₂_iff_get]
  refine ⟨by rw [List.length_take_of_le hlength], fun i hparam harg here => ?_⟩
  have hbound : Scope.get? (bindings params args :: scope) params[i] =
      some ((args.take params.length)[i]) := by
    rw [Scope.get?_cons, get?_bindings hnodup (List.getElem?_eq_getElem hparam)
      (List.getElem?_eq_getElem (Nat.lt_of_lt_of_le hparam hlength)), Option.some_or,
      List.getElem_take]
  have hvalue : evaluate r limit (depth + 1) here (.name params[i])
      (bindings params args :: scope) = .ok ((args.take params.length)[i]) :=
    evaluate_name hbound
  exact hvalue

/-- A lambda that passes so many parameters on to the function of this name. -/
inductive PassesTo (name : String) (arity : Nat) : Value → Prop
  | lambda {origin : Trail} {params : List String} {scope : Scope} :
      params.length = arity → params.Nodup → name ∉ params → scope.get? name = none →
      PassesTo name arity (.lambda origin params (.call none name (params.map .name)) scope)

theorem expression_passing (level : Level) (hname : name ∉ params)
    (hscope : scope.get? name = none) :
    level.expression r here (bindings params args :: scope) (.call none name (params.map .name)) =
      level.all here (bindings params args :: scope) 0 (params.map .name) >>=
        fun args => level.call here name args false := by
  apply callNamed_of_unbound
  intro v hv
  rw [Scope.get?_cons, get?_bindings_eq_none hname, Option.none_or, hscope] at hv
  cases hv

variable {k : Nat} {v : Value}

theorem invoke_function_of_isGreatest (level : Level)
    (hk : IsGreatest {arity | arity ≤ args.length ∧ r.acceptsArity name arity = true} k) :
    level.invoke r here (.function name) args = level.call here name (args.take k) false := by
  rw [Level.invoke, Registry.fittingArity?_of_isGreatest hk]

theorem invoke_passing (hv : PassesTo name k v) (hk : k ≤ args.length) :
    (levelAt r limit (depth + 2)).invoke r here v args =
      (levelAt r limit (depth + 1)).call here name (args.take k) false := by
  cases hv with
  | lambda hlength hnodup hname hscope =>
    subst hlength
    refine (expression_passing (levelAt r limit (depth + 1)) hname hscope).trans ?_
    rw [all_params hnodup hk]
    rfl

/-- On the last level, a function without arguments is all that can be passed to. -/
theorem invoke_passing_last (hr : r.PassesOnLimit) (hv : PassesTo name k v) (hk : k ≤ args.length) :
    AgreeUnless EvalError.IsLimit ((levelAt r limit 1).call here name (args.take k) false)
      ((levelAt r limit 1).invoke r here v args) := by
  cases hv with
  | @lambda origin params scope hlength hnodup hname hscope =>
    cases params with
    | nil =>
      subst hlength
      have hinvoke : (levelAt r limit 1).invoke r here
          (.lambda origin [] (.call none name ([].map .name)) scope) args =
            (levelAt r limit 0).call here name [] false :=
        expression_passing (levelAt r limit 0) hname hscope
      rw [hinvoke]
      exact agree_levelAt hr limit 0 (.call here name [] false)
    | cons p params =>
      exact .inr ⟨_, expression_passing (levelAt r limit 0) hname hscope, trivial⟩

/-- A reference calls its function with the most arguments that the function takes, as a lambda does
that passes so many on, which is one level deeper: on one level more it comes to the same, and on
the same level it comes to the same or fails with the limit. -/
theorem invoke_reference (r : Registry) (name : String) (args : List Value) :
    (∀ k v, IsGreatest {arity | arity ≤ args.length ∧ r.acceptsArity name arity = true} k →
      PassesTo name k v → ∀ limit depth here,
        (levelAt r limit (depth + 2)).invoke r here v args =
          (levelAt r limit (depth + 1)).invoke r here (.function name) args ∧
        (r.PassesOnLimit → AgreeUnless EvalError.IsLimit
          ((levelAt r limit depth).invoke r here (.function name) args)
          ((levelAt r limit depth).invoke r here v args))) ∧
    ((∀ arity ≤ args.length, r.acceptsArity name arity = false) → ∀ limit depth here,
      (levelAt r limit depth).invoke r here (.function name) args =
        .error (.unknownFunction name args.length)) := by
  refine ⟨fun k v hk hv limit depth here => ⟨?_, fun hr => ?_⟩, fun hnone limit depth here => ?_⟩
  · rw [invoke_passing hv hk.1.1, invoke_function_of_isGreatest _ hk]
  · rw [invoke_function_of_isGreatest _ hk]
    match depth with
    | 0 => cases hv; exact .inr ⟨_, rfl, trivial⟩
    | 1 => exact invoke_passing_last hr hv hk.1.1
    | depth + 2 =>
      rw [invoke_passing hv hk.1.1]
      exact agree_levelAt hr limit (depth + 1) (.call here name (args.take k) false)
  · rw [Level.invoke, Registry.fittingArity?_eq_none_iff.mpr hnone]

/-- The lambda `(a, b, c) => sublist(a, b, c)`. -/
def sublistLambda : Value :=
  .lambda [] ["a", "b", "c"] (.call none "sublist" [.name "a", .name "b", .name "c"]) []

/-- An array and two places in it, and one argument more than the function takes. -/
def sublistArguments : List Value :=
  [.ofItems [.integer 7, .integer 8, .integer 9], .integer 1, .integer 2, .null]

theorem invoke_reference_of_sublist :
    IsGreatest {arity | arity ≤ 4 ∧ Registry.builtins.acceptsArity "sublist" arity = true} 3 ∧
      PassesTo "sublist" 3 sublistLambda ∧ Registry.builtins.PassesOnLimit ∧
      (levelAt .builtins 8 2).invoke .builtins [] sublistLambda sublistArguments =
        .ok (.ofItems [.integer 8]) ∧
      (levelAt .builtins 8 2).invoke .builtins [] (.function "sublist") sublistArguments =
        .ok (.ofItems [.integer 8]) ∧
      (levelAt .builtins 8 2).invoke .builtins [] (.function "sublist") [.null] =
        .error (.unknownFunction "sublist" 1) := by
  have hgreatest :
      IsGreatest {arity | arity ≤ 4 ∧ Registry.builtins.acceptsArity "sublist" arity = true} 3 := by
    refine ⟨⟨by decide, by decide⟩, fun arity ⟨hle, haccepts⟩ => ?_⟩
    by_contra hgt
    obtain rfl : arity = 4 := by omega
    exact absurd haccepts (by decide)
  have hpasses : PassesTo "sublist" 3 sublistLambda := .lambda rfl (by decide) (by decide) rfl
  have hlimit := Registry.asksCallbacks_builtins.passesOnLimit
  obtain ⟨hsame, -⟩ := invoke_reference .builtins "sublist" sublistArguments
  obtain ⟨-, hnone⟩ := invoke_reference .builtins "sublist" [.null]
  have hlambda : (levelAt .builtins 8 2).invoke .builtins [] sublistLambda sublistArguments =
      .ok (.ofItems [.integer 8]) :=
    (hsame 3 _ hgreatest hpasses 8 0 []).1.trans rfl
  refine ⟨hgreatest, hpasses, hlimit, hlambda, ?_, hnone (by decide) 8 2 []⟩
  rcases (hsame 3 _ hgreatest hpasses 8 2 []).2 hlimit with hagree | ⟨e, he, -⟩
  · exact hagree.trans hlambda
  · rw [hlambda] at he
    cases he

/-- A function that hides how its callable fails. -/
def attempt : Overload where
  signature := Signature.plain "attempt" [.lambda]
  body callback args := .ok (.boolean (callback 0 (args.headD .null) []).isOk)

/-- The lambda that gives 1 whatever it is called with. -/
def givesOne : Value :=
  .lambda [] [] (.integer 1) []

/-- The lambda `f => attempt(f)`. -/
def attemptLambda : Value :=
  .lambda [] ["f"] (.call none "attempt" [.name "f"]) []

/-- A function that hides the limit tells the levels apart, and so its lambda from its reference. -/
theorem reference_ne_lambda_of_attempt :
    IsGreatest {arity | arity ≤ [givesOne].length ∧
        (Registry.empty.register attempt).acceptsArity "attempt" arity = true} 1 ∧
      PassesTo "attempt" 1 attemptLambda ∧
      (levelAt (Registry.empty.register attempt) 2 2).invoke (Registry.empty.register attempt) []
        (.function "attempt") [givesOne] = .ok (.boolean true) ∧
      (levelAt (Registry.empty.register attempt) 2 2).invoke (Registry.empty.register attempt) []
        attemptLambda [givesOne] = .ok (.boolean false) :=
  ⟨⟨by decide, fun _ h => h.1⟩, .lambda rfl (by decide) (by decide) rfl, rfl, rfl⟩

end Eval

end Stencil

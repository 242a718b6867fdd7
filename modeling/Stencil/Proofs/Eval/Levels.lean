import Stencil.Proofs.Choice
import Stencil.Proofs.Eval.Calls

/-!
# Levels of evaluation

What a level is asked for is a task, and what it does for one it does with answers of the level
below it, of which it asks finitely many.
-/

namespace Stencil

namespace Registry

/-- The better of two overloads for these arguments. -/
def better (args : List Value) (best : Option Overload) (o : Overload) : Option Overload :=
  match best with
  | none => some o
  | some b => if b.signature.score args < o.signature.score args then some o else best

theorem better_eq_or_eq (args : List Value) (best : Option Overload) (o : Overload) :
    better args best o = best ∨ better args best o = some o := by
  cases best with
  | none => exact .inr rfl
  | some b => exact (ite_eq_or_eq _ _ _).symm

theorem mem_of_best? {args : List Value} {os : List Overload} {o : Overload}
    (h : best? args os = some o) : o ∈ os := by
  have hchosen : os.foldl (better args) none = some o := h
  exact (eq_or_mem_of_foldl (better_eq_or_eq args) hchosen).resolve_left nofun

theorem mem_of_mem_candidates {r : Registry} {name : String} {arity : Nat} {onTarget : Bool}
    {o : Overload} (h : o ∈ r.candidates name arity onTarget) : o ∈ r.overloads := by
  simp only [candidates, named, List.mem_filter] at h
  exact h.1.1

/-- What a call resolves to is a function of the registry. -/
theorem mem_of_resolve {r : Registry} {name : String} {args args' : List Value} {onTarget : Bool}
    {o : Overload} (h : r.resolve name args onTarget = .ok (o, args')) : o ∈ r.overloads := by
  rw [resolve] at h
  split at h
  · simp at h
  · rename_i o' hbest
    obtain ⟨_, -, heq⟩ := map_eq_ok.mp h
    rw [Prod.mk.injEq] at heq
    rw [← heq.1]
    exact mem_of_mem_candidates (mem_of_best? hbest)

theorem not_isPassedOn_of_resolve {r : Registry} {name : String} {args : List Value}
    {onTarget : Bool} {e : EvalError} (h : r.resolve name args onTarget = .error e) :
    ¬ e.IsPassedOn := by
  rw [resolve] at h
  split at h
  · rw [← Except.error.inj h]
    exact id
  · rename_i o _
    generalize coerceAll o.signature 1 o.signature.params args = coerced at h
    cases coerced with
    | ok args => simp [Except.mapError, Except.map] at h
    | error fault =>
      rw [← Except.error.inj h]
      exact id

end Registry

namespace Eval

/-- What a level is asked for. -/
inductive Task where
  | evaluate (here : Trail) (e : Expr) (scope : Scope)
  | call (here : Trail) (name : String) (args : List Value) (onTarget : Bool)

namespace Level

def answer (level : Level) : Task → Outcome
  | .evaluate here e scope => level.evaluate here e scope
  | .call here name args onTarget => level.call here name args onTarget

/-- What is done for a task with answers of the level below. -/
def perform (level : Level) (r : Registry) : Task → Outcome
  | .evaluate here e scope => level.expression r here scope e
  | .call here name args onTarget => do
    let (overload, args) ← r.resolve name args onTarget
    overload.body (fun i => level.invoke r (here.round i)) args

section

variable {σ ι γ : Type} {P : EvalError → Prop} {reply : σ → ι → Except EvalError γ}
  {level : σ → Level} {r : Registry} {here : Trail} {scope : Scope}

section

variable (hlevel : ∀ task, Asks P reply fun s => (level s).answer task)
include hlevel

theorem asks_evaluate (here : Trail) (e : Expr) (scope : Scope) :
    Asks P reply fun s => (level s).evaluate here e scope :=
  hlevel (.evaluate here e scope)

theorem asks_call (here : Trail) (name : String) (args : List Value) (onTarget : Bool) :
    Asks P reply fun s => (level s).call here name args onTarget :=
  hlevel (.call here name args onTarget)

theorem asks_all (i : Nat) (es : List Expr) :
    Asks P reply fun s => (level s).all here scope i es := by
  induction es generalizing i with
  | nil => exact .ok _
  | cons e es ih =>
    apply Asks.bind (asks_evaluate hlevel _ e scope)
    intro v
    exact .bind (ih (i + 1)) fun _ => .ok _

theorem asks_members (i : Nat) (es : List (String × Expr)) :
    Asks P reply fun s => (level s).members here scope i es := by
  induction es generalizing i with
  | nil => exact .ok _
  | cons e es ih =>
    apply Asks.bind (asks_evaluate hlevel _ e.2 scope)
    intro v
    exact .bind (ih (i + 1)) fun _ => .ok _

variable (hP : ∀ e, P e → e.IsForeign)
include hP

theorem asks_invoke (here : Trail) (callable : Value) (args : List Value) :
    Asks P reply fun s => (level s).invoke r here callable args := by
  unfold invoke
  split
  · exact asks_evaluate hlevel _ _ _
  · split
    · exact asks_call hlevel _ _ _ _
    · exact .error (hP _)
  · exact .error (hP _)

theorem asks_callOn (here : Trail) (target : Value) (name : String) (args : List Expr)
    (scope : Scope) : Asks P reply fun s => (level s).callOn r here target name args scope := by
  unfold callOn
  apply Asks.bind (asks_all hlevel 1 args)
  intro args
  split
  · split
    · exact asks_invoke hlevel hP _ _ _
    · exact .error (hP _)
  · exact asks_call hlevel _ _ _ _

theorem asks_callNamed (here : Trail) (name : String) (args : List Expr) (scope : Scope) :
    Asks P reply fun s => (level s).callNamed r here name args scope := by
  unfold callNamed
  apply Asks.bind (asks_all hlevel 0 args)
  intro args
  split
  · exact asks_invoke hlevel hP _ _ _
  · exact asks_call hlevel _ _ _ _

/-- Whatever an expression is, its value takes finitely many answers of the level below, if those
of members do. -/
theorem asks_expression_of_member
    (hmember : ∀ target name, Asks P reply fun s => (level s).member here target name)
    (scope : Scope) (e : Expr) :
    Asks P reply fun s => (level s).expression r here scope e := by
  have hevaluate (i : Nat) (e : Expr) :
      Asks P reply fun s => (level s).evaluate (here.part i) e scope :=
    asks_evaluate hlevel _ _ _
  cases e with
  | float | integer | string | boolean | null | lambda => exact .ok _
  | name name =>
    simp only [expression, lookup]
    split
    · exact .ok _
    · split
      · exact .ok _
      · exact .error (hP _)
  | array items => exact (asks_all hlevel 0 items).map _
  | object ms => exact (asks_members hlevel 0 ms).map _
  | range first last =>
    exact .bind (hevaluate 0 first) fun _ => .bind (hevaluate 1 last) fun _ =>
      .const ((Value.avoids_range _ _).mono hP)
  | unary op e => exact .bind (hevaluate 0 e) fun _ => .const ((Value.avoids_unary _ _).mono hP)
  | binary op left right =>
    cases op with
    | and =>
      apply Asks.bind (hevaluate 0 left)
      intro v
      split
      · exact .bind (hevaluate 1 right) fun _ => .ok _
      · exact .ok _
    | or =>
      apply Asks.bind (hevaluate 0 left)
      intro v
      split
      · exact .ok _
      · exact .bind (hevaluate 1 right) fun _ => .ok _
    | _ =>
      apply Asks.bind (hevaluate 0 left)
      intro v
      exact .bind (hevaluate 1 right) fun _ => .const ((Value.avoids_binary _ _ _).mono hP)
  | conditional test yes no =>
    apply Asks.bind (hevaluate 0 test)
    intro v
    split
    · exact hevaluate 1 yes
    · exact hevaluate 2 no
  | member e name => exact .bind (hevaluate 0 e) fun _ => hmember _ _
  | index e i =>
    exact .bind (hevaluate 0 e) fun _ => .bind (hevaluate 1 i) fun _ =>
      .const ((Value.avoids_index _ _).mono hP)
  | call target? name args =>
    cases target? with
    | none => exact asks_callNamed hlevel hP _ _ _ _
    | some e => exact .bind (hevaluate 0 e) fun _ => asks_callOn hlevel hP _ _ _ _ _

end

section

variable (hlevel : ∀ task, AsksLevels reply fun s => (level s).answer task)
include hlevel

/-- A missing member hides what a function fails with, but not the limit and no conflict. -/
theorem asks_member (here : Trail) (target : Value) (name : String) :
    AsksLevels reply fun s => (level s).member here target name := by
  have hcall := asks_call hlevel here name [target] true
  unfold member
  split
  · split
    · exact .ok _
    · apply hcall.handle
      · intro s s' h
        simp only [h]
      · intro s e he
        generalize (level s).call here name _ true = x
        cases e <;> first | exact he.elim | (split <;> simp)
  · apply hcall.handle
    · intro s s' h
      simp only [h]
    · intro s e he
      generalize (level s).call here name _ true = x
      cases e <;> first | exact he.elim | (split <;> simp)

theorem asks_expression (here : Trail) (scope : Scope) (e : Expr) :
    AsksLevels reply fun s => (level s).expression r here scope e :=
  asks_expression_of_member hlevel EvalError.isForeign_of_isPassedOn (asks_member hlevel here)
    scope e

theorem asks_perform (hr : r.AsksCallbacks) (task : Task) :
    AsksLevels reply fun s => (level s).perform r task := by
  cases task with
  | evaluate here e scope => exact asks_expression hlevel _ _ _
  | call here name args onTarget =>
    cases hresolve : r.resolve name args onTarget with
    | error e =>
      simp only [perform, hresolve]
      exact .error (Registry.not_isPassedOn_of_resolve hresolve)
    | ok resolved =>
      simp only [perform, hresolve]
      have hcallback (i : Nat) (callable : Value) (args : List Value) :=
        asks_invoke (r := r) hlevel EvalError.isForeign_of_isPassedOn (here.round i) callable args
      exact hr _ (Registry.mem_of_resolve hresolve) hcallback _

end

end

end Level

end Eval

end Stencil

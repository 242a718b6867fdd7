import Stencil.Proofs.Eval.Levels

/-!
# The limit on levels

A tree of calls leads a task to its outcome. Without a cutoff there is no limit in it: a task that
calls itself for ever yields nothing, however high the trees may be. With a cutoff, tasks for which
there is no level fail with it. Evaluation with so many levels left comes to what the trees of that
height yield, cut off by the failure for the limit: so all tasks end. What a tree yields without a
cutoff does not depend on the limit, and where none yields anything evaluation fails with it.
-/

namespace Stencil.Eval

/-- Why a call does not get as far as to enter a function. -/
def Task.refusal? (r : Registry) : Task → Option EvalError
  | .evaluate .. => none
  | .call _ name args onTarget =>
    match r.resolve name args onTarget with
    | .error e => some e
    | .ok _ => none

/-- The outcome of a task by a finite tree of calls, with at most `height` levels one inside the
other. -/
inductive Yields (r : Registry) (cutoff : Option EvalError) :
    (height : Nat) → Task → Outcome → Prop
  | refused {height task e} : task.refusal? r = some e → Yields r cutoff height task (.error e)
  | cut {task e} : cutoff = some e → task.refusal? r = none → Yields r cutoff 0 task (.error e)
  | performed {height task o} (calls : List (Task × Outcome)) :
      (∀ c ∈ calls, Yields r cutoff height c.1 c.2) →
      Determines Level.answer (Level.perform · r task) calls o →
      Yields r cutoff (height + 1) task o

/-- The level with `depth` levels left, of `limit` altogether. -/
def levelAt (r : Registry) (limit depth : Nat) : Level :=
  ⟨evaluate r limit depth, call r limit depth⟩

theorem evaluate_name {r : Registry} {limit depth : Nat} {here : Trail} {scope : Scope}
    {name : String} {v : Value} (hscope : Scope.get? scope name = some v) :
    evaluate r limit (depth + 1) here (.name name) scope = .ok v := by
  simp [evaluate, Level.expression, lookup, hscope]

theorem answer_levelAt_succ (r : Registry) (limit depth : Nat) (task : Task) :
    (levelAt r limit (depth + 1)).answer task = (levelAt r limit depth).perform r task := by
  cases task <;> rfl

/-- A level asks the one below it. -/
theorem Level.asks_perform_self {r : Registry} (hr : r.AsksCallbacks) (task : Task) :
    Asks EvalError.IsLimit Level.answer fun level => level.perform r task :=
  (asks_perform (fun task => .call task) hr task).mono
    fun _ he => EvalError.isPassedOn_iff.mpr (.inl he)

/-- A level makes no conflicts, and passes on those of the one below it. -/
theorem Level.asks_perform_conflict {r : Registry} (hr : r.AsksCallbacks) (task : Task) :
    Asks EvalError.IsConflict Level.answer fun level => level.perform r task :=
  (asks_perform (fun task => .call task) hr task).mono
    fun _ he => EvalError.isPassedOn_iff.mpr (.inr he)

theorem answer_of_refused {r : Registry} {limit depth : Nat} {task : Task} {e : EvalError}
    (h : task.refusal? r = some e) : (levelAt r limit depth).answer task = .error e := by
  cases task with
  | evaluate here e' scope => cases h
  | call here name args onTarget =>
    rw [Task.refusal?] at h
    split at h
    · rename_i hresolve
      rw [Option.some.inj h] at hresolve
      cases depth <;> simp only [Level.answer, levelAt, call, hresolve] <;> rfl
    · cases h

/-- Without levels there is no evaluation, and no function is entered. -/
theorem answer_zero {r : Registry} {limit : Nat} {task : Task} (h : task.refusal? r = none) :
    (levelAt r limit 0).answer task = .error (.recursionLimit limit) := by
  cases task with
  | evaluate here e scope => rfl
  | call here name args onTarget =>
    rw [Task.refusal?] at h
    split at h
    · cases h
    · rename_i hresolve
      simp only [Level.answer, levelAt, call, hresolve]
      rfl

theorem not_isPassedOn_of_refused {r : Registry} {task : Task} {e : EvalError}
    (h : task.refusal? r = some e) : ¬ e.IsPassedOn := by
  cases task with
  | evaluate here e' scope => cases h
  | call here name args onTarget =>
    rw [Task.refusal?] at h
    split at h
    · rename_i hresolve
      exact Option.some.inj h ▸ Registry.not_isPassedOn_of_resolve hresolve
    · cases h

/-- There are no merges in an evaluation. -/
theorem avoids_conflict {r : Registry} (hr : r.AsksCallbacks) (limit depth : Nat) (task : Task) :
    Avoids EvalError.IsConflict ((levelAt r limit depth).answer task) := by
  intro e h he
  induction depth generalizing task with
  | zero =>
    cases hrefusal : task.refusal? r with
    | some e' =>
      rw [answer_of_refused hrefusal] at h
      exact absurd (EvalError.isPassedOn_iff.mpr (.inr he))
        (Except.error.inj h ▸ not_isPassedOn_of_refused hrefusal)
    | none =>
      rw [answer_zero hrefusal] at h
      exact (Except.error.inj h ▸ he : EvalError.IsConflict (.recursionLimit limit))
  | succ depth ih =>
    rw [answer_levelAt_succ] at h
    obtain ⟨task', htask'⟩ := (Level.asks_perform_conflict hr task).exists_error h he
    exact ih task' htask'

/-- Evaluation comes to what the trees of calls yield that the limit cuts off. -/
theorem yields_cutoff_iff {r : Registry} (hr : r.AsksCallbacks) {limit depth : Nat} {task : Task}
    {o : Outcome} :
    Yields r (some (.recursionLimit limit)) depth task o ↔
      (levelAt r limit depth).answer task = o := by
  constructor
  · intro h
    induction h with
    | refused hrefused => exact answer_of_refused hrefused
    | cut hcutoff hentered => rw [answer_zero hentered, Option.some.inj hcutoff]
    | performed calls _ hdetermines ih =>
      rw [answer_levelAt_succ]
      exact hdetermines _ ih
  · rintro rfl
    induction depth generalizing task with
    | zero =>
      cases hrefusal : task.refusal? r with
      | some e =>
        rw [answer_of_refused hrefusal]
        exact .refused hrefusal
      | none =>
        rw [answer_zero hrefusal]
        exact .cut rfl hrefusal
    | succ depth ih =>
      rw [answer_levelAt_succ]
      obtain ⟨calls, hcalls, hdetermines⟩ :=
        (Level.asks_perform_self hr task).exists_determines (levelAt r limit depth)
      exact .performed calls (fun c hc => (hcalls c hc).1 ▸ ih) hdetermines

theorem answer_of_yields {r : Registry} {height : Nat} {task : Task} {o : Outcome}
    (h : Yields r none height task o) (limit : Nat) {depth : Nat} (hdepth : height ≤ depth) :
    (levelAt r limit depth).answer task = o := by
  induction h generalizing depth with
  | refused hrefused => exact answer_of_refused hrefused
  | cut hcutoff => cases hcutoff
  | performed calls _ hdetermines ih =>
    obtain ⟨depth, rfl⟩ : ∃ d, depth = d + 1 := ⟨depth - 1, by omega⟩
    rw [answer_levelAt_succ]
    exact hdetermines _ fun c hc => ih c hc (by omega)

/-- The limit that is reported is the one in force. -/
theorem eq_limit_of_answer {r : Registry} (hr : r.AsksCallbacks) {limit depth : Nat} {task : Task}
    {e : EvalError} (h : (levelAt r limit depth).answer task = .error e) (he : e.IsLimit) :
    e = .recursionLimit limit := by
  induction depth generalizing task with
  | zero =>
    cases hrefusal : task.refusal? r with
    | some e' =>
      rw [answer_of_refused hrefusal] at h
      exact absurd (EvalError.isPassedOn_iff.mpr (.inl he))
        (Except.error.inj h ▸ not_isPassedOn_of_refused hrefusal)
    | none =>
      rw [answer_zero hrefusal] at h
      exact (Except.error.inj h).symm
  | succ depth ih =>
    rw [answer_levelAt_succ] at h
    obtain ⟨task', htask'⟩ := (Level.asks_perform_self hr task).exists_error h he
    exact ih htask'

theorem avoids_of_yields {r : Registry} (hr : r.AsksCallbacks) {height : Nat} {task : Task}
    {o : Outcome} (h : Yields r none height task o) : Avoids EvalError.IsLimit o := by
  rintro e rfl he
  -- The outcome is the same for every limit, and a failure would show the limit.
  have hzero := eq_limit_of_answer hr (answer_of_yields h 0 (Nat.le_refl _)) he
  have hone := eq_limit_of_answer hr (answer_of_yields h 1 (Nat.le_refl _)) he
  simp [hzero] at hone

theorem yields_of_answer {r : Registry} (hr : r.AsksCallbacks) {limit depth : Nat} {task : Task}
    (h : Avoids EvalError.IsLimit ((levelAt r limit depth).answer task)) :
    Yields r none depth task ((levelAt r limit depth).answer task) := by
  induction depth generalizing task with
  | zero =>
    cases hrefusal : task.refusal? r with
    | some e =>
      rw [answer_of_refused hrefusal]
      exact .refused hrefusal
    | none => exact absurd trivial (h _ (answer_zero hrefusal))
  | succ depth ih =>
    rw [answer_levelAt_succ] at h ⊢
    obtain ⟨calls, hcalls, hdetermines⟩ :=
      (Level.asks_perform_self hr task).exists_determines (levelAt r limit depth)
    refine .performed calls (fun c hc => ?_) hdetermines
    obtain ⟨hanswer, havoids⟩ := hcalls c hc
    rw [← hanswer] at havoids ⊢
    exact ih (havoids h)

/-- What a task yields is what it comes to, unless that is the limit. -/
theorem yields_iff {r : Registry} (hr : r.AsksCallbacks) (limit : Nat) {depth : Nat} {task : Task}
    {o : Outcome} :
    Yields r none depth task o ↔
      (levelAt r limit depth).answer task = o ∧ Avoids EvalError.IsLimit o := by
  constructor
  · exact fun h => ⟨answer_of_yields h limit (Nat.le_refl _), avoids_of_yields hr h⟩
  · rintro ⟨rfl, h⟩
    exact yields_of_answer hr h

/-- A task fails with the limit exactly if no tree of calls of that height yields anything. -/
theorem answer_eq_limit_iff {r : Registry} (hr : r.AsksCallbacks) {limit depth : Nat}
    {task : Task} :
    (levelAt r limit depth).answer task = .error (.recursionLimit limit) ↔
      ∀ o, ¬ Yields r none depth task o := by
  rw [forall_not_iff_of_avoids fun o => yields_iff hr limit]
  constructor
  · exact fun h => ⟨_, h, trivial⟩
  · rintro ⟨e, he, hlimit⟩
    rw [he, eq_limit_of_answer hr he hlimit]

end Stencil.Eval

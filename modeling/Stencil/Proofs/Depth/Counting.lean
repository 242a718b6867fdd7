import Mathlib.Logic.Function.Basic
import Stencil.Proofs.Success

/-!
# Runs that keep count of their depth

A program can pass down how many levels are left, or keep count of the levels that it is in: one
more where it enters a level, one less where it leaves it. A run that counts returns an outcome if
it comes to an end with it and leaves the counters as they were. This goes through a computation
step by step, and through a level because what is counted on the way in is taken off on the way out,
whether the computation inside has failed or not.
-/

namespace Stencil

/-- What depths are counted of: evaluation, and the resolving of documents. -/
inductive Counter where
  | evaluation
  | document
deriving DecidableEq

abbrev Counters := Counter → Nat

def enter (k : Counter) (c : Counters) : Counters :=
  Function.update c k (c k + 1)

def leave (k : Counter) (c : Counters) : Counters :=
  Function.update c k (c k - 1)

theorem leave_enter (k : Counter) (c : Counters) : leave k (enter k c) = c := by
  rw [leave, enter, Function.update_self, Nat.add_sub_cancel, Function.update_idem,
    Function.update_eq_self]

/-- At a depth either no level is left, or one more than at the next depth. -/
theorem levels_left (limit depth : Nat) :
    limit - depth = if limit ≤ depth then 0 else limit - (depth + 1) + 1 := by
  split <;> omega

/-- A run that can fail and works on the counters, or has not come to an end yet. -/
abbrev Counted (ε α : Type) := ExceptT ε (StateT Counters Option) α

namespace Counted

variable {ε ε' α β : Type}

/-- Not at an end after the steps that it was given. -/
def unfinished : Counted ε α :=
  ExceptT.mk fun _ => none

def outcome (o : Except ε α) : Counted ε α :=
  ExceptT.mk (pure o)

/-- The outcome as a result, so that a failure does not end the run. -/
def attempt (x : Counted ε α) : Counted ε' (Except ε α) :=
  ExceptT.lift x.run

/-- Hands the outcome on to `f`, whether it is a failure or not. -/
def handle (x : Counted ε α) (f : Except ε α → Except ε' β) : Counted ε' β := do
  outcome (f (← attempt x))

/-- One level deeper, unless the limit is reached. The level is left whatever comes of `x`. -/
def nested (k : Counter) (limit : Nat) (tooDeep : ε) (x : Counted ε α) : Counted ε α := do
  let counters ← get
  if limit ≤ counters k then throw tooDeep
  else
    modify (enter k)
    let o ← attempt x
    modify (leave k)
    outcome o

theorem run_bind {c c' : Counters} {x : Counted ε α} {f : α → Counted ε β} {a : α}
    (hx : x.run.run c = some (.ok a, c')) : (x >>= f).run.run c = (f a).run.run c' := by
  rw [ExceptT.run_bind, StateT.run_bind, hx]
  rfl

theorem run_attempt {c c' : Counters} {x : Counted ε α} {o : Except ε α}
    (hx : x.run.run c = some (o, c')) :
    (attempt x : Counted ε' (Except ε α)).run.run c = some (.ok o, c') := by
  rw [attempt, ExceptT.run_lift, StateT.run_map, hx]
  rfl

/-- Requests served one after another, each with its outcome and the counters behind it. -/
def session {ι : Type} (serve : ι → Counted ε α) :
    List ι → StateT Counters Option (List (Except ε α × Counters))
  | [] => pure []
  | q :: qs => do
    let o ← (serve q).run
    let counters ← get
    return (o, counters) :: (← session serve qs)

/-- The run comes to the outcome `o` and leaves the counters as they were. -/
def Returns (c : Counters) (x : Counted ε α) (o : Except ε α) : Prop :=
  x.run.run c = some (o, c)

namespace Returns

variable {c : Counters} {x : Counted ε α} {o : Except ε α}

theorem outcome (o : Except ε α) : Returns c (outcome o) o :=
  rfl

theorem pure (a : α) : Returns c (pure a : Counted ε α) (.ok a) :=
  rfl

theorem throw (e : ε) : Returns c (throw e : Counted ε α) (.error e) :=
  rfl

theorem bind {f : α → Counted ε β} {g : α → Except ε β} (hx : Returns c x o)
    (hf : ∀ a, Returns c (f a) (g a)) : Returns c (x >>= f) (o >>= g) := by
  cases o with
  | ok a => exact (run_bind hx).trans (hf a)
  | error e =>
    rw [Returns, ExceptT.run_bind, StateT.run_bind, show x.run.run c = _ from hx]
    rfl

/-- An outcome that is given, of which the next step may use that it is a success. -/
theorem outcome_bind {f : α → Counted ε β} {g : α → Except ε β}
    (hf : ∀ a, o = .ok a → Returns c (f a) (g a)) :
    Returns c (Counted.outcome o >>= f) (o >>= g) := by
  cases o with
  | ok a => exact hf a rfl
  | error e => rfl

theorem map (hx : Returns c x o) (f : α → β) : Returns c (f <$> x) (o.map f) := by
  rw [map_eq_pure_bind]
  have h := hx.bind (f := fun a => Pure.pure (f a)) fun a => .pure (f a)
  cases o <;> exact h

theorem attempt (hx : Returns c x o) : Returns c (attempt x : Counted ε' (Except ε α)) (.ok o) :=
  run_attempt hx

theorem handle (hx : Returns c x o) (f : Except ε α → Except ε' β) :
    Returns c (Counted.handle x f) (f o) :=
  hx.attempt.bind fun o => .outcome (f o)

theorem nested {k : Counter} {limit : Nat} {tooDeep : ε}
    (hx : c k < limit → Returns (enter k c) x o) :
    Returns c (Counted.nested k limit tooDeep x) (if limit ≤ c k then .error tooDeep else o) := by
  have hget : (get : Counted ε Counters).run.run c = some (.ok c, c) := rfl
  rw [Returns, Counted.nested, run_bind hget]
  split
  · rfl
  · rename_i hlimit
    have hinside : (Counted.attempt x : Counted ε _).run.run (enter k c) =
        some (.ok o, enter k c) :=
      run_attempt (hx (Nat.lt_of_not_le hlimit))
    rw [run_bind rfl, run_bind hinside, run_bind rfl, leave_enter]
    rfl

end Returns

/-- Requests that leave no trace come to what each of them comes to alone. -/
theorem run_session {ι : Type} {c : Counters} {serve : ι → Counted ε α} {f : ι → Except ε α}
    (h : ∀ q, Returns c (serve q) (f q)) (qs : List ι) :
    (session serve qs).run c = some (qs.map fun q => (f q, c), c) := by
  induction qs with
  | nil => rfl
  | cons q qs ih =>
    rw [session, StateT.run_bind, show (serve q).run.run c = _ from h q]
    simp [ih]

end Counted

end Stencil

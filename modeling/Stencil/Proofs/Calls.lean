import Mathlib.Data.List.Basic
import Stencil.Proofs.Success

/-!
# Computations that ask for answers

A computation is given a source of answers, and asks it for finitely many of them: these determine
its outcome. Failures of the kind `P` are only passed on: the computation fails with one of them
exactly if one of the answers is that failure.
-/

namespace Stencil

variable {σ ι ε α β γ : Type} {P : ε → Prop} {answer : σ → ι → Except ε γ}

/-- The outcome is no failure of the kind `P`. -/
def Avoids (P : ε → Prop) (x : Except ε α) : Prop :=
  ∀ e, x = .error e → ¬ P e

theorem Avoids.ok (a : α) : Avoids P (.ok a) := by
  simp [Avoids]

theorem Avoids.error {e : ε} (he : ¬ P e) : Avoids P (.error e : Except ε α) := by
  simpa [Avoids] using he

theorem Avoids.bind {x : Except ε α} {f : α → Except ε β} (hx : Avoids P x)
    (hf : ∀ a, Avoids P (f a)) : Avoids P (x >>= f) := by
  intro e h
  rcases bind_eq_error.mp h with h | ⟨a, -, h⟩
  · exact hx e h
  · exact hf a e h

theorem Avoids.map {x : Except ε α} {f : α → β} (hx : Avoids P x) : Avoids P (x.map f) :=
  fun e h => hx e (map_eq_error.mp h)

theorem Avoids.mono {Q : ε → Prop} {x : Except ε α} (hx : Avoids P x) (hQP : ∀ e, Q e → P e) :
    Avoids Q x :=
  fun e h he => hx e h (hQP e he)

theorem not_avoids_iff {x : Except ε α} : ¬ Avoids P x ↔ ∃ e, x = .error e ∧ P e := by
  simp [Avoids]

/-- Outcomes that are given unless they are such a failure: none is given exactly if it is one. -/
theorem forall_not_iff_of_avoids {R : Except ε α → Prop} {x : Except ε α}
    (hR : ∀ o, R o ↔ x = o ∧ Avoids P o) : (∀ o, ¬ R o) ↔ ∃ e, x = .error e ∧ P e := by
  rw [← not_avoids_iff]
  constructor
  · exact fun h havoids => h x ((hR x).mpr ⟨rfl, havoids⟩)
  · intro h o ho
    obtain ⟨rfl, havoids⟩ := (hR o).mp ho
    exact h havoids

/-- Every source that gives these answers leads to this outcome. -/
def Determines (answer : σ → ι → Except ε γ) (f : σ → Except ε α)
    (calls : List (ι × Except ε γ)) (o : Except ε α) : Prop :=
  ∀ s, (∀ c ∈ calls, answer s c.1 = c.2) → f s = o

/-- What a computation asks a source for. -/
structure AsksFor (P : ε → Prop) (answer : σ → ι → Except ε γ) (f : σ → Except ε α) (s : σ)
    (calls : List ι) : Prop where
  determined : ∀ s', (∀ q ∈ calls, answer s' q = answer s q) → f s' = f s
  error_iff : ∀ e, P e → (f s = .error e ↔ ∃ q ∈ calls, answer s q = .error e)

/-- Whatever the source, finitely many of its answers count. -/
def Asks (P : ε → Prop) (answer : σ → ι → Except ε γ) (f : σ → Except ε α) : Prop :=
  ∀ s, ∃ calls, AsksFor P answer f s calls

namespace Asks

theorem const {x : Except ε α} (hx : Avoids P x) :
    Asks P answer fun _ : σ => x :=
  fun s => ⟨[], fun _ _ => rfl, fun e he => by simpa using fun h => hx e h he⟩

theorem ok (a : α) : Asks P answer fun _ : σ => (.ok a : Except ε α) :=
  .const (.ok a)

theorem error {e : ε} (he : ¬ P e) : Asks P answer fun _ : σ => (.error e : Except ε α) :=
  .const (.error he)

theorem call (q : ι) : Asks P answer (answer · q) :=
  fun s => ⟨[q], fun _ h => h q (by simp), by simp⟩

/-- A failure of the first step ends the computation; else the second step asks on. -/
theorem bind {f : σ → Except ε α} {g : α → σ → Except ε β} (hf : Asks P answer f)
    (hg : ∀ a, Asks P answer (g a)) : Asks P answer fun s => f s >>= (g · s) := by
  intro s
  obtain ⟨calls, h⟩ := hf s
  cases hfs : f s with
  | error e =>
    refine ⟨calls, fun s' hs' => ?_, fun e' he' => ?_⟩
    · simp only [h.determined s' hs', hfs]
      rfl
    · rw [← h.error_iff e' he', hfs]
      change Except.error e = Except.error e' ↔ _
      simp
  | ok a =>
    obtain ⟨calls', h'⟩ := hg a s
    have hbind (s' : σ) (hs' : f s' = .ok a) : (f s' >>= (g · s')) = g a s' := by
      rw [hs']
      rfl
    refine ⟨calls ++ calls', fun s' hs' => ?_, fun e he => ?_⟩
    · have hfs' : f s' = .ok a :=
        (h.determined s' fun q hq => hs' q (List.mem_append_left _ hq)).trans hfs
      simp only [hbind s' hfs', hbind s hfs]
      exact h'.determined s' fun q hq => hs' q (List.mem_append_right _ hq)
    · simp only [hbind s hfs, h'.error_iff e he, List.mem_append]
      have hnone : ¬ ∃ q ∈ calls, answer s q = .error e := by
        rw [← h.error_iff e he, hfs]
        simp
      constructor
      · rintro ⟨q, hq, hqe⟩
        exact ⟨q, .inr hq, hqe⟩
      · rintro ⟨q, hq | hq, hqe⟩
        · exact absurd ⟨q, hq, hqe⟩ hnone
        · exact ⟨q, hq, hqe⟩

/-- What is made of an outcome may hide failures, but none of the kind `P`. -/
theorem handle {f : σ → Except ε α} {g : σ → Except ε β} (hf : Asks P answer f)
    (hdetermined : ∀ s s', f s' = f s → g s' = g s)
    (herror : ∀ s e, P e → (g s = .error e ↔ f s = .error e)) : Asks P answer g := by
  intro s
  obtain ⟨calls, h⟩ := hf s
  exact ⟨calls, fun s' hs' => hdetermined s s' (h.determined s' hs'),
    fun e he => (herror s e he).trans (h.error_iff e he)⟩

theorem mono {Q : ε → Prop} {f : σ → Except ε α} (hf : Asks P answer f) (hPQ : ∀ e, Q e → P e) :
    Asks Q answer f := by
  intro s
  obtain ⟨calls, h⟩ := hf s
  exact ⟨calls, h.determined, fun e he => h.error_iff e (hPQ e he)⟩

theorem map {f : σ → Except ε α} (hf : Asks P answer f) (g : α → β) :
    Asks P answer fun s => (f s).map g := by
  apply hf.handle
  · intro s s' h
    simp only [h]
  · intro s e _
    cases f s <;> simp [Except.map]

theorem exists_error {f : σ → Except ε α} (hf : Asks P answer f) {s : σ} {e : ε}
    (h : f s = .error e) (he : P e) : ∃ q, answer s q = .error e := by
  obtain ⟨calls, hcalls⟩ := hf s
  obtain ⟨q, -, hq⟩ := (hcalls.error_iff e he).mp h
  exact ⟨q, hq⟩

/-- The outcome is determined by answers, which avoid the failures that it avoids. -/
theorem exists_determines {f : σ → Except ε α} (hf : Asks P answer f) (s : σ) :
    ∃ calls, (∀ c ∈ calls, answer s c.1 = c.2 ∧ (Avoids P (f s) → Avoids P c.2)) ∧
      Determines answer f calls (f s) := by
  obtain ⟨calls, hcalls⟩ := hf s
  refine ⟨calls.map fun q => (q, answer s q), fun c hc => ?_, fun s' hs' => ?_⟩
  · obtain ⟨q, hq, rfl⟩ := List.mem_map.mp hc
    exact ⟨rfl, fun hs e he hP => hs e ((hcalls.error_iff e hP).mpr ⟨q, hq, he⟩) hP⟩
  · exact hcalls.determined s' fun q hq => hs' (q, answer s q) (List.mem_map_of_mem hq)

end Asks

/-- A source that cannot be asked for anything. -/
def silent (_ : Unit) (q : Empty) : Except ε Empty :=
  q.elim

/-- A computation that does not depend on answers avoids the failures that it could only pass on. -/
theorem asks_silent_iff {x : Except ε α} : Asks P silent (fun _ => x) ↔ Avoids P x := by
  constructor
  · intro h e he hP
    obtain ⟨q, -⟩ := h.exists_error (s := ()) he hP
    exact q.elim
  · exact .const

end Stencil

import Stencil.Proofs.Success

/-!
# Runs that agree

A run stands in for another one if the two have the same outcome, but for failures of the other one
that are set apart. Two runs are the same up to a relation if they fail alike or have results that
are related. Both relations go through a computation step by step.
-/

namespace Stencil

variable {ε ε' α β γ : Type}

/-- The outcomes are the same unless the second is one of the failures `P`. -/
def AgreeUnless (P : ε → Prop) (x' x : Except ε α) : Prop :=
  x' = x ∨ ∃ e, x = .error e ∧ P e

namespace AgreeUnless

variable {P : ε → Prop} {Q : ε' → Prop} {x x' : Except ε α}

theorem refl (P : ε → Prop) (x : Except ε α) : AgreeUnless P x x :=
  .inl rfl

theorem map {f : α → β} (h : AgreeUnless P x' x) : AgreeUnless P (f <$> x') (f <$> x) := by
  rcases h with rfl | ⟨e, rfl, he⟩
  · exact .refl P _
  · exact .inr ⟨e, rfl, he⟩

theorem mapError {f : ε → ε'} (hf : ∀ e, P e → Q (f e)) (h : AgreeUnless P x' x) :
    AgreeUnless Q (x'.mapError f) (x.mapError f) := by
  rcases h with rfl | ⟨e, rfl, he⟩
  · exact .refl Q _
  · exact .inr ⟨f e, rfl, hf e he⟩

/-- The first steps agree up to `g`, and then the rest does. -/
theorem bind {g : α → γ} {x' : Except ε γ} {f' : γ → Except ε β} {f : α → Except ε β}
    (hx : AgreeUnless P x' (g <$> x)) (hf : ∀ a, x = .ok a → AgreeUnless P (f' (g a)) (f a)) :
    AgreeUnless P (x' >>= f') (x >>= f) := by
  cases x with
  | error e =>
    rcases hx with rfl | ⟨e', he', hP⟩
    · exact .refl P _
    · cases he'
      exact .inr ⟨e, rfl, hP⟩
  | ok a =>
    rcases hx with rfl | ⟨e', he', -⟩
    · exact hf a rfl
    · cases he'

theorem bind_same {f' f : α → Except ε β} (hx : AgreeUnless P x' x)
    (hf : ∀ a, x = .ok a → AgreeUnless P (f' a) (f a)) :
    AgreeUnless P (x' >>= f') (x >>= f) := by
  refine bind (g := id) ?_ hf
  rwa [id_map]

/-- The rows of steps agree up to `g` if each of their steps does. -/
theorem foldlM {g : β → γ} {k : α → α} {step : β → α → Except ε β} {step' : γ → α → Except ε γ}
    (hstep : ∀ b a, AgreeUnless P (step' (g b) (k a)) (g <$> step b a)) (as : List α) (b : β) :
    AgreeUnless P ((as.map k).foldlM step' (g b)) (g <$> as.foldlM step b) := by
  induction as generalizing b with
  | nil => exact .refl P _
  | cons a as ih =>
    rw [List.map_cons, List.foldlM_cons, List.foldlM_cons, map_bind]
    exact bind (hstep b a) fun b' _ => ih b'

end AgreeUnless

/-- The same failure, or results that are related. -/
inductive SameUpTo (R : α → β → Prop) : Except ε α → Except ε β → Prop
  | ok {a b} : R a b → SameUpTo R (.ok a) (.ok b)
  | error (e) : SameUpTo R (.error e) (.error e)

namespace SameUpTo

variable {α' β' : Type} {R : α → β → Prop} {S : α' → β' → Prop} {x : Except ε α} {y : Except ε β}

theorem of_eq {R : α → α → Prop} {x y : Except ε α} (hR : ∀ a, R a a) (h : x = y) :
    SameUpTo R x y := by
  subst h
  cases x with
  | ok a => exact .ok (hR a)
  | error e => exact .error e

theorem eq {x y : Except ε α} (h : SameUpTo Eq x y) : x = y := by
  cases h with
  | ok h => rw [h]
  | error => rfl

theorem ok_left {a : α} (h : SameUpTo R (.ok a : Except ε α) y) : ∃ b, y = .ok b ∧ R a b := by
  cases h with
  | ok h => exact ⟨_, rfl, h⟩

theorem bind {f : α → Except ε α'} {g : β → Except ε β'} (h : SameUpTo R x y)
    (hfg : ∀ a b, R a b → SameUpTo S (f a) (g b)) : SameUpTo S (x >>= f) (y >>= g) := by
  cases h with
  | ok h => exact hfg _ _ h
  | error e => exact .error e

theorem map {f : α → α'} {g : β → β'} (h : SameUpTo R x y) (hfg : ∀ a b, R a b → S (f a) (g b)) :
    SameUpTo S (x.map f) (y.map g) := by
  cases h with
  | ok h => exact .ok (hfg _ _ h)
  | error e => exact .error e

end SameUpTo

end Stencil

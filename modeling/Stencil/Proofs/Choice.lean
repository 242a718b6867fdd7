import Mathlib.Data.List.MinMax

/-!
# Choices from a list

Going through a list, a step that keeps what was chosen or takes the element chooses one of them. If
it takes an element whose score is higher, it chooses the first one of those with the highest score.
-/

namespace Stencil

variable {α β : Type}

theorem eq_or_mem_of_foldl {step : Option α → α → Option α}
    (hstep : ∀ best a, step best a = best ∨ step best a = some a) {as : List α} {best : Option α}
    {a : α} (h : as.foldl step best = some a) : best = some a ∨ a ∈ as := by
  induction as generalizing best with
  | nil => exact .inl h
  | cons b as ih =>
    rcases ih h with hchosen | hmem
    · rcases hstep best b with hkept | htaken
      · exact .inl (hkept ▸ hchosen)
      · exact .inr (List.mem_cons.mpr (.inl (Option.some.inj (htaken ▸ hchosen)).symm))
    · exact .inr (List.mem_cons_of_mem _ hmem)

/-- The scores before the chosen element are lower than its own, and none behind it is higher. -/
theorem exists_split_of_argmax [LinearOrder β] {score : α → β} {as : List α} {a : α}
    (h : as.argmax score = some a) :
    ∃ before after, as = before ++ a :: after ∧ (∀ b ∈ before, score b < score a) ∧
      ∀ b ∈ after, score b ≤ score a := by
  classical
  obtain ⟨hmem, hmax, hfirst⟩ := List.argmax_eq_some_iff.mp h
  obtain ⟨before, after, rfl, hbefore⟩ := List.eq_append_cons_of_mem hmem
  refine ⟨before, after, rfl, fun b hb => ?_, fun b hb => hmax b (by simp [hb])⟩
  by_contra hle
  have hindex := hfirst b (List.mem_append_left _ hb) (not_lt.mp hle)
  rw [List.idxOf_append_of_notMem hbefore, List.idxOf_append_of_mem hb] at hindex
  have hlt := List.idxOf_lt_length_of_mem hb
  omega

end Stencil

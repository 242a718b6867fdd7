import Stencil.Proofs.Json.Distinct
import Stencil.Proofs.Number.Magnitude

/-!
# Floats in documents

A number that is too large for a float is not read. The division by a power of ten cannot lead out
of the range, and the product with one is checked. So all floats in a document are finite.
-/

namespace Stencil.Json

/-- All floats inside are finite. -/
def Finite (v : Json) : Prop :=
  ∀ p x, v.At p (.float x) → x.isFinite

theorem finite_array {items : List Json} (h : ∀ v ∈ items, v.Finite) : (array items).Finite := by
  rintro p x ⟨⟩
  rename_i hi hu
  exact h _ (List.mem_of_getElem? hi) _ _ hu

theorem finite_object {members : List (String × Json)} (h : ∀ m ∈ members, m.2.Finite) :
    (object members).Finite := by
  rintro p x ⟨⟩
  rename_i hm hu
  exact h _ hm _ _ hu

theorem Finite.item {items : List Json} (h : (array items).Finite) {v : Json} (hv : v ∈ items) :
    v.Finite := by
  obtain ⟨i, hi⟩ := List.getElem?_of_mem hv
  exact fun p x hx => h _ x (.item hi hx)

theorem Finite.member {members : List (String × Json)} (h : (object members).Finite)
    {m : String × Json} (hm : m ∈ members) : m.2.Finite :=
  fun _ x hx => h _ x (.member hm hx)

theorem IsLeaf.finite {v : Json} (h : v.IsLeaf) (hfloat : ∀ x, v = float x → x.isFinite) :
    v.Finite := by
  rintro p x hat
  cases hat with
  | here => exact hfloat x rfl
  | item => exact absurd rfl (h.1 _)
  | member => exact absurd rfl (h.2 _)

theorem atLeastTwo_powerOfTen :
    ∀ n < 309, 0 < n → AtLeastTwo (powerOfTen n).toModel.unpack := by
  decide +kernel

/-- Divisors are at least ten, so that the quotients become no larger. -/
theorem isFinite_dividedBy {x : Float} (hx : Below (67 : Nat) x.toModel.unpack) {n : Nat}
    (hn : 0 < n) (fuel : Nat) : (dividedBy fuel x n).isFinite := by
  induction fuel generalizing x n with
  | zero => exact isFinite_of_below_toModel hx
  | succ fuel ih =>
    rw [dividedBy]
    split
    · rename_i hle
      have hdivisor := atLeastTwo_powerOfTen n (by omega) hn
      exact isFinite_of_below_toModel (below_toModel_div (by omega) hx hdivisor)
    · split
      · exact isFinite_of_below_toModel hx
      · have hdivisor := atLeastTwo_powerOfTen 308 (by omega) (by omega)
        exact ih (below_toModel_div (by omega) hx hdivisor) (by omega)

theorem digits_of_extend? {s : Significand} {c : Char} {n : Nat} (h : s.extend? c = some n) :
    n < 2 ^ 64 := by
  simp only [Significand.extend?, Option.ite_none_right_eq_some, Option.some.injEq] at h
  exact h.2 ▸ h.1

section

-- Unfolding the bound along with the recursion would compare characters with `2 ^ 64` bit by bit.
attribute [local irreducible] Significand.extend?

theorem whole_cons (s : Significand) (c : Char) (cs : List Char) :
    s.whole (c :: cs) =
      match s.extend? c with
      | some n => Significand.whole ⟨n, 0⟩ cs
      | none => ⟨s.digits, (cs.length + 1 : Nat)⟩ :=
  rfl

theorem fraction_cons (s : Significand) (c : Char) (cs : List Char) :
    s.fraction (c :: cs) =
      match s.extend? c with
      | some n => Significand.fraction ⟨n, s.exponent - 1⟩ cs
      | none => s :=
  rfl

end

theorem digits_whole {s : Significand} (hs : s.digits < 2 ^ 64) (cs : List Char) :
    (s.whole cs).digits < 2 ^ 64 := by
  induction cs generalizing s with
  | nil => exact hs
  | cons c cs ih =>
    rw [whole_cons]
    cases hextend : s.extend? c with
    | some n => exact ih (digits_of_extend? hextend)
    | none => exact hs

theorem digits_fraction {s : Significand} (hs : s.digits < 2 ^ 64) (cs : List Char) :
    (s.fraction cs).digits < 2 ^ 64 := by
  induction cs generalizing s with
  | nil => exact hs
  | cons c cs ih =>
    rw [fraction_cons]
    cases hextend : s.extend? c with
    | some n => exact ih (digits_of_extend? hextend)
    | none => exact hs

theorem isFinite_of_toFloat? {s : Significand} (hs : s.digits < 2 ^ 64) {x : Float}
    (h : s.toFloat? = some x) : x.isFinite := by
  have hdigits := below_nearest hs
  simp only [Significand.toFloat?] at h
  split at h
  · rw [Option.some.injEq] at h
    exact h ▸ isFinite_dividedBy hdigits (by omega) _
  · split at h
    · rw [Option.some.injEq] at h
      exact h ▸ isFinite_of_below_toModel hdigits
    · split at h
      · rw [Option.ite_none_right_eq_some, Option.some.injEq] at h
        exact h.2 ▸ h.1
      · simp at h

theorem isFinite_of_readNumber {cs rest : List Char} {x : Float}
    (h : readNumber cs = some (float x, rest)) : x.isFinite := by
  simp only [readNumber, Option.bind_eq_bind, Option.bind_eq_some_iff] at h
  rcases h with ⟨⟨ds, cs'⟩, -, ⟨fs, cs''⟩, -, ⟨e, cs'''⟩, -, h⟩
  split at h
  · rename_i hinteger
    rw [Option.some.injEq, Prod.mk.injEq] at h
    split at hinteger
    · obtain ⟨n, hn⟩ := exists_of_integer? hinteger
      simp [hn] at h
    · simp at hinteger
  · obtain ⟨y, hy, heq⟩ := Option.bind_eq_some_iff.mp h
    rw [Option.some.injEq, Prod.mk.injEq, float.injEq] at heq
    have hzero : (0 : Nat) < 2 ^ 64 := by decide
    have hfinite : y.isFinite := by
      refine isFinite_of_toFloat? ?_ hy
      exact digits_fraction (digits_whole (s := ⟨0, 0⟩) hzero ds) (fs.getD [])
    rw [← heq.1]
    split
    · exact isFinite_neg hfinite
    · exact hfinite

theorem finite_of_readScalar {cs rest : List Char} {v : Json}
    (h : readScalar cs = some (v, rest)) : v.Finite := by
  apply (isLeaf_of_readScalar h).finite
  rintro x rfl
  unfold readScalar at h
  split at h
  · cases eq_of_readWord h
  · cases eq_of_readWord h
  · cases eq_of_readWord h
  · obtain ⟨⟨s, rest'⟩, -, heq⟩ := Option.map_eq_some_iff.mp h
    simp at heq
  · exact isFinite_of_readNumber h

theorem finite_of_ofText? {text : String} {v : Json} (h : ofText? text = some v) : v.Finite := by
  obtain ⟨rest, hv⟩ := readValue_of_ofText? h
  exact forall_of_readValue (fun _ _ _ => finite_of_readScalar) (fun _ => finite_array)
    (fun _ _ => finite_object) hv

end Stencil.Json

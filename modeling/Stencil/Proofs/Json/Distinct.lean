import Stencil.Json.Reader
import Stencil.Proofs.Value.Places

/-!
# Names in documents

A repeated name in the text of an object counts once. So in a document that was read, every object
has each of its names once, at every depth.
-/

namespace Stencil.Json

/-- Every object inside, and the document itself, has each name once. -/
def Distinct (v : Json) : Prop :=
  ∀ p members, v.At p (.object members) → (Fields.names members).Nodup

theorem distinct_array {items : List Json} (h : ∀ v ∈ items, v.Distinct) :
    (array items).Distinct := by
  rintro p members ⟨⟩
  rename_i hi hu
  exact h _ (List.mem_of_getElem? hi) _ _ hu

theorem distinct_object {members : List (String × Json)} (hnames : (Fields.names members).Nodup)
    (h : ∀ m ∈ members, m.2.Distinct) : (object members).Distinct := by
  rintro p inner hat
  cases hat with
  | here => exact hnames
  | member hm hu => exact h _ hm _ _ hu

theorem Distinct.item {items : List Json} (h : (array items).Distinct) {v : Json} (hv : v ∈ items) :
    v.Distinct := by
  obtain ⟨i, hi⟩ := List.getElem?_of_mem hv
  exact fun p inner hat => h _ inner (.item hi hat)

theorem Distinct.member {members : List (String × Json)} (h : (object members).Distinct)
    {m : String × Json} (hm : m ∈ members) : m.2.Distinct :=
  fun _ inner hat => h _ inner (.member hm hat)

/-- A document that is neither an array nor an object. -/
def IsLeaf (v : Json) : Prop :=
  (∀ items, v ≠ array items) ∧ ∀ members, v ≠ object members

theorem IsLeaf.distinct {v : Json} (h : v.IsLeaf) : v.Distinct := by
  rintro p members hat
  cases hat with
  | here => exact absurd rfl (h.2 members)
  | item => exact absurd rfl (h.1 _)
  | member => exact absurd rfl (h.2 _)

theorem eq_of_readWord {word : String} {v w : Json} {cs rest : List Char}
    (h : readWord word v cs = some (w, rest)) : w = v := by
  rw [readWord] at h
  split at h
  · rw [Option.some.injEq, Prod.mk.injEq] at h
    exact h.1.symm
  · simp at h

theorem exists_of_integer? {negative : Bool} {ds : List Char} {v : Json}
    (h : integer? negative ds = some v) : ∃ n, v = integer n := by
  have hinteger (o : Option Int64) (ho : o.map integer = some v) : ∃ n, v = integer n := by
    rcases Option.map_eq_some_iff.mp ho with ⟨n, -, rfl⟩
    exact ⟨n, rfl⟩
  rw [integer?] at h
  split at h
  · split at h
    · simp at h
    · exact hinteger _ h
  · exact hinteger _ h

theorem isLeaf_of_readNumber {cs rest : List Char} {v : Json}
    (h : readNumber cs = some (v, rest)) : v.IsLeaf := by
  simp only [readNumber, Option.bind_eq_bind, Option.bind_eq_some_iff] at h
  rcases h with ⟨⟨ds, cs'⟩, -, ⟨fs, cs''⟩, -, ⟨e, cs'''⟩, -, h⟩
  split at h
  · rename_i hinteger
    rw [Option.some.injEq, Prod.mk.injEq] at h
    rw [← h.1]
    split at hinteger
    · obtain ⟨n, rfl⟩ := exists_of_integer? hinteger
      simp [IsLeaf]
    · simp at hinteger
  · obtain ⟨x, -, heq⟩ := Option.bind_eq_some_iff.mp h
    rw [Option.some.injEq, Prod.mk.injEq] at heq
    rw [← heq.1]
    simp [IsLeaf]

theorem isLeaf_of_readScalar {cs rest : List Char} {v : Json}
    (h : readScalar cs = some (v, rest)) : v.IsLeaf := by
  unfold readScalar at h
  split at h
  · simp [eq_of_readWord h, IsLeaf]
  · simp [eq_of_readWord h, IsLeaf]
  · simp [eq_of_readWord h, IsLeaf]
  · obtain ⟨⟨s, rest'⟩, -, heq⟩ := Option.map_eq_some_iff.mp h
    rw [Prod.mk.injEq] at heq
    rw [← heq.1]
    simp [IsLeaf]
  · exact isLeaf_of_readNumber h

/-- All that a list has was read as an item. -/
theorem forall_of_readItems {α : Type} {closing : Char}
    {item : List Char → Option (α × List Char)} {P : α → Prop}
    (hitem : ∀ cs a rest, item cs = some (a, rest) → P a) {fuel cs rest : List Char} {as : List α}
    (h : readItems closing item fuel cs = some (as, rest)) : ∀ a ∈ as, P a := by
  induction fuel generalizing cs rest as with
  | nil => simp [readItems] at h
  | cons _ fuel ih =>
    simp only [readItems, Option.bind_eq_bind, Option.bind_eq_some_iff] at h
    rcases h with ⟨⟨a, cs'⟩, ha, h⟩
    split at h
    · simp at h
    · split at h
      · rw [Option.some.injEq, Prod.mk.injEq] at h
        rw [← h.1]
        simpa using hitem _ _ _ ha
      · split at h
        · obtain ⟨⟨as', rest'⟩, has, h⟩ := Option.bind_eq_some_iff.mp h
          rw [Option.some.injEq, Prod.mk.injEq] at h
          rw [← h.1]
          exact List.forall_mem_cons.mpr ⟨hitem _ _ _ ha, ih has⟩
        · simp at h

theorem forall_of_readList {α : Type} {closing : Char}
    {item : List Char → Option (α × List Char)} {P : α → Prop}
    (hitem : ∀ cs a rest, item cs = some (a, rest) → P a) {cs rest : List Char} {as : List α}
    (h : readList closing item cs = some (as, rest)) : ∀ a ∈ as, P a := by
  rw [readList] at h
  split at h
  · simp at h
  · split at h
    · rw [Option.some.injEq, Prod.mk.injEq] at h
      simp [← h.1]
    · exact forall_of_readItems hitem h

theorem forall_of_readMember {value : List Char → Option (Json × List Char)} {P : Json → Prop}
    (hvalue : ∀ cs v rest, value cs = some (v, rest) → P v) {cs rest : List Char}
    {m : String × Json} (h : readMember value cs = some (m, rest)) : P m.2 := by
  rw [readMember] at h
  split at h
  · simp only [Option.bind_eq_bind, Option.bind_eq_some_iff] at h
    rcases h with ⟨⟨name, rest'⟩, -, h⟩
    split at h
    · obtain ⟨⟨v, rest''⟩, hv, heq⟩ := Option.bind_eq_some_iff.mp h
      rw [Option.some.injEq, Prod.mk.injEq] at heq
      rw [← heq.1]
      exact hvalue _ _ _ hv
    · simp at h
  · simp at h

/-- A property of the scalars that can be read, kept by arrays and objects, is one of all values. -/
theorem forall_of_readValue {P : Json → Prop}
    (hscalar : ∀ cs v rest, readScalar cs = some (v, rest) → P v)
    (harray : ∀ vs, (∀ v ∈ vs, P v) → P (array vs))
    (hobject : ∀ ms : Fields Json, ms.names.Nodup → (∀ m ∈ ms, P m.2) → P (object ms))
    {depth : Nat} {cs rest : List Char} {v : Json} (h : readValue depth cs = some (v, rest)) :
    P v := by
  induction depth generalizing cs v rest with
  | zero =>
    rw [readValue] at h
    split at h
    · simp at h
    · simp at h
    · exact hscalar _ _ _ h
  | succ depth ih =>
    rw [readValue] at h
    split at h
    · obtain ⟨⟨vs, rest'⟩, hvs, heq⟩ := Option.map_eq_some_iff.mp h
      rw [Prod.mk.injEq] at heq
      rw [← heq.1]
      exact harray vs (forall_of_readList (fun _ _ _ => ih) hvs)
    · obtain ⟨⟨ms, rest'⟩, hms, heq⟩ := Option.map_eq_some_iff.mp h
      rw [Prod.mk.injEq] at heq
      rw [← heq.1]
      have hmembers := forall_of_readList
        (fun _ _ _ => forall_of_readMember fun _ _ _ => ih) hms
      exact hobject _ (Fields.nodup_names_ofList ms)
        fun m hm => hmembers m (Fields.mem_of_mem_ofList hm)
    · exact hscalar _ _ _ h

theorem readValue_of_ofText? {text : String} {v : Json} (h : ofText? text = some v) :
    ∃ rest, readValue maxNesting text.toList = some (v, rest) := by
  simp only [ofText?, read?, Option.bind_eq_bind, Option.bind_eq_some_iff] at h
  rcases h with ⟨⟨w, rest⟩, hw, h⟩
  split at h
  · rw [Option.some.injEq] at h
    exact ⟨rest, h ▸ hw⟩
  · simp at h

theorem distinct_of_ofText? {text : String} {v : Json} (h : ofText? text = some v) :
    v.Distinct := by
  obtain ⟨rest, hv⟩ := readValue_of_ofText? h
  exact forall_of_readValue (fun _ _ _ hread => (isLeaf_of_readScalar hread).distinct)
    (fun _ => distinct_array) (fun _ => distinct_object) hv

end Stencil.Json

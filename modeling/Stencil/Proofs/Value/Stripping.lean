import Mathlib.Data.List.Lex
import Mathlib.Order.Monotone.Basic
import Mathlib.Data.Set.Function
import Stencil.Proofs.Value.Induction

/-!
# What stripping leaves

Stripping takes away the deletions in a value and nothing else. The entries that stay are numbered
anew, each by how many that stay are in front of it, which gives every place without a deletion on
the way to it a place in the stripped value: each of these is the place of one entry, which has the
name and the content that it had, and the order is kept.
-/

namespace Stencil.Value

/-- A value with the name that it has in an object. -/
structure Entry where
  name : Option String
  value : Value

/-- A value by itself has no name. -/
def alone (v : Value) : Entry :=
  ⟨none, v⟩

/-- What a value is apart from what it holds: an array, an object, or the leaf itself. -/
def shell : Value → Value
  | array .. => ofItems []
  | object .. => ofMembers []
  | v => v

@[simp] theorem isDeletion_shell (v : Value) : v.shell.isDeletion = v.isDeletion := by
  cases v <;> rfl

@[simp] theorem shell_stripNulls (v : Value) : v.stripNulls.shell = v.shell := by
  cases v <;> rfl

namespace Entry

def stays (e : Entry) : Bool :=
  !e.value.isDeletion

def shell (e : Entry) : Entry :=
  ⟨e.name, e.value.shell⟩

def strip (e : Entry) : Entry :=
  ⟨e.name, e.value.stripNulls⟩

@[simp] theorem stays_shell (e : Entry) : e.shell.stays = e.stays := by
  simp [stays, shell]

@[simp] theorem shell_strip (e : Entry) : e.strip.shell = e.shell := by
  simp [shell, strip]

/-- The items of an array, or the members of an object with their names. -/
def entries (e : Entry) : List Entry :=
  match e.value with
  | array _ items => items.map fun v => ⟨none, v⟩
  | object _ members => members.map fun m => ⟨some m.1, m.2⟩
  | _ => []

theorem entries_strip (e : Entry) : e.strip.entries = (e.entries.filter stays).map strip := by
  obtain ⟨name, v⟩ := e
  cases v with
  | array node items =>
    simp [strip, entries, stripNulls, ofItems, stripItems_eq_map, List.filter_map, stays,
      Function.comp_def]
  | object node members =>
    simp [strip, entries, stripNulls, ofMembers, stripMembers_eq_map, List.filter_map, stays,
      Function.comp_def]
  | _ => rfl

/-- The entry at a place, which is a row of indexes; the empty row is the entry itself. -/
def at? : Entry → List Nat → Option Entry
  | e, [] => some e
  | e, i :: p => e.entries[i]?.bind fun u => u.at? p

def places (e : Entry) : Set (List Nat) :=
  {p | (e.at? p).isSome}

/-- The places without a deletion on the way to them. The entry itself counts in any case. -/
def kept (e : Entry) : Set (List Nat) :=
  {p | p ∈ e.places ∧ ∀ q, q ≠ [] → q <+: p → ∀ u, e.at? q = some u → u.stays}

/-- Where the entry at a place is once the deletions are gone: every index on the way counts the
entries in front of it that stay. -/
def landing : Entry → List Nat → List Nat
  | _, [] => []
  | e, i :: p =>
    (e.entries.take i).countP stays :: e.entries[i]?.elim [] fun u => u.landing p

theorem cons_mem_places {e : Entry} {i : Nat} {p : List Nat} :
    i :: p ∈ e.places ↔ ∃ u, e.entries[i]? = some u ∧ p ∈ u.places := by
  simp [places, at?, Option.isSome_bind, Option.any_eq_true]

theorem nil_mem_kept (e : Entry) : [] ∈ e.kept := by
  refine ⟨rfl, fun q hq hprefix => ?_⟩
  exact absurd (List.prefix_nil.mp hprefix) hq

theorem cons_mem_kept {e : Entry} {i : Nat} {p : List Nat} :
    i :: p ∈ e.kept ↔ ∃ u, e.entries[i]? = some u ∧ u.stays ∧ p ∈ u.kept := by
  constructor
  · rintro ⟨hplace, hstays⟩
    obtain ⟨u, hu, hp⟩ := cons_mem_places.mp hplace
    refine ⟨u, hu, hstays [i] nofun ⟨p, rfl⟩ u (by simp [at?, hu]), hp, ?_⟩
    intro q hq hprefix w hw
    exact hstays (i :: q) nofun (List.cons_prefix_cons.mpr ⟨rfl, hprefix⟩) w (by simp [at?, hu, hw])
  · rintro ⟨u, hu, hstays, hp, hbelow⟩
    refine ⟨cons_mem_places.mpr ⟨u, hu, hp⟩, ?_⟩
    intro q hq hprefix w hw
    obtain ⟨j, q, rfl⟩ := List.exists_cons_of_ne_nil hq
    obtain ⟨rfl, hrest⟩ := List.cons_prefix_cons.mp hprefix
    simp only [at?, hu, Option.bind_some] at hw
    by_cases hnil : q = []
    · subst hnil
      obtain rfl : u = w := Option.some.inj hw
      exact hstays
    · exact hbelow q hnil hrest w hw

theorem landing_cons {e u : Entry} {i : Nat} (h : e.entries[i]? = some u) (p : List Nat) :
    e.landing (i :: p) = (e.entries.take i).countP stays :: u.landing p := by
  rw [landing, h, Option.elim_some]

end Entry

section

variable {α : Type} {q : α → Bool} {xs : List α} {x : α} {i j : Nat}

theorem getElem?_filter_countP_take (h : xs[i]? = some x) (hx : q x) :
    (xs.filter q)[(xs.take i).countP q]? = some x := by
  induction xs generalizing i with
  | nil => cases h
  | cons y ys ih =>
    cases i with
    | zero =>
      obtain rfl : y = x := by simpa using h
      simp [hx]
    | succ i =>
      have := ih (by simpa using h)
      by_cases hy : q y <;> simpa [hy] using this

theorem exists_countP_take_eq (h : (xs.filter q)[j]? = some x) :
    ∃ i, xs[i]? = some x ∧ (xs.take i).countP q = j := by
  induction xs generalizing j with
  | nil => cases h
  | cons y ys ih =>
    by_cases hy : q y
    · rw [List.filter_cons_of_pos hy] at h
      cases j with
      | zero => exact ⟨0, h, rfl⟩
      | succ j =>
        obtain ⟨i, hi, rfl⟩ := ih h
        exact ⟨i + 1, hi, by simp [hy]⟩
    · rw [List.filter_cons_of_neg hy] at h
      obtain ⟨i, hi, rfl⟩ := ih h
      exact ⟨i + 1, hi, by simp [hy]⟩

theorem countP_take_lt (h : xs[i]? = some x) (hx : q x) (hij : i < j) :
    (xs.take i).countP q < (xs.take j).countP q := by
  have hsucc : (xs.take (i + 1)).countP q = (xs.take i).countP q + 1 := by
    rw [List.take_add_one, h, List.countP_append]
    simp [hx]
  have hle : (xs.take (i + 1)).countP q ≤ (xs.take j).countP q :=
    (List.take_prefix_take_left hij).sublist.countP_le
  omega

end

namespace Entry

theorem getElem?_entries_strip {e u : Entry} {i : Nat} (h : e.entries[i]? = some u)
    (hu : u.stays) : e.strip.entries[(e.entries.take i).countP stays]? = some u.strip := by
  rw [entries_strip, List.getElem?_map, getElem?_filter_countP_take h hu, Option.map_some]

/-- What lands somewhere is as it was. -/
theorem shell_at?_landing {e : Entry} {p : List Nat} (hp : p ∈ e.kept) :
    (e.strip.at? (e.landing p)).map shell = (e.at? p).map shell := by
  induction p generalizing e with
  | nil => simp [landing, at?]
  | cons i p ih =>
    obtain ⟨u, hu, hstays, hp⟩ := cons_mem_kept.mp hp
    rw [landing_cons hu, at?, at?, getElem?_entries_strip hu hstays, hu]
    exact ih hp

theorem mapsTo_landing (e : Entry) : Set.MapsTo e.landing e.kept e.strip.places := by
  intro p hp
  have hsome := congrArg Option.isSome (shell_at?_landing hp)
  rw [Option.isSome_map, Option.isSome_map] at hsome
  exact hsome.trans hp.1

theorem strictMonoOn_landing (e : Entry) : StrictMonoOn e.landing e.kept := by
  intro p hp p' hp' hlt
  induction p generalizing e p' with
  | nil =>
    cases p' with
    | nil => exact absurd hlt (lt_irrefl _)
    | cons i p' =>
      obtain ⟨u, hu, -⟩ := cons_mem_kept.mp hp'
      rw [landing_cons hu]
      exact List.nil_lt_cons _ _
  | cons i p ih =>
    cases p' with
    | nil => exact absurd hlt (List.not_lt_nil _)
    | cons i' p' =>
      obtain ⟨u, hu, hstays, hp⟩ := cons_mem_kept.mp hp
      obtain ⟨u', hu', -, hp'⟩ := cons_mem_kept.mp hp'
      rw [landing_cons hu, landing_cons hu', List.cons_lt_cons_iff]
      rcases List.cons_lt_cons_iff.mp hlt with hindex | ⟨rfl, hbelow⟩
      · exact .inl (countP_take_lt hu hstays hindex)
      · obtain rfl : u = u' := Option.some.inj (hu.symm.trans hu')
        exact .inr ⟨rfl, ih u hp hp' hbelow⟩

theorem surjOn_landing (e : Entry) : Set.SurjOn e.landing e.kept e.strip.places := by
  intro q hq
  induction q generalizing e with
  | nil => exact ⟨[], e.nil_mem_kept, rfl⟩
  | cons j q ih =>
    obtain ⟨w, hw, hbelow⟩ := cons_mem_places.mp hq
    rw [entries_strip, List.getElem?_map, Option.map_eq_some_iff] at hw
    obtain ⟨u, hu, rfl⟩ := hw
    have hstays : u.stays := (List.mem_filter.mp (List.mem_of_getElem? hu)).2
    obtain ⟨i, hi, rfl⟩ := exists_countP_take_eq hu
    obtain ⟨p, hp, rfl⟩ := ih u hbelow
    exact ⟨i :: p, cons_mem_kept.mpr ⟨u, hi, hstays, hp⟩, landing_cons hi p⟩

theorem bijOn_landing (e : Entry) : Set.BijOn e.landing e.kept e.strip.places :=
  ⟨mapsTo_landing e, (strictMonoOn_landing e).injOn, surjOn_landing e⟩

/-- Of the entries in front, one is gone above and two are gone below. -/
example :
    (ofItems [.null, .integer 4, ofMembers [("a", .string "null"), ("b", .null),
      ("c", .boolean true)]]).alone.landing [2, 2] = [1, 0] := rfl

/-- Every entry in what is left stays. -/
theorem stays_of_at?_strip {e w : Entry} {q : List Nat} (hq : q ≠ [])
    (hw : e.strip.at? q = some w) : w.stays := by
  have hplace : q ∈ e.strip.places := by
    rw [places, Set.mem_ofPred_eq, hw]
    rfl
  obtain ⟨p, hp, rfl⟩ := surjOn_landing e hplace
  have hne : p ≠ [] := by
    rintro rfl
    exact hq rfl
  have hshell := shell_at?_landing hp
  rw [hw, Option.map_some] at hshell
  obtain ⟨u, hu, heq⟩ := Option.map_eq_some_iff.mp hshell.symm
  rw [← stays_shell, ← heq, stays_shell]
  exact hp.2 p hne List.prefix_rfl u hu

end Entry

theorem stripNulls_stripNulls (v : Value) : v.stripNulls.stripNulls = v.stripNulls := by
  induction v using rec_nodes with
  | onArray node items ih =>
    simp only [stripNulls, ofItems, stripItems_eq_map, List.filter_map, List.map_map,
      Function.comp_def, isDeletion_stripNulls, List.filter_filter, Bool.and_self]
    congr 1
    exact List.map_congr_left fun v hv => ih v (List.mem_filter.mp hv).1
  | onObject node members ih =>
    simp only [stripNulls, ofMembers, stripMembers_eq_map, List.filter_map, List.map_map,
      Function.comp_def, isDeletion_stripNulls, List.filter_filter, Bool.and_self]
    congr 1
    exact List.map_congr_left fun m hm => by rw [ih m (List.mem_filter.mp hm).1]
  | onLeaf v harray hobject => cases v <;> first | rfl | simp [kind] at harray hobject

/-- A stripped value has no deletion in it, and stripping it again changes nothing. Its places are
those of the value without a deletion on the way to them, each at its landing, in the order that
they had, and with the names and the contents that they had. -/
theorem stripNulls_exact (v : Value) :
    (∀ p u, p ≠ [] → v.stripNulls.alone.at? p = some u → u.value.isDeletion = false) ∧
    Set.BijOn v.alone.landing v.alone.kept v.stripNulls.alone.places ∧
    StrictMonoOn v.alone.landing v.alone.kept ∧
    (∀ p ∈ v.alone.kept, (v.stripNulls.alone.at? (v.alone.landing p)).map Entry.shell =
      (v.alone.at? p).map Entry.shell) ∧
    v.stripNulls.stripNulls = v.stripNulls := by
  refine ⟨fun p u hp hu => ?_, v.alone.bijOn_landing, v.alone.strictMonoOn_landing,
    fun p hp => Entry.shell_at?_landing hp, stripNulls_stripNulls v⟩
  simpa [Entry.stays] using Entry.stays_of_at?_strip (e := v.alone) hp hu

end Stencil.Value

import Stencil.Proofs.Expr.Spelling

/-!
# Patterns

A pattern matches the front of a text in a row of ways, the preferred ones first: those of the first
part before those of the second, the optional part before nothing, long runs before short ones where
a run is greedy, and short ones before long ones where it is not. The first way counts.
-/

namespace Stencil

inductive Pattern where
  /-- A character of a class. -/
  | one (p : Char → Bool)
  /-- Any number of characters of a class. -/
  | many (greedy : Bool) (p : Char → Bool)
  | both (first second : Pattern)
  | optional (inner : Pattern)
  /-- The text that the inner pattern matches is kept under a number. -/
  | group (i : Nat) (inner : Pattern)
  /-- The end of the text. -/
  | finish

namespace Pattern

/-- What is matched, the groups in it, and what is behind it. -/
structure Way where
  text : List Char
  groups : List (Nat × List Char)
  rest : List Char

/-- One way, and another one behind it. -/
def Way.append (w w' : Way) : Way :=
  ⟨w.text ++ w'.text, w.groups ++ w'.groups, w'.rest⟩

@[simp] theorem Way.text_append (w w' : Way) : (w.append w').text = w.text ++ w'.text :=
  rfl

@[simp] theorem Way.rest_append (w w' : Way) : (w.append w').rest = w'.rest :=
  rfl

@[simp] theorem Way.groups_append (w w' : Way) : (w.append w').groups = w.groups ++ w'.groups :=
  rfl

/-- The fronts of a text that are of one class, each with what is behind it, the shortest first. -/
def fronts (p : Char → Bool) : List Char → List (List Char × List Char)
  | [] => [([], [])]
  | c :: cs =>
    ([], c :: cs) :: if p c then (fronts p cs).map fun (front, rest) => (c :: front, rest) else []

def ways : Pattern → List Char → List Way
  | one _, [] => []
  | one p, c :: cs => if p c then [⟨[c], [], cs⟩] else []
  | many greedy p, cs =>
    let shortestFirst := (fronts p cs).map fun (front, rest) => ⟨front, [], rest⟩
    if greedy then shortestFirst.reverse else shortestFirst
  | both first second, cs =>
    (first.ways cs).flatMap fun w => (second.ways w.rest).map w.append
  | optional inner, cs => inner.ways cs ++ [⟨[], [], cs⟩]
  | group i inner, cs => (inner.ways cs).map fun w => { w with groups := (i, w.text) :: w.groups }
  | finish, cs => if cs.isEmpty then [⟨[], [], []⟩] else []

theorem ways_one_cons (p : Char → Bool) (c : Char) (cs : List Char) :
    (one p).ways (c :: cs) = if p c then [⟨[c], [], cs⟩] else [] :=
  rfl

theorem ways_both (first second : Pattern) (cs : List Char) : (both first second).ways cs =
    (first.ways cs).flatMap fun w => (second.ways w.rest).map w.append :=
  rfl

theorem ways_optional (inner : Pattern) (cs : List Char) :
    (optional inner).ways cs = inner.ways cs ++ [⟨[], [], cs⟩] :=
  rfl

theorem ways_group (i : Nat) (inner : Pattern) (cs : List Char) : (group i inner).ways cs =
    (inner.ways cs).map fun w => { w with groups := (i, w.text) :: w.groups } :=
  rfl

/-- The groups of the first way in which a pattern matches. -/
def groups? (p : Pattern) (cs : List Char) : Option (List (Nat × List Char)) :=
  ((p.ways cs).head?).map Way.groups

/-- The first of the ways of a pattern from which something else is found. -/
def find {α : Type} (p : Pattern) (cs : List Char) (k : Way → Option α) : Option α :=
  (p.ways cs).findSome? k

variable {α : Type} {cs : List Char} {k : Way → Option α}

theorem groups?_eq_find (p : Pattern) (cs : List Char) :
    p.groups? cs = p.find cs fun w => some w.groups := by
  rw [groups?, find]
  cases p.ways cs <;> rfl

theorem find_one_cons {p : Char → Bool} {c : Char} :
    (one p).find (c :: cs) k = if p c then k ⟨[c], [], cs⟩ else none := by
  rw [find, ways_one_cons]
  split
  · rw [List.findSome?_singleton]
  · rfl

theorem find_both {first second : Pattern} : (both first second).find cs k =
    first.find cs fun w => second.find w.rest fun w' => k (w.append w') := by
  rw [find, ways_both, find]
  induction first.ways cs with
  | nil => rfl
  | cons w ws ih =>
    rw [List.flatMap_cons, List.findSome?_append, List.findSome?_map, ih, List.findSome?_cons]
    cases hw : second.find w.rest fun w' => k (w.append w') with
    | none =>
      rw [find] at hw
      rw [Function.comp_def, hw, Option.none_or]
    | some a =>
      rw [find] at hw
      rw [Function.comp_def, hw, Option.some_or]

theorem find_optional {inner : Pattern} :
    (optional inner).find cs k = (inner.find cs k).or (k ⟨[], [], cs⟩) := by
  rw [find, ways_optional, List.findSome?_append, List.findSome?_singleton]
  rfl

theorem find_group {i : Nat} {inner : Pattern} : (group i inner).find cs k =
    inner.find cs fun w => k { w with groups := (i, w.text) :: w.groups } := by
  rw [find, ways_group, List.findSome?_map]
  rfl

theorem find_finish_nil : finish.find [] k = k ⟨[], [], []⟩ := by
  exact List.findSome?_singleton

theorem find_finish_cons {c : Char} : finish.find (c :: cs) k = none :=
  rfl

theorem mem_fronts_iff {p : Char → Bool} {front rest : List Char} :
    (front, rest) ∈ fronts p cs ↔ cs = front ++ rest ∧ ∀ c ∈ front, p c := by
  induction cs generalizing front with
  | nil => cases front <;> simp [fronts]
  | cons c cs ih =>
    rw [fronts, List.mem_cons]
    constructor
    · rintro (h | h)
      · cases h
        exact ⟨rfl, nofun⟩
      · split at h
        · rename_i hc
          obtain ⟨⟨front, rest⟩, hm, heq⟩ := List.mem_map.mp h
          cases heq
          obtain ⟨rfl, hfront⟩ := ih.mp hm
          exact ⟨rfl, List.forall_mem_cons.mpr ⟨hc, hfront⟩⟩
        · cases h
    · rintro ⟨hcs, hfront⟩
      cases front with
      | nil => exact .inl (by rw [hcs, List.nil_append])
      | cons d front =>
        obtain ⟨rfl, hrest⟩ := List.cons.inj hcs
        obtain ⟨hc, hfront⟩ := List.forall_mem_cons.mp hfront
        rw [if_pos hc]
        exact .inr (List.mem_map.mpr ⟨(front, rest), ih.mpr ⟨hrest, hfront⟩, rfl⟩)

theorem mem_ways_many_iff {greedy : Bool} {p : Char → Bool} {w : Way} :
    w ∈ (many greedy p).ways cs ↔ w.groups = [] ∧ cs = w.text ++ w.rest ∧ ∀ c ∈ w.text, p c := by
  have hmem : w ∈ (many greedy p).ways cs ↔
      ∃ m ∈ fronts p cs, (⟨m.1, [], m.2⟩ : Way) = w := by
    cases greedy with
    | false => exact List.mem_map
    | true => exact List.mem_reverse.trans List.mem_map
  rw [hmem]
  constructor
  · rintro ⟨m, hm, rfl⟩
    exact ⟨rfl, mem_fronts_iff.mp hm⟩
  · obtain ⟨text, groups, rest⟩ := w
    rintro ⟨rfl, hfront⟩
    exact ⟨(text, rest), mem_fronts_iff.mpr hfront, rfl⟩

theorem findSome?_eq_of_unique {β : Type} {l : List β} {f : β → Option α} {b : β} (hb : b ∈ l)
    (h : ∀ b' ∈ l, f b' ≠ none → b' = b) : l.findSome? f = f b := by
  cases hfound : l.findSome? f with
  | none => exact (List.findSome?_eq_none_iff.mp hfound b hb).symm
  | some a =>
    obtain ⟨b', hb', ha⟩ := List.exists_of_findSome?_eq_some hfound
    obtain rfl := h b' hb' (by simp [ha])
    exact ha.symm

/-- If no more than one front leads on, it does not matter which ones are preferred. -/
theorem find_many_of_unique {greedy : Bool} {p : Char → Bool} {front rest : List Char}
    (hcs : cs = front ++ rest) (hfront : ∀ c ∈ front, p c)
    (hother : ∀ front' rest', cs = front' ++ rest' → (∀ c ∈ front', p c) →
      k ⟨front', [], rest'⟩ ≠ none → front' = front) :
    (many greedy p).find cs k = k ⟨front, [], rest⟩ := by
  apply findSome?_eq_of_unique
  · exact mem_ways_many_iff.mpr ⟨rfl, hcs, hfront⟩
  · rintro ⟨front', groups, rest'⟩ hmem hk
    obtain ⟨rfl, hcs', hfront'⟩ := mem_ways_many_iff.mp hmem
    obtain rfl := hother front' rest' hcs' hfront' hk
    obtain rfl := List.append_cancel_left (hcs'.symm.trans hcs)
    rfl

theorem find_many_eq_none {greedy : Bool} {p : Char → Bool}
    (h : ∀ front rest, cs = front ++ rest → k ⟨front, [], rest⟩ = none) :
    (many greedy p).find cs k = none := by
  refine List.findSome?_eq_none_iff.mpr ?_
  rintro ⟨front, groups, rest⟩ hmem
  obtain ⟨rfl, hcs, -⟩ := mem_ways_many_iff.mp hmem
  exact h front rest hcs

/-- If nothing goes on with a character of the class, the run goes as far as the class does. -/
theorem find_many_of_stop {greedy : Bool} {p : Char → Bool}
    (hstop : ∀ front c rest, p c → k ⟨front, [], c :: rest⟩ = none) :
    (many greedy p).find cs k = k ⟨(Text.run p cs).1, [], (Text.run p cs).2⟩ := by
  apply find_many_of_unique (Text.run_append p cs).symm
  · exact fun c hc => List.mem_takeWhile_imp hc
  · intro front' rest' hcs' hfront' hk
    have hrest : ∀ c ∈ rest'.head?, p c = false := by
      intro c hc
      rw [Bool.eq_false_iff]
      intro hpc
      obtain ⟨rest'', rfl⟩ := List.head?_eq_some_iff.mp hc
      exact hk (hstop front' c rest'' hpc)
    rw [hcs', Lexeme.run_append_of_stop hfront' hrest]

/-- A run that is not greedy goes on only if nothing is found from where it stands. -/
theorem find_many_lazy_cons {p : Char → Bool} {c : Char} :
    (many false p).find (c :: cs) k = (k ⟨[], [], c :: cs⟩).or
      (if p c then (many false p).find cs fun w => k ⟨c :: w.text, [], w.rest⟩ else none) := by
  have hways (cs : List Char) (k : Way → Option α) : (many false p).find cs k =
      (fronts p cs).findSome? fun m => k ⟨m.1, [], m.2⟩ :=
    List.findSome?_map
  rw [hways, hways, fronts, List.findSome?_cons]
  split_ifs
  · rw [List.findSome?_map]
    cases k ⟨[], [], c :: cs⟩ <;> rfl
  · cases k ⟨[], [], c :: cs⟩ <;> rfl

/-- One character of a class, or more of them. -/
def several (greedy : Bool) (p : Char → Bool) : Pattern :=
  both (one p) (many greedy p)

theorem find_several_cons {greedy : Bool} {p : Char → Bool} {c : Char} :
    (several greedy p).find (c :: cs) k =
      if p c then (many greedy p).find cs fun w => k ⟨c :: w.text, w.groups, w.rest⟩ else none := by
  rw [several, find_both, find_one_cons]
  rfl

theorem find_several_of_stop {greedy : Bool} {p : Char → Bool}
    (hstop : ∀ front c rest, p c → k ⟨front, [], c :: rest⟩ = none) :
    (several greedy p).find cs k =
      if (Text.run p cs).1 = [] then none
      else k ⟨(Text.run p cs).1, [], (Text.run p cs).2⟩ := by
  cases cs with
  | nil => rfl
  | cons c cs =>
    rw [find_several_cons]
    by_cases hc : p c
    · have hrun : Text.run p (c :: cs) = (c :: (Text.run p cs).1, (Text.run p cs).2) := by
        simp [Text.run, hc]
      rw [if_pos hc, find_many_of_stop fun front d rest hd => hstop (c :: front) d rest hd, hrun,
        if_neg (List.cons_ne_nil _ _)]
    · have hrun : (Text.run p (c :: cs)).1 = [] := by simp [Text.run, hc]
      rw [if_neg hc, if_pos hrun]

end Pattern

end Stencil

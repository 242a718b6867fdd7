import Stencil.Path

/-!
# Reading pointers

A pointer is taken apart at its slashes, and in each piece the escapes are undone: those of slashes
first, since a tilde that stands for itself may be followed by a digit of an escape. What comes out
are the texts of the segments.
-/

namespace Stencil

section

variable {a b c x : Char}

/-- From left to right, `a` with `b` behind it becomes `c`. -/
def replacePair (a b c : Char) : List Char → List Char
  | x :: y :: w =>
    if x = a ∧ y = b then c :: replacePair a b c w else x :: replacePair a b c (y :: w)
  | w => w

theorem replacePair_cons_of_ne (h : x ≠ a) (w : List Char) :
    replacePair a b c (x :: w) = x :: replacePair a b c w := by
  cases w <;> simp [replacePair, h]

theorem replacePair_cons_cons_of_ne (h : x ≠ b) (w : List Char) :
    replacePair a b c (a :: x :: w) = a :: replacePair a b c (x :: w) := by
  simp [replacePair, h]

theorem replacePair_pair (w : List Char) :
    replacePair a b c (a :: b :: w) = c :: replacePair a b c w := by
  simp [replacePair]

end

namespace Segment

/-- The name of a field, or an index in decimal. -/
def text : Segment → String
  | field name => name
  | index i => toString i

/-- The escapes of slashes are undone, then those of tildes. -/
def unescape (piece : List Char) : List Char :=
  replacePair '~' '0' '~' (replacePair '~' '1' '/' piece)

example : unescape "a~01~1b".toList = "a~1/b".toList := by decide

/-- What is left of an escape when those of slashes are undone. -/
def escapedTilde (c : Char) : List Char :=
  if c = '~' then ['~', '0'] else [c]

theorem replacePair_slash (w : List Char) :
    replacePair '~' '1' '/' (w.flatMap escapedChar) = w.flatMap escapedTilde := by
  induction w with
  | nil => rfl
  | cons c w ih =>
    rw [List.flatMap_cons, List.flatMap_cons, ← ih, escapedChar, escapedTilde]
    by_cases htilde : c = '~'
    · rw [if_pos htilde, if_pos htilde, List.cons_append, List.singleton_append,
        replacePair_cons_cons_of_ne (by decide), replacePair_cons_of_ne (by decide)]
      rfl
    · rw [if_neg htilde, if_neg htilde]
      by_cases hslash : c = '/'
      · rw [if_pos hslash, hslash]
        exact replacePair_pair _
      · rw [if_neg hslash]
        exact replacePair_cons_of_ne htilde _

theorem replacePair_tilde (w : List Char) :
    replacePair '~' '0' '~' (w.flatMap escapedTilde) = w := by
  induction w with
  | nil => rfl
  | cons c w ih =>
    rw [List.flatMap_cons, escapedTilde]
    by_cases htilde : c = '~'
    · rw [if_pos htilde, htilde, List.cons_append, List.singleton_append, replacePair_pair, ih]
    · rw [if_neg htilde, List.singleton_append, replacePair_cons_of_ne htilde, ih]

theorem unescape_flatMap_escapedChar (w : List Char) : unescape (w.flatMap escapedChar) = w := by
  rw [unescape, replacePair_slash, replacePair_tilde]

theorem slash_not_mem_escapedChar (c : Char) : '/' ∉ escapedChar c := by
  unfold escapedChar
  split
  · decide
  · split
    · decide
    · rename_i hslash
      exact fun h => hslash (List.mem_singleton.mp h).symm

theorem escapedChar_of_isDigit {c : Char} (h : c.isDigit) : escapedChar c = [c] := by
  have htilde : c ≠ '~' := by
    rintro rfl
    cases h
  have hslash : c ≠ '/' := by
    rintro rfl
    cases h
  rw [escapedChar, if_neg htilde, if_neg hslash]

theorem flatMap_escapedChar_of_isDigit {w : List Char} (h : ∀ c ∈ w, c.isDigit) :
    w.flatMap escapedChar = w := by
  induction w with
  | nil => rfl
  | cons c w ih =>
    obtain ⟨hc, hw⟩ := List.forall_mem_cons.mp h
    rw [List.flatMap_cons, escapedChar_of_isDigit hc, ih hw, List.singleton_append]

theorem toList_render (s : Segment) : s.render.toList = s.text.toList.flatMap escapedChar := by
  cases s with
  | field name => exact String.toList_ofList
  | index i =>
    have hdigits : ∀ c ∈ (toString i).toList, c.isDigit := by
      intro c hc
      rw [Nat.toString_eq_repr, Nat.toList_repr] at hc
      exact Nat.isDigit_of_mem_toDigits (by decide) (by decide) hc
    exact (flatMap_escapedChar_of_isDigit hdigits).symm

theorem slash_not_mem_render (s : Segment) : '/' ∉ s.render.toList := by
  rw [toList_render, List.mem_flatMap]
  rintro ⟨c, -, hc⟩
  exact slash_not_mem_escapedChar c hc

end Segment

theorem splitOn_flatMap_cons {ls : List (List Char)} (h : ∀ l ∈ ls, '/' ∉ l) :
    (ls.flatMap ('/' :: ·)).splitOn '/' = [] :: ls := by
  have hword (l : List Char) (ls : List (List Char)) :
      ['/'].intercalate (l :: ls) = l ++ ls.flatMap ('/' :: ·) := by
    induction ls generalizing l with
    | nil => simp
    | cons m ls ih => simp [ih]
  have hpieces : ∀ l ∈ [] :: ls, '/' ∉ l := List.forall_mem_cons.mpr ⟨List.not_mem_nil, h⟩
  have hsplit := List.splitOn_intercalate '/' hpieces (List.cons_ne_nil _ _)
  rwa [hword, List.nil_append] at hsplit

namespace Path

/-- What stands behind the slashes. -/
def pieces (p : Path) : List (List Char) :=
  p.segments.map (·.render.toList)

theorem toList_render (p : Path) : p.render.toList = '#' :: p.pieces.flatMap ('/' :: ·) := by
  simp [render, pieces, List.flatMap_map]

theorem splitOn_pieces (p : Path) :
    (p.pieces.flatMap ('/' :: ·)).splitOn '/' = [] :: p.pieces :=
  splitOn_flatMap_cons (List.forall_mem_map.mpr fun s _ => s.slash_not_mem_render)

theorem pieces_eq (p : Path) :
    p.pieces = (p.segments.map Segment.text).map (·.toList.flatMap Segment.escapedChar) := by
  simp [pieces, Segment.toList_render]

theorem map_unescape_pieces (p : Path) :
    p.pieces.map (fun piece => String.ofList (Segment.unescape piece)) =
      p.segments.map Segment.text := by
  simp [pieces_eq, Segment.unescape_flatMap_escapedChar]

/-- Behind `#` a path is taken apart at its slashes into an empty piece and one for each segment,
which gives the text of the segment when its escapes are undone. So two paths are shown alike
exactly if their segments have the same texts. -/
theorem texts_of_render (p : Path) :
    (∃ w pieces, p.render.toList = '#' :: w ∧ w.splitOn '/' = [] :: pieces ∧
      pieces.map (fun piece => String.ofList (Segment.unescape piece)) =
        p.segments.map Segment.text) ∧
    ∀ q : Path,
      p.render = q.render ↔ p.segments.map Segment.text = q.segments.map Segment.text := by
  refine ⟨⟨_, _, p.toList_render, p.splitOn_pieces, p.map_unescape_pieces⟩, fun q => ⟨?_, ?_⟩⟩
  · intro h
    have hword := congrArg String.toList h
    rw [toList_render, toList_render] at hword
    have hsplit := congrArg (List.splitOn '/') (List.cons.inj hword).2
    rw [splitOn_pieces, splitOn_pieces] at hsplit
    rw [← p.map_unescape_pieces, (List.cons.inj hsplit).2, q.map_unescape_pieces]
  · intro h
    rw [← String.toList_inj, toList_render, toList_render, pieces_eq, pieces_eq, h]

end Path

end Stencil

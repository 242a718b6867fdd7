import Stencil.Proofs.Expr.Lexing

/-!
# Where a reader stands

A reader of tokens can be asked for the next token again after an error, wherever the error has left
it, and can be sent back to the beginning. It never leaves its source, and it goes back only then.
-/

namespace Stencil

open Text (IsGap)

namespace Lexeme

variable {start cs : List Char}

/-- What is left after a fault is a part of what begins at its place. -/
structure Stop.EndsIn (s : Stop) (cs : List Char) : Prop where
  rest : s.rest <:+ s.place
  place : s.place <:+ cs

theorem Quoted.cons_eq_error {c : Char} {text : List Char} {r : Except Stop Quoted} {s : Stop} :
    Quoted.cons c text r = .error s ↔ r = .error s :=
  map_eq_error

theorem endsIn_of_scanQuoted {quote : Char} {s : Stop} (h : scanQuoted start quote cs = .error s)
    (hcs : cs <:+ start) : s.EndsIn start := by
  fun_induction scanQuoted start quote cs with
  | case1 | case2 =>
    cases h
    exact ⟨List.nil_suffix, List.suffix_rfl⟩
  | case3 | case6 =>
    cases h
    exact ⟨(List.dropWhile_suffix _).trans (List.suffix_cons _ _), (List.suffix_cons _ _).trans hcs⟩
  | case4 a b c d rest _ _ _ ih =>
    have hrest : rest <:+ '\\' :: 'u' :: a :: b :: c :: d :: rest := ⟨['\\', 'u', a, b, c, d], rfl⟩
    exact ih (Quoted.cons_eq_error.mp h) (hrest.trans hcs)
  | case5 a b c d rest =>
    cases h
    exact ⟨⟨['u', a, b, c, d], rfl⟩, (List.suffix_cons _ _).trans hcs⟩
  | case7 c rest _ _ _ _ ih =>
    have hrest : rest <:+ '\\' :: c :: rest := ⟨['\\', c], rfl⟩
    exact ih (Quoted.cons_eq_error.mp h) (hrest.trans hcs)
  | case8 =>
    cases h
    exact ⟨List.suffix_rfl, (List.suffix_cons _ _).trans hcs⟩
  | case9 => cases h
  | case10 _ _ _ _ _ _ _ ih =>
    exact ih (Quoted.cons_eq_error.mp h) ((List.suffix_cons _ _).trans hcs)

theorem endsIn_of_takeInteger {digits : List Char} {s : Stop}
    (h : takeInteger start digits cs = .error s) (hcs : cs <:+ start) : s.EndsIn start := by
  unfold takeInteger at h
  split at h <;> cases h
  exact ⟨hcs, List.suffix_rfl⟩

theorem endsIn_of_scanNumber {s : Stop} (h : scanNumber cs = .error s) : s.EndsIn cs := by
  have hrest : (Text.run Char.isDigit cs).2 <:+ cs := List.dropWhile_suffix _
  simp only [scanNumber] at h
  split at h
  · split at h
    · cases h
    · exact endsIn_of_takeInteger h hrest
  · exact endsIn_of_takeInteger h hrest

theorem endsIn_of_scan {c : Char} {s : Stop} (h : scan c cs = .error s) : s.EndsIn (c :: cs) := by
  unfold scan at h
  split at h
  · cases h
  split at h
  · exact endsIn_of_scanQuoted (map_eq_error.mp h) (List.suffix_cons c cs)
  split at h
  · cases h
  split at h
  · exact endsIn_of_scanNumber h
  · cases h
    exact ⟨List.suffix_rfl, List.suffix_rfl⟩

end Lexeme

namespace Lexer

/-- From one reader to another one, this text is passed. -/
structure Passes (l : Lexer) (front : List Char) (l' : Lexer) : Prop where
  source_eq : l'.source = l.source
  rest_eq : l.rest = front ++ l'.rest
  position_eq : l'.position = l.position + front.length

variable {l l' : Lexer} {t : Token} {e : LexError}

/-- A token is behind a gap, and its text has been passed. -/
theorem nextToken_eq_ok (h : l.nextToken = (.ok t, l')) :
    ∃ gap text, l.Passes (gap ++ text) l' ∧ t.position = l.position + gap.length ∧
      t.text = String.ofList text ∧ (t.kind ≠ .eof → text ≠ []) := by
  rcases Text.isGap_or_exists l.rest with hgap | ⟨gap, c, cs, hrest, hgap, hc⟩
  · rw [nextToken_of_gap hgap] at h
    cases h
    exact ⟨l.rest, [], ⟨rfl, by simp, by simp⟩, rfl, rfl, fun hkind => absurd rfl hkind⟩
  cases hscan : Lexeme.scan c cs with
  | ok taken =>
    rw [nextToken_of_scan hrest hgap hc hscan] at h
    cases h
    have hpass : l.rest = gap ++ taken.text ++ taken.rest := by
      rw [hrest, List.append_assoc, Lexeme.text_append_of_scan hscan]
    refine ⟨gap, taken.text, ⟨rfl, hpass, ?_⟩, rfl, rfl, fun _ => Lexeme.text_ne_nil_of_scan hscan⟩
    rw [List.length_append, Nat.add_assoc]
  | error s =>
    rw [nextToken_of_scan_error hrest hgap hc hscan] at h
    cases h

/-- A fault is at a place that has been passed. -/
theorem nextToken_eq_error (h : l.nextToken = (.error e, l')) :
    ∃ front text, l.Passes (front ++ text) l' ∧ e.position = l.position + front.length := by
  rcases Text.isGap_or_exists l.rest with hgap | ⟨gap, c, cs, hrest, hgap, hc⟩
  · rw [nextToken_of_gap hgap] at h
    cases h
  cases hscan : Lexeme.scan c cs with
  | ok taken =>
    rw [nextToken_of_scan hrest hgap hc hscan] at h
    cases h
  | error s =>
    rw [nextToken_of_scan_error hrest hgap hc hscan] at h
    cases h
    obtain ⟨⟨text, htext⟩, ⟨front, hfront⟩⟩ := Lexeme.endsIn_of_scan hscan
    have hplace : (c :: cs).length = front.length + s.place.length := by
      rw [← hfront, List.length_append]
    have hlength : s.place.length = text.length + s.rest.length := by
      rw [← htext, List.length_append]
    refine ⟨gap ++ front, text, ⟨rfl, ?_, ?_⟩, ?_⟩
    · rw [hrest, ← hfront, ← htext]
      simp
    · simp only [List.length_append]
      omega
    · simp only [List.length_append]
      omega

/-- What stands in a source from one place to another. -/
def slice (source : String) (first last : Nat) : String :=
  String.ofList ((source.toList.drop first).take (last - first))

/-- A reader of this source has read what stands before its position. -/
structure Within (source : String) (l : Lexer) : Prop where
  source_eq : l.source = source
  position_le : l.position ≤ source.length
  rest_eq : l.rest = source.toList.drop l.position

theorem within_ofString (source : String) : Within source (ofString source) :=
  ⟨rfl, Nat.zero_le _, rfl⟩

theorem Within.drop_add {source : String} {front rest : List Char} (h : Within source l)
    (hrest : l.rest = front ++ rest) : source.toList.drop (l.position + front.length) = rest := by
  rw [← List.drop_drop, ← h.rest_eq, hrest, List.drop_left]

theorem Within.passes {source : String} {front : List Char} (h : Within source l)
    (hpass : Passes l front l') : Within source l' where
  source_eq := hpass.source_eq.trans h.source_eq
  position_le := by
    have hlength := congrArg List.length h.rest_eq
    rw [hpass.rest_eq, List.length_append, List.length_drop, String.length_toList] at hlength
    rw [hpass.position_eq]
    have hle := h.position_le
    omega
  rest_eq := by rw [hpass.position_eq, h.drop_add hpass.rest_eq]

theorem Within.finished {source : String} (h : Within source l) (finished : Bool) :
    Within source { l with finished } :=
  ⟨h.source_eq, h.position_le, h.rest_eq⟩

/-- The place that is reported. -/
def place : Except LexError Token → Nat
  | .ok t => t.position
  | .error e => e.position

/-- A step forward in a source, from one place to another: the place that is reported lies between
them, a token's text is what stands from its place on, and only for the end it is empty. -/
structure IsStep (source : String) (first : Nat) (answer : Except LexError Token) (last : Nat) :
    Prop where
  first_le : first ≤ place answer
  le_last : place answer ≤ last
  text_eq : ∀ t, answer = .ok t → t.text = slice source t.position last
  advances : ∀ t, answer = .ok t → t.kind ≠ .eof → t.position < last

theorem nextToken_within {source : String} {answer : Except LexError Token} (h : Within source l)
    (hnext : l.nextToken = (answer, l')) :
    Within source l' ∧ IsStep source l.position answer l'.position := by
  cases answer with
  | error e =>
    obtain ⟨front, text, hpass, hplace⟩ := nextToken_eq_error hnext
    have hposition : l'.position = e.position + text.length := by
      rw [hpass.position_eq, hplace, List.length_append, Nat.add_assoc]
    refine ⟨h.passes hpass, ?_, ?_, nofun, nofun⟩
    · exact Nat.le.intro hplace.symm
    · exact Nat.le.intro hposition.symm
  | ok t =>
    obtain ⟨gap, text, hpass, hplace, htext, hne⟩ := nextToken_eq_ok hnext
    have hposition : l'.position = t.position + text.length := by
      rw [hpass.position_eq, hplace, List.length_append, Nat.add_assoc]
    refine ⟨h.passes hpass, ?_, ?_, ?_, ?_⟩
    · exact Nat.le.intro hplace.symm
    · exact Nat.le.intro hposition.symm
    · rintro _ ⟨⟩
      have hdrop := h.drop_add (hpass.rest_eq.trans (List.append_assoc _ _ _))
      rw [slice, hposition, Nat.add_sub_cancel_left, hplace, hdrop, List.take_left, htext]
    · rintro _ ⟨⟩ hkind
      have hpos := List.length_pos_iff.mpr (hne hkind)
      omega

/-- What a reader can be asked for. -/
inductive Request where
  | next
  | nextToken
  | reset

/-- The answer to a request, if there is one, and the reader behind it. -/
def serve (l : Lexer) : Request → Option (Except LexError Token) × Lexer
  | .next => l.next?
  | .nextToken => (some l.nextToken.1, l.nextToken.2)
  | .reset => (none, l.reset)

/-- A reader of a source behind requests one after another, whatever the answers are. -/
def reached (source : String) (requests : List Request) : Lexer :=
  requests.foldl (fun l request => (l.serve request).2) (ofString source)

theorem next?_within {source : String} (h : Within source l) :
    Within source l.next?.2 ∧
      ∀ answer ∈ l.next?.1, IsStep source l.position answer l.next?.2.position := by
  unfold next?
  split
  · exact ⟨h, nofun⟩
  -- besides the step, only the mark of the end or of an error is set
  · split
    all_goals
      rename_i hnext
      obtain ⟨hwithin, hstep⟩ := nextToken_within h hnext
      refine ⟨hwithin.finished _, ?_⟩
      rintro _ ⟨⟩
      exact hstep

theorem serve_within {source : String} (h : Within source l) (request : Request) :
    Within source (l.serve request).2 ∧
      ∀ answer ∈ (l.serve request).1,
        IsStep source l.position answer (l.serve request).2.position := by
  cases request with
  | next => exact next?_within h
  | nextToken =>
    obtain ⟨hwithin, hstep⟩ := nextToken_within h rfl
    refine ⟨hwithin, ?_⟩
    rintro _ ⟨⟩
    exact hstep
  | reset =>
    have hreset : l.reset = ofString source := by rw [reset, h.source_eq]
    rw [serve, hreset]
    exact ⟨within_ofString source, nofun⟩

theorem within_foldl {source : String} (h : Within source l) (requests : List Request) :
    Within source (requests.foldl (fun l request => (l.serve request).2) l) := by
  induction requests generalizing l with
  | nil => exact h
  | cons request requests ih => exact ih (serve_within h request).1

/-- A reader never leaves its source, whatever it is asked for and whatever errors it meets, and
each answer is a step forward. -/
theorem reached_within (source : String) (requests : List Request) (request : Request) :
    Within source (reached source requests) ∧
      Within source ((reached source requests).serve request).2 ∧
      ∀ answer ∈ ((reached source requests).serve request).1,
        IsStep source (reached source requests).position answer
          ((reached source requests).serve request).2.position := by
  have hwithin := within_foldl (within_ofString source) requests
  exact ⟨hwithin, serve_within hwithin request⟩

/-- A source with an error in the middle of an escape, and a token behind it. -/
def brokenSource : String :=
  "a '\\u12 b"

theorem reached_within_brokenSource :
    Within brokenSource (reached brokenSource [.next, .next, .next]) ∧
      ((reached brokenSource [.next, .next, .next]).serve .nextToken).1 =
        some (.ok ⟨.name "b", "b", 8⟩) ∧
      IsStep brokenSource 7 (.ok ⟨.name "b", "b", 8⟩) 9 := by
  have hanswer : ((reached brokenSource [.next, .next, .next]).serve .nextToken).1 =
      some (.ok ⟨.name "b", "b", 8⟩) := by
    cbv
  obtain ⟨hwithin, -, hstep⟩ := reached_within brokenSource [.next, .next, .next] .nextToken
  exact ⟨hwithin, hanswer, hstep _ hanswer⟩

end Lexer

end Stencil

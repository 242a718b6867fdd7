import Stencil.Proofs.Text.Pattern
import Stencil.Template.Key

/-!
# Patterns of keys

Iterations and conditions as patterns. Looking for the shortest source of an iteration, and for the
last braces of a condition, is the same as taking the first way in which the pattern matches.
-/

namespace Stencil.Template

open Pattern (one many several both optional group finish)

/-- The end of a key. -/
def closing : List Char :=
  ['\x7d', '\x7d']

def literal (c : Char) : Pattern :=
  one (· == c)

def blanks : Pattern :=
  many true Text.isBlank

def someBlanks : Pattern :=
  several true Text.isBlank

def identifier : Pattern :=
  (one Lexeme.isNameStart).both (many true Lexeme.isNamePart)

/-- Blanks, the word `as`, blanks, and a name. -/
def asPattern : Pattern :=
  someBlanks.both <| (literal 'a').both <| (literal 's').both <|
    someBlanks.both (group 2 identifier)

/-- Opening braces and a sign. -/
def openingPattern (sign : Char) : Pattern :=
  (literal '\x7b').both <| (literal '\x7b').both <| blanks.both (literal sign)

/-- Closing braces at the end. -/
def bracesPattern : Pattern :=
  (literal '\x7d').both <| (literal '\x7d').both finish

def closingPattern : Pattern :=
  blanks.both bracesPattern

/-- A source as short as possible, and a name if there is one. -/
def iterationPattern : Pattern :=
  (openingPattern '#').both <| (group 1 (several false fun _ => true)).both <|
    (optional asPattern).both closingPattern

/-- A condition up to the last braces. -/
def conditionalPattern : Pattern :=
  (openingPattern '?').both <| (group 1 (several true fun _ => true)).both bracesPattern

variable {α : Type} {c d : Char} {cs : List Char} {k : Pattern.Way → Option α}

theorem find_literal_nil : (literal c).find [] k = none :=
  rfl

theorem find_literal_cons :
    (literal c).find (d :: cs) k = if d = c then k ⟨[d], [], cs⟩ else none := by
  rw [literal, Pattern.find_one_cons]
  simp

theorem find_literal_of_isBlank (hc : Text.isBlank c = false) (hd : Text.isBlank d) :
    (literal c).find (d :: cs) k = none := by
  rw [find_literal_cons, if_neg]
  rintro rfl
  rw [hc] at hd
  cases hd

/-- Two characters, and a pattern behind them. -/
theorem find_literals_cons {a b : Char} {p : Pattern} :
    ((literal c).both ((literal d).both p)).find (a :: b :: cs) k =
      if a = c ∧ b = d then p.find cs fun w => k ⟨a :: b :: w.text, w.groups, w.rest⟩
      else none := by
  rw [Pattern.find_both, find_literal_cons]
  by_cases ha : a = c
  · rw [if_pos ha, Pattern.find_both, find_literal_cons]
    by_cases hb : b = d
    · rw [if_pos hb, if_pos ⟨ha, hb⟩]
      rfl
    · rw [if_neg hb, if_neg fun h => hb h.2]
  · rw [if_neg ha, if_neg fun h => ha h.1]

theorem find_literals_of_length_lt {p : Pattern} (h : cs.length < 2) :
    ((literal c).both ((literal d).both p)).find cs k = none := by
  simp only [Pattern.find_both]
  rcases cs with _ | ⟨a, _ | ⟨b, cs⟩⟩
  · rfl
  · simp [find_literal_cons, find_literal_nil]
  · simp at h

theorem find_bracesPattern :
    bracesPattern.find cs k = if cs = closing then k ⟨cs, [], []⟩ else none := by
  rw [bracesPattern]
  rcases cs with _ | ⟨a, _ | ⟨b, cs⟩⟩
  · rfl
  · rw [find_literals_of_length_lt (by simp)]
    simp [closing]
  · rw [find_literals_cons]
    cases cs with
    | nil => simp [closing, Pattern.find_finish_nil]
    | cons e cs => simp [closing, Pattern.find_finish_cons]

theorem find_closingPattern (f : List (Nat × List Char) → α) (cs : List Char) :
    closingPattern.find cs (fun w => some (f w.groups)) =
      if closes cs then some (f []) else none := by
  rw [closingPattern, Pattern.find_both, blanks, Pattern.find_many_of_stop]
  · simp only [find_bracesPattern, closes, decide_eq_true_eq]
    rfl
  · intro front c rest hc
    rw [bracesPattern, Pattern.find_both]
    exact find_literal_of_isBlank (by decide) hc

theorem not_closes_of_isNamePart (h : Lexeme.isNamePart c) : closes (c :: cs) = false := by
  have hblank : ¬ Text.isBlank c := by simp [Lexeme.isBlank_of_isNamePart h]
  rw [closes, Text.dropBlanks, List.dropWhile_cons_of_neg hblank, decide_eq_false_iff_not]
  intro heq
  obtain ⟨rfl, -⟩ := List.cons.inj heq
  cases h

theorem find_identifier_of_isBlank (hc : Text.isBlank c) : identifier.find (c :: cs) k = none := by
  rw [identifier, Pattern.find_both, Pattern.find_one_cons, if_neg]
  intro hstart
  have hpart := Lexeme.isNamePart_of_isNameStart hstart
  rw [Lexeme.isNamePart_of_isBlank hc] at hpart
  cases hpart

theorem find_identifier (c : Char) (cs : List Char)
    (f : List Char → List (Nat × List Char) → α) :
    identifier.find (c :: cs) (fun w =>
      closingPattern.find w.rest fun w' => some (f w.text (w.groups ++ w'.groups))) =
      if Lexeme.isNameStart c && closes (Text.run Lexeme.isNamePart (c :: cs)).2 then
        some (f (Text.run Lexeme.isNamePart (c :: cs)).1 [])
      else none := by
  rw [identifier, Pattern.find_both, Pattern.find_one_cons]
  by_cases hc : Lexeme.isNameStart c
  · have hrun : Text.run Lexeme.isNamePart (c :: cs) =
        (c :: (Text.run Lexeme.isNamePart cs).1, (Text.run Lexeme.isNamePart cs).2) := by
      simp [Text.run, Lexeme.isNamePart_of_isNameStart hc]
    rw [if_pos hc, Pattern.find_many_of_stop, hrun]
    · simp [find_closingPattern, hc]
    · intro front d rest hd
      simp [find_closingPattern, not_closes_of_isNamePart hd]
  · simp [hc]

theorem find_asPattern (f : List (Nat × List Char) → α) :
    asPattern.find cs (fun w =>
      closingPattern.find w.rest fun w' => some (f (w.groups ++ w'.groups))) =
      (asName? cs).map fun name => f [(2, name)] := by
  simp only [asPattern, Pattern.find_both, Pattern.find_group, someBlanks]
  rw [Pattern.find_several_of_stop, asName?]
  · cases Text.run Text.isBlank cs with
    | mk gap rest =>
    cases gap with
    | nil => simp
    | cons g gs =>
    rw [if_neg (List.cons_ne_nil g gs)]
    rcases rest with _ | ⟨a, _ | ⟨s, rest⟩⟩
    · rfl
    · simp [find_literal_cons, find_literal_nil]
    by_cases hword : a = 'a' ∧ s = 's'
    · obtain ⟨rfl, rfl⟩ := hword
      simp only [find_literal_cons, if_true]
      rw [Pattern.find_several_of_stop]
      · cases Text.run Text.isBlank rest with
        | mk gap rest =>
        cases gap with
        | nil => simp
        | cons g gs =>
        rw [if_neg (List.cons_ne_nil g gs)]
        cases rest with
        | nil => rfl
        | cons c rest =>
          have hidentifier := find_identifier c rest fun name groups =>
            f ((2, name) :: groups)
          simpa using hidentifier
      · exact fun front c rest hc => find_identifier_of_isBlank hc
    · by_cases ha : a = 'a' <;> by_cases hs : s = 's' <;> simp_all [find_literal_cons]
  · intro front c rest hc
    exact find_literal_of_isBlank (by decide) hc

/-- The optional name, and the end. -/
theorem find_ending (f : List (Nat × List Char) → α) (cs : List Char) :
    ((optional asPattern).both closingPattern).find cs (fun w => some (f w.groups)) =
      (ending? cs).map fun name => f (name.elim [] fun name => [(2, name)]) := by
  have hclosing := find_closingPattern f cs
  rw [Pattern.find_both, Pattern.find_optional]
  simp only [Pattern.Way.append, List.nil_append, hclosing, find_asPattern, ending?]
  cases asName? cs with
  | some name => rfl
  | none => by_cases hcloses : closes cs <;> simp [hcloses]

/-- The first way of a source that is as short as possible. -/
theorem find_source (f : List Char → List (Nat × List Char) → Option (List Char) → α) :
    (many false fun _ => true).find cs (fun w => (ending? w.rest).map (f (c :: w.text) w.groups)) =
      (iteration? (c :: cs)).map fun (source, name) => f source [] name := by
  induction cs generalizing c f with
  | nil => rfl
  | cons d cs ih =>
    rw [Pattern.find_many_lazy_cons, iteration?]
    simp only [if_true]
    cases ending? (d :: cs) with
    | some name => rfl
    | none =>
      simp only [Option.map_none, Option.none_or, Option.map_map]
      exact ih fun source groups name => f (c :: source) [] name

theorem dropClosing?_eq_some_iff {front : List Char} :
    dropClosing? cs = some front ↔ cs = front ++ closing := by
  rw [dropClosing?, closing]
  constructor
  · intro h
    split at h
    · rename_i rest hrest
      obtain rfl := Option.some.inj h
      rw [← List.reverse_reverse cs, hrest]
      simp
    · cases h
  · rintro rfl
    simp

theorem condition?_eq_some_iff {source : List Char} :
    condition? cs = some source ↔ source ≠ [] ∧ cs = source ++ closing := by
  rw [condition?, Option.filter_eq_some_iff, dropClosing?_eq_some_iff, and_comm]
  simp

/-- The first way of a condition that is as long as possible, and the only one. -/
theorem find_condition (f : List Char → List (Nat × List Char) → α) :
    (many true fun _ => true).find cs (fun w =>
      bracesPattern.find w.rest fun w' => some (f (c :: w.text) (w.groups ++ w'.groups))) =
      (condition? (c :: cs)).map fun source => f source [] := by
  simp only [find_bracesPattern]
  cases hcondition : condition? (c :: cs) with
  | some source =>
    obtain ⟨hne, hsource⟩ := condition?_eq_some_iff.mp hcondition
    obtain ⟨d, source, rfl⟩ := List.exists_cons_of_ne_nil hne
    obtain ⟨rfl, hcs⟩ := List.cons.inj hsource
    rw [Pattern.find_many_of_unique hcs (fun _ _ => rfl)]
    · rfl
    · intro front rest hcs' _ hfound
      have hrest : rest = closing := by
        by_contra hrest
        exact hfound (if_neg hrest)
      rw [hrest, hcs] at hcs'
      exact (List.append_cancel_right hcs').symm
  | none =>
    rw [Pattern.find_many_eq_none]
    · rfl
    · intro front rest hcs
      refine if_neg fun (hrest : rest = closing) => ?_
      have hsome : condition? (c :: cs) = some (c :: front) :=
        condition?_eq_some_iff.mpr ⟨List.cons_ne_nil _ _, by rw [hcs, hrest]; rfl⟩
      rw [hcondition] at hsome
      cases hsome

theorem behindSign?_cons_cons (sign : Char) (rest : List Char) :
    behindSign? sign (c :: d :: rest) =
      if c = '\x7b' ∧ d = '\x7b' then
        match Text.dropBlanks rest with
        | c :: rest => if c = sign then some rest else none
        | [] => none
      else none := by
  by_cases hbraces : c = '\x7b' ∧ d = '\x7b'
  · obtain ⟨rfl, rfl⟩ := hbraces
    exact (if_pos ⟨rfl, rfl⟩).symm
  · rw [if_neg hbraces]
    by_cases hc : c = '\x7b' <;> by_cases hd : d = '\x7b' <;> simp_all [behindSign?]

theorem find_openingPattern {sign : Char} (hsign : Text.isBlank sign = false)
    (key : List Char) (g : List (Nat × List Char) → List Char → Option α) :
    (openingPattern sign).find key (fun w => g w.groups w.rest) =
      (behindSign? sign key).bind (g []) := by
  rw [openingPattern]
  rcases key with _ | ⟨c, _ | ⟨d, rest⟩⟩
  · rfl
  · rw [find_literals_of_length_lt (by simp)]
    simp [behindSign?]
  · rw [find_literals_cons, behindSign?_cons_cons]
    by_cases hbraces : c = '\x7b' ∧ d = '\x7b'
    · rw [if_pos hbraces, if_pos hbraces, Pattern.find_both, blanks, Pattern.find_many_of_stop]
      · change (literal sign).find (Text.dropBlanks rest) _ = _
        cases Text.dropBlanks rest with
        | nil => rfl
        | cons e rest =>
          rw [find_literal_cons]
          by_cases he : e = sign <;> simp [he]
      · exact fun front e rest he => find_literal_of_isBlank hsign he
    · rw [if_neg hbraces, if_neg hbraces]
      rfl

theorem find_iteration :
    ((group 1 (several false fun _ => true)).both
      ((optional asPattern).both closingPattern)).find cs
      (fun w => some w.groups) =
      (iteration? cs).map fun (source, name) =>
        (1, source) :: name.elim [] fun name => [(2, name)] := by
  rw [Pattern.find_both, Pattern.find_group]
  cases cs with
  | nil => rfl
  | cons c cs =>
    rw [Pattern.find_several_cons, if_pos rfl]
    simp only [Pattern.Way.groups_append]
    have hending (w : Pattern.Way) :=
      find_ending (fun groups => (1, c :: w.text) :: w.groups ++ groups) w.rest
    simp only [hending]
    exact find_source fun source groups name =>
      (1, source) :: groups ++ name.elim [] fun name => [(2, name)]

/-- The first way in which the pattern of an iteration matches has the shortest source. -/
theorem groups?_iterationPattern (key : List Char) :
    iterationPattern.groups? key = ((behindSign? '#' key).bind iteration?).map fun (source, name) =>
      (1, source) :: name.elim [] fun name => [(2, name)] := by
  have hblank : Text.isBlank '#' = false := by decide
  have hopening := find_openingPattern hblank key fun groups rest =>
    ((group 1 (several false fun _ => true)).both
      ((optional asPattern).both closingPattern)).find rest fun w => some (groups ++ w.groups)
  rw [Pattern.groups?_eq_find, iterationPattern, Pattern.find_both]
  simp only [Pattern.Way.groups_append]
  rw [hopening]
  cases behindSign? '#' key with
  | none => rfl
  | some cs => exact find_iteration

theorem find_conditional :
    ((group 1 (several true fun _ => true)).both bracesPattern).find cs (fun w => some w.groups) =
      (condition? cs).map fun source => [(1, source)] := by
  rw [Pattern.find_both, Pattern.find_group]
  cases cs with
  | nil => rfl
  | cons c cs =>
    rw [Pattern.find_several_cons, if_pos rfl]
    exact find_condition fun source groups => (1, source) :: groups

theorem groups?_conditionalPattern (key : List Char) :
    conditionalPattern.groups? key = ((behindSign? '?' key).bind condition?).map fun source =>
      [(1, source)] := by
  have hblank : Text.isBlank '?' = false := by decide
  have hopening := find_openingPattern hblank key fun groups rest =>
    ((group 1 (several true fun _ => true)).both bracesPattern).find rest fun w =>
      some (groups ++ w.groups)
  rw [Pattern.groups?_eq_find, conditionalPattern, Pattern.find_both]
  simp only [Pattern.Way.groups_append]
  rw [hopening]
  cases behindSign? '?' key with
  | none => rfl
  | some cs => exact find_conditional

/-- The text of a group, if the group is in the match. -/
def groupText? (groups : List (Nat × List Char)) (i : Nat) : Option String :=
  (groups.lookup i).map String.ofList

def iterationOf? (groups : List (Nat × List Char)) : Option Key :=
  (groupText? groups 1).map fun source =>
    .iteration source ((groupText? groups 2).getD elementName)

def conditionalOf? (groups : List (Nat × List Char)) : Option Key :=
  (groupText? groups 1).map .conditional

/-- Classification by the first ways in which the two patterns match, the iteration before the
condition. -/
def classifyByPatterns (key : String) : Key :=
  if key = commentKey then .comment
  else
    let cs := Text.strip key.toList
    (((iterationPattern.groups? cs).bind iterationOf?).or
      ((conditionalPattern.groups? cs).bind conditionalOf?)).getD
      ((source? key).elim .literal .computed)

theorem iterationKey?_eq_groups (key : List Char) :
    iterationKey? key = (iterationPattern.groups? key).bind iterationOf? := by
  rw [groups?_iterationPattern, iterationKey?]
  cases behindSign? '#' key with
  | none => rfl
  | some cs =>
    simp only [Option.bind_eq_bind, Option.bind_some]
    rcases iteration? cs with _ | ⟨source, _ | name⟩ <;> rfl

theorem conditionalKey?_eq_groups (key : List Char) :
    conditionalKey? key = (conditionalPattern.groups? key).bind conditionalOf? := by
  rw [groups?_conditionalPattern, conditionalKey?]
  cases behindSign? '?' key with
  | none => rfl
  | some cs =>
    simp only [Option.bind_eq_bind, Option.bind_some]
    cases condition? cs <;> rfl

theorem classify_eq_classifyByPatterns (key : String) : classify key = classifyByPatterns key := by
  rw [classify, classifyByPatterns]
  simp only [iterationKey?_eq_groups, conditionalKey?_eq_groups]

end Stencil.Template

import Mathlib.Data.List.Infix
import Stencil.Proofs.Template.KeyPatterns

/-!
# Keys and what they are formed of

Between its braces a key holds a sign and a source, and an iteration may hold a name. Sources may
have braces and the word `as` in them: the ending of a key is found at its end and nowhere before
it, so that a key is classified as what it was formed of.
-/

namespace Stencil

namespace Text

/-- A text with a character in it and without blanks at its ends. -/
structure IsTight (cs : List Char) : Prop where
  ne_nil : cs ≠ []
  head : ∀ c ∈ cs.head?, isBlank c = false
  last : ∀ c ∈ cs.getLast?, isBlank c = false

theorem IsTight.last_suffix {cs u : List Char} (h : IsTight cs) (hu : u <:+ cs) :
    ∀ c ∈ u.getLast?, isBlank c = false := by
  obtain ⟨front, rfl⟩ := hu
  intro c hc
  apply h.last
  rw [List.getLast?_append, Option.mem_def.mp hc]
  rfl

theorem dropBlanks_append {gap cs : List Char} (hgap : IsGap gap)
    (hcs : ∀ c ∈ cs.head?, isBlank c = false) : dropBlanks (gap ++ cs) = cs :=
  congrArg Prod.snd (Lexeme.run_append_of_stop hgap hcs)

theorem isGap_reverse {gap : List Char} (h : IsGap gap) : IsGap gap.reverse :=
  fun c hc => h c (List.mem_reverse.mp hc)

/-- Blanks around a text are stripped. -/
theorem strip_append {before cs after : List Char} (hbefore : IsGap before) (hcs : IsTight cs)
    (hafter : IsGap after) : strip (before ++ cs ++ after) = cs := by
  have hfront : ∀ c ∈ (cs ++ after).head?, isBlank c = false := by
    rw [List.head?_append_of_ne_nil _ hcs.ne_nil]
    exact hcs.head
  have hback : ∀ c ∈ cs.reverse.head?, isBlank c = false := by
    rw [List.head?_reverse]
    exact hcs.last
  rw [strip, List.append_assoc, dropBlanks_append hbefore hfront, List.reverse_append,
    dropBlanks_append (isGap_reverse hafter) hback, List.reverse_reverse]

/-- Where the characters of a class at the end of a text begin is seen from the end. -/
theorem append_inj_of_stop {p : Char → Bool} {x y a b : List Char} (h : x ++ a = y ++ b)
    (ha : ∀ c ∈ a, p c) (hb : ∀ c ∈ b, p c) (hx : ∀ c ∈ x.getLast?, p c = false)
    (hy : ∀ c ∈ y.getLast?, p c = false) : x = y ∧ a = b := by
  have hrun {x a : List Char} (ha : ∀ c ∈ a, p c) (hx : ∀ c ∈ x.getLast?, p c = false) :
      run p (x ++ a).reverse = (a.reverse, x.reverse) := by
    rw [List.reverse_append]
    apply Lexeme.run_append_of_stop
    · exact fun c hc => ha c (List.mem_reverse.mp hc)
    · rwa [List.head?_reverse]
  have hsame := hrun ha hx
  rw [h, hrun hb hy, Prod.mk.injEq, List.reverse_inj, List.reverse_inj] at hsame
  exact ⟨hsame.2.symm, hsame.1.symm⟩

end Text

open Text (IsGap IsTight)

namespace Template

/-- A letter or an underscore, and letters, digits and underscores behind it. -/
def IsIdentifier (cs : List Char) : Prop :=
  ∃ c rest, cs = c :: rest ∧ Lexeme.isNameStart c ∧ ∀ d ∈ rest, Lexeme.isNamePart d

/-- Blanks, the word `as`, blanks again, and the name. -/
def IsAsName (cs name : List Char) : Prop :=
  ∃ gap gap', IsGap gap ∧ gap ≠ [] ∧ IsGap gap' ∧ gap' ≠ [] ∧ IsIdentifier name ∧
    cs = gap ++ 'a' :: 's' :: (gap' ++ name)

theorem isAsName_of_isIdentifier {name : List Char} (h : IsIdentifier name) :
    IsAsName (' ' :: 'a' :: 's' :: ' ' :: name) name := by
  have hspace : IsGap [' '] := List.forall_mem_singleton.mpr (by decide)
  exact ⟨[' '], [' '], hspace, List.cons_ne_nil _ _, hspace, List.cons_ne_nil _ _, h, rfl⟩

theorem IsIdentifier.isNamePart {cs : List Char} (h : IsIdentifier cs) :
    ∀ c ∈ cs, Lexeme.isNamePart c := by
  obtain ⟨c, rest, rfl, hc, hrest⟩ := h
  exact List.forall_mem_cons.mpr ⟨Lexeme.isNamePart_of_isNameStart hc, hrest⟩

theorem IsIdentifier.ne_nil {cs : List Char} (h : IsIdentifier cs) : cs ≠ [] := by
  obtain ⟨c, rest, rfl, -⟩ := h
  exact List.cons_ne_nil c rest

theorem IsIdentifier.last {name : List Char} (h : IsIdentifier name) (front : List Char) :
    ∀ c ∈ (front ++ name).getLast?, Text.isBlank c = false := by
  intro c hc
  rw [List.getLast?_append_of_ne_nil _ h.ne_nil] at hc
  exact Lexeme.isBlank_of_isNamePart (h.isNamePart c (List.mem_of_getLast? hc))

theorem closes_iff {cs : List Char} : closes cs ↔ ∃ gap, IsGap gap ∧ cs = gap ++ closing := by
  rw [closes, decide_eq_true_iff]
  constructor
  · intro h
    refine ⟨cs.takeWhile Text.isBlank, fun c hc => List.mem_takeWhile_imp hc, ?_⟩
    rw [closing, ← h]
    exact List.takeWhile_append_dropWhile.symm
  · rintro ⟨gap, hgap, rfl⟩
    apply Text.dropBlanks_append hgap
    rintro c ⟨⟩
    decide

theorem isNamePart_gap_closing {gap : List Char} (hgap : IsGap gap) :
    ∀ c ∈ (gap ++ closing).head?, Lexeme.isNamePart c = false := by
  intro c hc
  cases gap with
  | nil =>
    obtain rfl := Option.mem_some_iff.mp hc
    rfl
  | cons d gap =>
    obtain rfl := Option.mem_some_iff.mp hc
    exact Lexeme.isNamePart_of_isBlank (hgap d List.mem_cons_self)

theorem exists_of_asName? {cs name : List Char} (h : asName? cs = some name) :
    ∃ u gap, IsAsName u name ∧ IsGap gap ∧ cs = u ++ (gap ++ closing) := by
  rw [asName?] at h
  split at h
  · rename_i g gs rest hrun
    split at h
    · rename_i g' gs' c rest' hrun'
      obtain ⟨hgap, -, rfl⟩ := Lexeme.run_eq_iff.mp hrun
      obtain ⟨hgap', -, rfl⟩ := Lexeme.run_eq_iff.mp hrun'
      simp only [Option.ite_none_right_eq_some, Bool.and_eq_true, Option.some.injEq] at h
      obtain ⟨⟨hc, hcloses⟩, rfl⟩ := h
      obtain ⟨gap, hgap'', hrest⟩ := closes_iff.mp hcloses
      have hname : IsIdentifier (Text.run Lexeme.isNamePart (c :: rest')).1 := by
        refine ⟨c, rest'.takeWhile Lexeme.isNamePart, ?_, hc, fun d hd => ?_⟩
        · exact List.takeWhile_cons_of_pos (Lexeme.isNamePart_of_isNameStart hc)
        · exact List.mem_takeWhile_imp hd
      refine ⟨_, gap, ⟨g :: gs, g' :: gs', hgap, List.cons_ne_nil g gs, hgap',
        List.cons_ne_nil g' gs', hname, rfl⟩, hgap'', ?_⟩
      rw [← hrest]
      simp only [List.append_assoc, List.cons_append, Text.run_append]
    · cases h
  · cases h

theorem asName?_append {u name gap : List Char} (h : IsAsName u name) (hgap : IsGap gap) :
    asName? (u ++ (gap ++ closing)) = some name := by
  obtain ⟨before, after, hbefore, hne, hafter, hne', ⟨c, rest, rfl, hc, hrest⟩, rfl⟩ := h
  have hpart := Lexeme.isNamePart_of_isNameStart hc
  have hword : Text.run Text.isBlank
      (before ++ 'a' :: 's' :: (after ++ c :: rest) ++ (gap ++ closing)) =
      (before, 'a' :: 's' :: (after ++ c :: (rest ++ (gap ++ closing)))) := by
    simp only [List.append_assoc, List.cons_append]
    exact Text.run_gap_append hbefore (by decide)
  have hspace : Text.run Text.isBlank (after ++ c :: (rest ++ (gap ++ closing))) =
      (after, c :: (rest ++ (gap ++ closing))) :=
    Text.run_gap_append hafter (Lexeme.isBlank_of_isNamePart hpart)
  have hname : Text.run Lexeme.isNamePart (c :: (rest ++ (gap ++ closing))) =
      (c :: rest, gap ++ closing) := by
    rw [← List.cons_append]
    exact Lexeme.run_append_of_stop (List.forall_mem_cons.mpr ⟨hpart, hrest⟩)
      (isNamePart_gap_closing hgap)
  have hcloses : closes (gap ++ closing) := closes_iff.mpr ⟨gap, hgap, rfl⟩
  obtain ⟨d, before, rfl⟩ := List.exists_cons_of_ne_nil hne
  obtain ⟨e, after, rfl⟩ := List.exists_cons_of_ne_nil hne'
  rw [asName?, hword]
  simp only [hspace, hname, hc, hcloses, Bool.and_self, if_true]

/-- The name behind the word `as` is found if and only if blanks and the end follow it. -/
theorem asName?_eq_some_iff {cs name : List Char} : asName? cs = some name ↔
    ∃ u gap, IsAsName u name ∧ IsGap gap ∧ cs = u ++ (gap ++ closing) := by
  constructor
  · exact exists_of_asName?
  · rintro ⟨u, gap, hu, hgap, rfl⟩
    exact asName?_append hu hgap

/-- What stands before an ending and has none in it from its second character on is the source. -/
theorem iteration?_append {s tail : List Char} {name : Option (List Char)} (hs : s ≠ [])
    (htail : ending? tail = some name)
    (hnone : ∀ u, u ≠ [] → u <:+ s.tail → ending? (u ++ tail) = none) :
    iteration? (s ++ tail) = some (s, name) := by
  induction s with
  | nil => exact absurd rfl hs
  | cons c s ih =>
    rw [List.cons_append, iteration?]
    by_cases hlast : s = []
    · subst hlast
      rw [List.nil_append, htail]
    · have hrest : iteration? (s ++ tail) = some (s, name) :=
        ih hlast fun u hu hsuffix => hnone u hu (hsuffix.trans (List.tail_suffix s))
      rw [hnone s hlast List.suffix_rfl, hrest]
      rfl

theorem ending?_eq_none {cs : List Char} (hname : ∀ name, asName? cs ≠ some name)
    (hcloses : ¬ closes cs) : ending? cs = none := by
  rw [ending?, Option.eq_none_iff_forall_ne_some.mpr hname]
  exact if_neg hcloses

theorem IsAsName.last {cs name : List Char} (h : IsAsName cs name) :
    ∀ c ∈ cs.getLast?, Text.isBlank c = false := by
  obtain ⟨gap, gap', -, -, -, -, hname, rfl⟩ := h
  have hends : gap ++ 'a' :: 's' :: (gap' ++ name) = gap ++ 'a' :: 's' :: gap' ++ name := by simp
  rw [hends]
  exact hname.last _

theorem isAsName_of_asName? {cs name : List Char}
    (hlast : ∀ c ∈ cs.getLast?, Text.isBlank c = false)
    (h : asName? (cs ++ closing) = some name) : IsAsName cs name := by
  obtain ⟨u, gap, hu, hgap, heq⟩ := asName?_eq_some_iff.mp h
  rw [← List.append_assoc, List.append_left_inj] at heq
  have hends : cs ++ [] = u ++ gap := by rw [List.append_nil, heq]
  obtain ⟨rfl, -⟩ := Text.append_inj_of_stop hends nofun hgap hlast hu.last
  exact hu

/-- Without a name at its end, a text has no ending before the braces. -/
theorem ending?_append_closing {cs : List Char} (hne : cs ≠ [])
    (hlast : ∀ c ∈ cs.getLast?, Text.isBlank c = false) (hnone : ∀ name, ¬ IsAsName cs name) :
    ending? (cs ++ closing) = none := by
  apply ending?_eq_none
  · exact fun name h => hnone name (isAsName_of_asName? hlast h)
  · intro h
    obtain ⟨gap, hgap, heq⟩ := closes_iff.mp h
    rw [List.append_left_inj] at heq
    have hblank := hgap (cs.getLast hne) (heq ▸ List.getLast_mem hne)
    rw [hlast _ (List.getLast?_eq_some_getLast hne)] at hblank
    cases hblank

/-- In front of a name and the word `as` that belong to longer ones of these, there are only
blanks. -/
theorem isGap_of_isAsName_append {u v name name' : List Char} (hv : IsAsName v name)
    (h : IsAsName (u ++ v) name') : IsGap u := by
  obtain ⟨gap₁, gap₁', hgap₁, -, hgap₁', hne₁, hname₁, rfl⟩ := hv
  obtain ⟨gap₂, gap₂', hgap₂, -, hgap₂', hne₂, hname₂, heq⟩ := h
  have hword (front : List Char) :
      ∀ c ∈ (front ++ ['a', 's']).getLast?, Text.isBlank c = false := by
    rw [List.getLast?_append_of_ne_nil _ (List.cons_ne_nil 'a' ['s'])]
    rintro c ⟨⟩
    decide
  have hspace (front : List Char) {gap : List Char} (hgap : IsGap gap) (hne : gap ≠ []) :
      ∀ c ∈ (front ++ gap).getLast?, Lexeme.isNamePart c = false := by
    intro c hc
    rw [List.getLast?_append_of_ne_nil _ hne] at hc
    exact Lexeme.isNamePart_of_isBlank (hgap c (List.mem_of_getLast? hc))
  -- the two readings are compared from the end: the names, the blanks before them, the words
  have hwhole : u ++ gap₁ ++ ['a', 's'] ++ gap₁' ++ name =
      gap₂ ++ ['a', 's'] ++ gap₂' ++ name' := by
    simpa using heq
  obtain ⟨hspaced, -⟩ := Text.append_inj_of_stop hwhole hname₁.isNamePart hname₂.isNamePart
    (hspace _ hgap₁' hne₁) (hspace _ hgap₂' hne₂)
  obtain ⟨hworded, -⟩ := Text.append_inj_of_stop hspaced hgap₁' hgap₂' (hword _) (hword _)
  have hgap : u ++ gap₁ = gap₂ := (List.append_left_inj _).mp hworded
  exact fun c hc => hgap₂ c (hgap ▸ List.mem_append_left _ hc)

/-- A name at the end of a key is not taken for a part of an earlier ending. -/
theorem ending?_before_name {u name : List Char} (hu : u ≠ [])
    (hlast : ∀ c ∈ u.getLast?, Text.isBlank c = false) (hname : IsIdentifier name) :
    ending? (u ++ (' ' :: 'a' :: 's' :: ' ' :: (name ++ closing))) = none := by
  have htext : u ++ (' ' :: 'a' :: 's' :: ' ' :: (name ++ closing)) =
      u ++ (' ' :: 'a' :: 's' :: ' ' :: name) ++ closing := by simp
  have hends := isAsName_of_isIdentifier hname
  rw [htext]
  apply ending?_append_closing
  · exact List.append_ne_nil_of_left_ne_nil hu _
  · rw [List.getLast?_append_of_ne_nil u (List.cons_ne_nil ' ' _)]
    exact hends.last
  · intro name' h
    have hblank := isGap_of_isAsName_append hends h (u.getLast hu) (List.getLast_mem hu)
    rw [hlast _ (List.getLast?_eq_some_getLast hu)] at hblank
    cases hblank

/-- A text between braces. -/
def braced (cs : List Char) : List Char :=
  '\x7b' :: '\x7b' :: (cs ++ closing)

theorem isTight_braced (cs : List Char) : IsTight (braced cs) where
  ne_nil := List.cons_ne_nil _ _
  head := by
    rintro c ⟨⟩
    decide
  last := by
    have hlast : (braced cs).getLast? = closing.getLast? :=
      List.getLast?_append_of_ne_nil ('\x7b' :: '\x7b' :: cs) (List.cons_ne_nil _ _)
    rw [hlast]
    rintro c ⟨⟩
    decide

theorem behindSign?_braced {sign c : Char} {cs : List Char} (hc : Text.isBlank c = false) :
    behindSign? sign (braced (c :: cs)) = if c = sign then some (cs ++ closing) else none := by
  have hdrop : Text.dropBlanks (c :: cs ++ closing) = c :: (cs ++ closing) :=
    List.dropWhile_cons_of_neg (by simp [hc])
  rw [braced, behindSign?, hdrop]

/-- A text between braces, with more text around it. -/
def keyOf (before inner after : String) : String :=
  before ++ "\x7b\x7b" ++ inner ++ "\x7d\x7d" ++ after

variable {before after inner : String}

theorem strip_keyOf (hbefore : IsGap before.toList) (hafter : IsGap after.toList) :
    Text.strip (keyOf before inner after).toList = braced inner.toList := by
  have htext : (keyOf before inner after).toList =
      before.toList ++ braced inner.toList ++ after.toList := by
    simp [keyOf, braced, closing]
  rw [htext, Text.strip_append hbefore (isTight_braced _) hafter]

/-- With blanks around it, a text between braces is an iteration, a condition or a computed name. -/
theorem classify_keyOf (hbefore : IsGap before.toList) (hafter : IsGap after.toList) :
    classify (keyOf before inner after) =
      ((iterationKey? (braced inner.toList)).or (conditionalKey? (braced inner.toList))).getD
        (.computed inner) := by
  have hstrip : Text.strip (keyOf before inner after).toList = braced inner.toList :=
    strip_keyOf hbefore hafter
  have hcomment : keyOf before inner after ≠ commentKey := by
    intro h
    have hhead : (Text.strip commentKey.toList).head? = some '\x7b' := by
      rw [← h, hstrip]
      rfl
    exact absurd hhead (by decide)
  have hsource : source? (keyOf before inner after) = some inner := by
    rw [source?, hstrip]
    simp only [braced, dropClosing?_eq_some_iff.mpr rfl, Option.map_some, String.ofList_toList]
  rw [classify, if_neg hcomment, hstrip, hsource]
  rfl

theorem iterationKey?_braced {cs source : List Char} {name : Option (List Char)}
    (h : iteration? (cs ++ closing) = some (source, name)) :
    iterationKey? (braced ('#' :: cs)) =
      some (.iteration (String.ofList source) (name.elim elementName String.ofList)) := by
  rw [iterationKey?, behindSign?_braced (by decide), if_pos rfl]
  simp only [Option.bind_eq_bind, Option.bind_some, h]

theorem iterationKey?_of_ne {c : Char} {cs : List Char} (hblank : Text.isBlank c = false)
    (hc : c ≠ '#') : iterationKey? (braced (c :: cs)) = none := by
  rw [iterationKey?, behindSign?_braced hblank, if_neg hc]
  rfl

theorem conditionalKey?_braced {cs : List Char} (h : cs ≠ []) :
    conditionalKey? (braced ('?' :: cs)) = some (.conditional (String.ofList cs)) := by
  have hcondition : condition? (cs ++ closing) = some cs := condition?_eq_some_iff.mpr ⟨h, rfl⟩
  rw [conditionalKey?, behindSign?_braced (by decide), if_pos rfl]
  simp only [Option.bind_eq_bind, Option.bind_some, hcondition]

theorem conditionalKey?_of_ne {c : Char} {cs : List Char} (hblank : Text.isBlank c = false)
    (hc : c ≠ '?') : conditionalKey? (braced (c :: cs)) = none := by
  rw [conditionalKey?, behindSign?_braced hblank, if_neg hc]
  rfl

/-- Keys are classified by the first ways in which two patterns match. A key is classified as what
it is formed of, whatever blanks stand around it. -/
theorem classify_of_formed :
    (∀ key, classify key = classifyByPatterns key) ∧
    ∀ s before after : String, IsTight s.toList → IsGap before.toList → IsGap after.toList →
      (∀ n : String, IsIdentifier n.toList →
        classify (keyOf before ("#" ++ s ++ " as " ++ n) after) = .iteration s n) ∧
      ((∀ u name, u <:+ s.toList → ¬ IsAsName u name) →
        classify (keyOf before ("#" ++ s) after) = .iteration s "value") ∧
      classify (keyOf before ("?" ++ s) after) = .conditional s ∧
      (s.toList.head? ≠ some '#' → s.toList.head? ≠ some '?' →
        classify (keyOf before s after) = .computed s) := by
  refine ⟨classify_eq_classifyByPatterns, fun s before after hs hbefore hafter => ?_⟩
  have hbelow {u : List Char} (hu : u <:+ s.toList.tail) : u <:+ s.toList :=
    hu.trans (List.tail_suffix _)
  refine ⟨fun n hn => ?_, fun hname => ?_, ?_, fun hiteration hcondition => ?_⟩
  · have hinner : ("#" ++ s ++ " as " ++ n).toList =
        '#' :: (s.toList ++ (' ' :: 'a' :: 's' :: ' ' :: n.toList)) := by simp
    have hnamed : asName? (' ' :: 'a' :: 's' :: ' ' :: (n.toList ++ closing)) = some n.toList :=
      asName?_eq_some_iff.mpr ⟨_, [], isAsName_of_isIdentifier hn, nofun, rfl⟩
    have hending : ending? (' ' :: 'a' :: 's' :: ' ' :: (n.toList ++ closing)) =
        some (some n.toList) := by
      rw [ending?, hnamed]
    have hiteration : iteration? (s.toList ++ (' ' :: 'a' :: 's' :: ' ' :: n.toList) ++ closing) =
        some (s.toList, some n.toList) := by
      rw [List.append_assoc]
      exact iteration?_append hs.ne_nil hending fun u hu hsuffix =>
        ending?_before_name hu (hs.last_suffix (hbelow hsuffix)) hn
    rw [classify_keyOf hbefore hafter, hinner, iterationKey?_braced hiteration]
    simp
  · have hinner : ("#" ++ s).toList = '#' :: s.toList := by simp
    have hending : ending? closing = some none := rfl
    have hiteration : iteration? (s.toList ++ closing) = some (s.toList, none) :=
      iteration?_append hs.ne_nil hending fun u hu hsuffix =>
        ending?_append_closing hu (hs.last_suffix (hbelow hsuffix)) fun name =>
          hname u name (hbelow hsuffix)
    rw [classify_keyOf hbefore hafter, hinner, iterationKey?_braced hiteration]
    simp [elementName]
  · have hinner : ("?" ++ s).toList = '?' :: s.toList := by simp
    rw [classify_keyOf hbefore hafter, hinner, iterationKey?_of_ne (by decide) (by decide),
      conditionalKey?_braced hs.ne_nil]
    simp
  · obtain ⟨c, rest, htext⟩ := List.exists_cons_of_ne_nil hs.ne_nil
    rw [htext] at hiteration hcondition
    have hc : Text.isBlank c = false := hs.head c (by simp [htext])
    rw [classify_keyOf hbefore hafter, htext, iterationKey?_of_ne hc (by simpa using hiteration),
      conditionalKey?_of_ne hc (by simpa using hcondition)]
    rfl

theorem not_isAsName_of_tails {cs : List Char}
    (h : ∀ u ∈ cs.tails, asName? (u ++ closing) = none) (u name : List Char) (hu : u <:+ cs) :
    ¬ IsAsName u name := by
  intro hname
  have hfound : asName? (u ++ closing) = some name :=
    asName?_eq_some_iff.mpr ⟨u, [], hname, nofun, rfl⟩
  rw [h u ((List.mem_tails u cs).mpr hu)] at hfound
  cases hfound

/-- A source with the word `as`, with braces and with a line break. -/
def winding : String :=
  "\x7b[x as y]\x7d\x7d\n as z\x7d"

theorem toList_winding : winding.toList =
    ['\x7b', '[', 'x', ' ', 'a', 's', ' ', 'y', ']', '\x7d', '\x7d', '\n', ' ', 'a', 's', ' ', 'z',
      '\x7d'] :=
  rfl

theorem isTight_winding : IsTight winding.toList where
  ne_nil := by
    rw [toList_winding]
    exact List.cons_ne_nil _ _
  head := by
    rw [toList_winding]
    rintro c ⟨⟩
    decide
  last := by
    rw [toList_winding]
    rintro c ⟨⟩
    decide

theorem classify_of_formed_winding :
    IsTight winding.toList ∧ IsGap " \t".toList ∧ IsGap "\n".toList ∧ IsIdentifier "item".toList ∧
    (∀ u name, u <:+ winding.toList → ¬ IsAsName u name) ∧
    classify (keyOf " \t" ("#" ++ winding ++ " as " ++ "item") "\n") = .iteration winding "item" ∧
    classify (keyOf " \t" ("#" ++ winding) "\n") = .iteration winding "value" ∧
    classify (keyOf " \t" ("?" ++ winding) "\n") = .conditional winding ∧
    classify (keyOf " \t" winding "\n") = .computed winding := by
  have hbefore : IsGap " \t".toList := by decide
  have hafter : IsGap "\n".toList := by decide
  have hname : IsIdentifier "item".toList :=
    ⟨'i', ['t', 'e', 'm'], rfl, rfl, List.all_eq_true.mp rfl⟩
  have hending : ∀ u name, u <:+ winding.toList → ¬ IsAsName u name := by
    intro u name hu
    rw [toList_winding] at hu
    exact not_isAsName_of_tails (by decide +kernel) u name hu
  obtain ⟨hnamed, hunnamed, hcondition, hcomputed⟩ :=
    classify_of_formed.2 winding " \t" "\n" isTight_winding hbefore hafter
  exact ⟨isTight_winding, hbefore, hafter, hname, hending, hnamed "item" hname, hunnamed hending,
    hcondition, hcomputed (by rw [toList_winding]; decide) (by rw [toList_winding]; decide)⟩

end Template

end Stencil

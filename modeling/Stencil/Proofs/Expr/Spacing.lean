import Stencil.Proofs.Expr.Spelling

/-!
# Spacing

A token is taken the same whether blanks or the end stand behind it, whatever stood behind it first.
So the blanks between the tokens of a source can be others, and more of them.
-/

namespace Stencil

open Text (IsGap)

namespace Lexeme

/-- Nothing, or a blank in front. -/
def IsApart (rest : List Char) : Prop :=
  ∀ c ∈ rest.head?, Text.isBlank c

variable {c : Char} {cs rest : List Char}

theorem IsApart.isDelimited (h : IsApart rest) : IsDelimited rest := by
  intro c hc
  refine ⟨isNamePart_of_isBlank (h c hc), ?_⟩
  rintro rfl
  exact absurd (h '.' hc) (by decide)

theorem isApart_gap_append {gap : List Char} (hgap : IsGap gap) (hne : gap ≠ []) (cs : List Char) :
    IsApart (gap ++ cs) := by
  intro c hc
  rw [List.head?_append_of_ne_nil _ hne] at hc
  exact hgap c (List.mem_of_mem_head? hc)

theorem mark?_append_of_isApart (m : Mark) (hrest : IsApart rest) :
    mark? (m.text.toList ++ rest) = some (m, rest) := by
  cases rest with
  | nil => cases m <;> rfl
  | cons d rest =>
    have hd := hrest d rfl
    have hequal : d ≠ '=' := by
      rintro rfl
      cases hd
    have hdot : d ≠ '.' := by
      rintro rfl
      cases hd
    cases m <;> first | rfl | simp [Mark.text, mark?, hequal, hdot]

theorem Quoted.cons_eq_ok {text : List Char} {r : Except Stop Quoted} {q : Quoted} :
    Quoted.cons c text r = .ok q ↔
      ∃ q', r = .ok q' ∧ ⟨c :: q'.content, text ++ q'.text, q'.rest⟩ = q :=
  map_eq_ok

theorem scanQuoted_escape {c' : Char} (h : unescaped? c = some c') (start : List Char)
    (quote : Char) (cs : List Char) :
    scanQuoted start quote ('\\' :: c :: cs) =
      Quoted.cons c' ['\\', c] (scanQuoted start quote cs) := by
  have hu : c ≠ 'u' := by
    rintro rfl
    cases h
  rw [scanQuoted, h]
  · exact fun _ _ _ _ _ hc _ => hu hc
  · exact hu

theorem scanQuoted_plain (h : c ≠ '\\') (start : List Char) (quote : Char) (cs : List Char) :
    scanQuoted start quote (c :: cs) =
      if c = quote then .ok ⟨[], [c], cs⟩ else Quoted.cons c [c] (scanQuoted start quote cs) := by
  rw [scanQuoted.eq_def]
  split <;> simp_all

/-- A quoted text ends with its quote, whatever stands behind it. -/
theorem scanQuoted_append {start : List Char} {quote : Char} {q : Quoted}
    (h : scanQuoted start quote cs = .ok q) (start' rest : List Char) :
    scanQuoted start' quote (q.text ++ rest) = .ok { q with rest } := by
  have hback {c : Char} {cs : List Char} (hlast : c = '\\' → cs = [] → False)
      (hescape : ∀ d rest, c = '\\' → cs = d :: rest → False) : c ≠ '\\' := by
    intro hc
    cases cs with
    | nil => exact hlast hc rfl
    | cons d rest => exact hescape d rest hc rfl
  fun_induction scanQuoted start quote cs generalizing q with
  | case1 | case2 | case3 | case5 | case6 | case8 => cases h
  | case4 a b c d _ n hcode hvalid ih =>
    obtain ⟨q, hq, rfl⟩ := Quoted.cons_eq_ok.mp h
    simp only [List.cons_append, List.nil_append]
    rw [scanQuoted, hcode]
    simp only
    rw [if_pos hvalid, ih hq]
    rfl
  | case7 c _ _ _ c' hc ih =>
    obtain ⟨q, hq, rfl⟩ := Quoted.cons_eq_ok.mp h
    simp only [List.cons_append, List.nil_append]
    rw [scanQuoted_escape hc, ih hq]
    rfl
  | case9 _ hlast _ _ hescape =>
    cases h
    rw [List.cons_append, scanQuoted_plain (hback hlast hescape), if_pos rfl]
    rfl
  | case10 c _ hlast _ _ hescape hquote ih =>
    obtain ⟨q, hq, rfl⟩ := Quoted.cons_eq_ok.mp h
    simp only [List.cons_append, List.nil_append]
    rw [scanQuoted_plain (hback hlast hescape), if_neg hquote, ih hq]
    rfl

theorem scanNumber_fraction {whole fraction : List Char} {d : Char}
    (hwhole : ∀ c ∈ whole, c.isDigit) (hfraction : ∀ c ∈ d :: fraction, c.isDigit)
    (hrest : EndsNumeral rest) :
    scanNumber (whole ++ '.' :: d :: fraction ++ rest) =
      .ok ⟨.float (Decimal.toFloat
        ⟨false, Decimal.ofDigits (whole ++ d :: fraction), -(d :: fraction).length⟩),
        whole ++ '.' :: d :: fraction, rest⟩ := by
  have hpoint : Text.run Char.isDigit (whole ++ '.' :: d :: fraction ++ rest) =
      (whole, '.' :: d :: (fraction ++ rest)) := by
    rw [List.append_assoc]
    exact run_append_of_stop hwhole (by rintro c ⟨⟩; rfl)
  have hrun : Text.run Char.isDigit (d :: (fraction ++ rest)) = (d :: fraction, rest) := by
    rw [← List.cons_append]
    exact run_append_of_stop hfraction hrest.1
  simp only [scanNumber, hpoint, hfraction d List.mem_cons_self, if_true, hrun]

theorem scanNumber_append {t : Taken} (h : scanNumber cs = .ok t) (hrest : EndsNumeral rest) :
    scanNumber (t.text ++ rest) = .ok { t with rest } := by
  obtain ⟨kind, text, after⟩ := t
  obtain ⟨n, hdigits, hn, rfl⟩ | ⟨whole, d, fraction, hwhole, hfraction, rfl, rfl⟩ :=
    scanNumber_eq_ok h
  · exact scanNumber_integer hdigits hn hrest
  · exact scanNumber_fraction hwhole hfraction hrest

theorem scan_mark {m : Mark} (h : mark? (c :: cs) = some (m, rest)) :
    scan c cs = .ok ⟨.mark m, m.text.toList, rest⟩ := by
  rw [scan, h]

theorem scan_quote (h : c = '"' ∨ c = '\'') (cs : List Char) :
    scan c cs = (scanQuoted (c :: cs) c cs).map fun q =>
      ⟨.string (String.ofList q.content), c :: q.text, q.rest⟩ := by
  have hmark : c ∉ markStarts := by
    rcases h with rfl | rfl <;> decide
  rw [scan, mark?_eq_none hmark]
  exact if_pos (by simpa using h)

/-- A token is taken the same from its own text, if a blank or the end stands behind it. -/
theorem scan_append_of_isApart {t : Taken} {text : List Char} (h : scan c cs = .ok t)
    (htext : t.text = c :: text) (hrest : IsApart rest) :
    scan c (text ++ rest) = .ok { t with rest } := by
  obtain ⟨kind, taken, after⟩ := t
  obtain rfl : taken = c :: text := htext
  obtain ⟨m, rfl, hm⟩ | ⟨hquote, q, hq, ht⟩ | ⟨hname, word, hword, rfl, hsame⟩ | ⟨hdigit, ht⟩ :=
    scan_eq_ok h
  · have hmark := mark?_append_of_isApart m hrest
    rw [← hm, List.cons_append] at hmark
    rw [scan_mark hmark, ← hm]
  · cases ht
    rw [scan_quote hquote, scanQuoted_append hq]
    rfl
  · obtain rfl := (List.cons.inj hsame).2
    exact scan_word hname hword hrest.isDelimited
  · rw [scan_of_isDigit hdigit, ← List.cons_append]
    exact scanNumber_append ht hrest.isDelimited.endsNumeral

theorem exists_text_of_scan {t : Taken} (h : scan c cs = .ok t) : ∃ text, t.text = c :: text := by
  obtain ⟨d, text, htext⟩ := List.exists_cons_of_ne_nil (text_ne_nil_of_scan h)
  have happend := text_append_of_scan h
  rw [htext, List.cons_append] at happend
  exact ⟨text, by rw [htext, (List.cons.inj happend).1]⟩

end Lexeme

/-- Gaps for a row of tokens, one in front of each: there is one between any two texts. -/
structure IsSpacing (gaps : List (List Char)) (ts : List Token) : Prop where
  length_eq : gaps.length = ts.length
  isGap : ∀ gap ∈ gaps, IsGap gap
  ne_nil : ∀ gap ∈ gaps.tail.dropLast, gap ≠ []

theorem IsSpacing.exists_cons {gaps : List (List Char)} {t : Token} {ts : List Token}
    (h : IsSpacing gaps (t :: ts)) :
    ∃ gap gaps', gaps = gap :: gaps' ∧ IsGap gap ∧ IsSpacing gaps' ts := by
  obtain ⟨gap, gaps, rfl⟩ := List.exists_cons_of_length_eq_add_one h.length_eq
  obtain ⟨hgap, hgaps⟩ := List.forall_mem_cons.mp h.isGap
  refine ⟨gap, gaps, rfl, hgap, by simpa using h.length_eq, hgaps, fun gap' hgap' => ?_⟩
  apply h.ne_nil
  rw [← List.tail_dropLast] at hgap'
  exact List.mem_of_mem_tail hgap'

/-- The texts of tokens, with these gaps in front of them. The end has no text, so that the last gap
stands behind all texts. -/
def spaced (gaps : List (List Char)) (ts : List Token) : List Char :=
  (List.zipWith (fun gap t => gap ++ t.text.toList) gaps ts).flatten

theorem spaced_cons (gap : List Char) (gaps : List (List Char)) (t : Token) (ts : List Token) :
    spaced (gap :: gaps) (t :: ts) = gap ++ t.text.toList ++ spaced gaps ts :=
  rfl

theorem spaced_end (gap : List Char) (position : Nat) :
    spaced [gap] [⟨.eof, "", position⟩] = gap := by
  simp [spaced]

theorem TakenFrom.ne_nil {start : Nat} {cs : List Char} {ts : List Token}
    (h : TakenFrom start cs ts) : ts ≠ [] := by
  cases h <;> exact List.cons_ne_nil _ _

/-- Behind a token is a gap or the end. -/
theorem TakenFrom.isApart_spaced {start : Nat} {cs : List Char} {t : Token} {ts : List Token}
    {gap : List Char} {gaps : List (List Char)} (h : TakenFrom start cs ts)
    (hgaps : IsSpacing (gap :: gaps) (t :: ts)) : Lexeme.IsApart (spaced gaps ts) := by
  obtain ⟨_, _, hcons, -, hspacing⟩ := hgaps.exists_cons
  obtain ⟨rfl, rfl⟩ := List.cons.inj hcons
  cases h with
  | finish =>
    obtain ⟨last, _, rfl, hlast, hnil⟩ := hspacing.exists_cons
    obtain rfl := List.length_eq_zero_iff.mp hnil.length_eq
    rw [spaced_end]
    exact fun c hc => hlast c (List.mem_of_mem_head? hc)
  | token _ _ _ hrest =>
    obtain ⟨next, gaps, rfl, hnext, hspacing⟩ := hspacing.exists_cons
    obtain ⟨t', ts, rfl⟩ := List.exists_cons_of_ne_nil hrest.ne_nil
    obtain ⟨gap', gaps, rfl, -, -⟩ := hspacing.exists_cons
    have hne : next ≠ [] := hgaps.ne_nil next List.mem_cons_self
    rw [spaced_cons, List.append_assoc]
    exact Lexeme.isApart_gap_append hnext hne _

/-- The same kinds and texts are taken with other gaps between the texts. -/
theorem TakenFrom.exists_spaced {start : Nat} {cs : List Char} {ts : List Token}
    (h : TakenFrom start cs ts) {gaps : List (List Char)} (hgaps : IsSpacing gaps ts)
    (start' : Nat) : ∃ ts', TakenFrom start' (spaced gaps ts) ts' ∧
      ts'.map (fun t => (t.kind, t.text)) = ts.map fun t => (t.kind, t.text) := by
  induction h generalizing gaps start' with
  | finish =>
    obtain ⟨gap, _, rfl, hgap, hnil⟩ := hgaps.exists_cons
    obtain rfl := List.length_eq_zero_iff.mp hnil.length_eq
    rw [spaced_end]
    exact ⟨_, .finish hgap, rfl⟩
  | @token _ _ c cs t ts _ hc hscan hrest ih =>
    obtain ⟨gap, gaps, rfl, hgap, hspacing⟩ := hgaps.exists_cons
    obtain ⟨text, htext⟩ := Lexeme.exists_text_of_scan hscan
    obtain ⟨ts', hts', hsame⟩ := ih hspacing (start' + gap.length + t.text.length)
    have hscan' := Lexeme.scan_append_of_isApart hscan htext (hrest.isApart_spaced hgaps)
    rw [spaced_cons, String.toList_ofList, htext, List.append_assoc, List.cons_append]
    refine ⟨_, .token hgap hc hscan' hts', ?_⟩
    rw [List.map_cons, List.map_cons, hsame, htext]

/-- The tokens of a source do not depend on the blanks between them: with any other gaps, their
texts are split into the same kinds and texts. -/
theorem tokenize_spaced {source : String} {ts : List Token} {gaps : List (List Char)}
    (h : tokenize source = .ok ts) (hgaps : IsSpacing gaps ts) :
    ∃ ts', tokenize (String.ofList (spaced gaps ts)) = .ok ts' ∧
      ts'.map (fun t => (t.kind, t.text)) = ts.map fun t => (t.kind, t.text) := by
  obtain ⟨ts', hts', hsame⟩ := (tokenize_eq_ok_iff.mp h).exists_spaced hgaps 0
  rw [← String.toList_ofList (l := spaced gaps ts)] at hts'
  exact ⟨ts', tokenize_eq_ok_iff.mpr hts', hsame⟩

/-- Blanks of several kinds between the tokens of `spacedSource`, and none at the end. -/
def wideGaps : List (List Char) :=
  [['\n'], [' '], ['\t', ' '], [' '], ['\u3000'], [' '], [' ', ' '], ['\r', '\n'], []]

theorem isSpacing_wideGaps : IsSpacing wideGaps spacedTokens where
  length_eq := rfl
  isGap := by decide
  ne_nil := by decide

theorem tokenize_spaced_wideGaps :
    tokenize spacedSource = .ok spacedTokens ∧ IsSpacing wideGaps spacedTokens ∧
    ∃ ts', tokenize (String.ofList (spaced wideGaps spacedTokens)) = .ok ts' ∧
      ts'.map (fun t => (t.kind, t.text)) = spacedTokens.map fun t => (t.kind, t.text) :=
  ⟨tokenize_spacedSource, isSpacing_wideGaps,
    tokenize_spaced tokenize_spacedSource isSpacing_wideGaps⟩

end Stencil

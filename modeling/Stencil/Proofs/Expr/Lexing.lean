import Mathlib
import Stencil.Expr.Lexer
import Stencil.Proofs.Success

/-!
# Where tokens stand

Splitting a source loses nothing of it. Its tokens stand one behind the other, each with its own
text at its place, with nothing but blanks between them, and the end behind the last of them.
-/

namespace Stencil

/-- A text of blanks only. -/
def Text.IsGap (cs : List Char) : Prop :=
  ∀ c ∈ cs, isBlank c

instance (cs : List Char) : Decidable (Text.IsGap cs) :=
  List.decidableBAll (fun c => Text.isBlank c) cs

open Text (IsGap)

namespace Lexeme

variable {c : Char} {cs : List Char} {t : Taken}

theorem takeInteger_eq_ok {start digits : List Char}
    (h : takeInteger start digits cs = .ok t) :
    ∃ n, int64? (Decimal.ofDigits digits) = some n ∧ t = ⟨.integer n, digits, cs⟩ := by
  unfold takeInteger at h
  split at h
  · rename_i n hn
    cases h
    exact ⟨n, hn, rfl⟩
  · cases h

/-- A number is a row of digits, or two of them with a point between. -/
theorem scanNumber_eq_ok (h : scanNumber cs = .ok t) :
    (∃ n, (∀ c ∈ t.text, c.isDigit) ∧ int64? (Decimal.ofDigits t.text) = some n ∧
      t.kind = .integer n) ∨
    ∃ whole d fraction, (∀ c ∈ whole, c.isDigit) ∧ (∀ c ∈ d :: fraction, c.isDigit) ∧
      t.text = whole ++ '.' :: d :: fraction ∧
      t.kind = .float (Decimal.toFloat
        ⟨false, Decimal.ofDigits (whole ++ d :: fraction), -(d :: fraction).length⟩) := by
  have hdigits (cs : List Char) : ∀ c ∈ (Text.run Char.isDigit cs).1, c.isDigit :=
    fun c hc => List.mem_takeWhile_imp hc
  simp only [scanNumber] at h
  split at h
  · rename_i d after _
    split at h
    · rename_i hd
      have hrun : (Text.run Char.isDigit (d :: after)).1 = d :: after.takeWhile Char.isDigit :=
        List.takeWhile_cons_of_pos hd
      cases h
      exact .inr ⟨_, d, _, hdigits cs, hrun ▸ hdigits (d :: after), by rw [hrun], by rw [hrun]⟩
    · obtain ⟨n, hn, rfl⟩ := takeInteger_eq_ok h
      exact .inl ⟨n, hdigits cs, hn, rfl⟩
  · obtain ⟨n, hn, rfl⟩ := takeInteger_eq_ok h
    exact .inl ⟨n, hdigits cs, hn, rfl⟩

/-- A token is a mark, a quoted text, a word or a number. -/
theorem scan_eq_ok (h : scan c cs = .ok t) :
    (∃ m, t.kind = .mark m ∧ t.text = m.text.toList) ∨
    ((c = '"' ∨ c = '\'') ∧ ∃ q, scanQuoted (c :: cs) c cs = .ok q ∧
      t = ⟨.string (String.ofList q.content), c :: q.text, q.rest⟩) ∨
    (isNameStart c ∧ ∃ word, (∀ d ∈ word, isNamePart d) ∧
      t.kind = ofWord (String.ofList (c :: word)) ∧ t.text = c :: word) ∨
    (c.isDigit ∧ scanNumber (c :: cs) = .ok t) := by
  unfold scan at h
  split at h
  · rename_i m _ _
    cases h
    exact .inl ⟨m, rfl, rfl⟩
  split at h
  · rename_i hquote
    obtain ⟨q, hq, rfl⟩ := map_eq_ok.mp h
    exact .inr (.inl ⟨by simpa using hquote, q, hq, rfl⟩)
  split at h
  · rename_i hname
    cases h
    exact .inr (.inr (.inl ⟨hname, _, fun d hd => List.mem_takeWhile_imp hd, rfl, rfl⟩))
  split at h
  · rename_i hdigit
    exact .inr (.inr (.inr ⟨hdigit, h⟩))
  · cases h

theorem ofWord_ne_eof (word : String) : ofWord word ≠ .eof := by
  unfold ofWord
  repeat' split
  all_goals nofun

/-- No text is a token for the end. -/
theorem kind_ne_eof_of_scan (h : scan c cs = .ok t) : t.kind ≠ .eof := by
  obtain ⟨m, hm, -⟩ | ⟨-, q, -, rfl⟩ | ⟨-, word, -, hword, -⟩ | ⟨-, hnumber⟩ := scan_eq_ok h
  · rw [hm]
    nofun
  · nofun
  · rw [hword]
    exact ofWord_ne_eof _
  · obtain ⟨n, -, -, hn⟩ | ⟨whole, d, fraction, -, -, -, hx⟩ := scanNumber_eq_ok hnumber
    · rw [hn]
      nofun
    · rw [hx]
      nofun

end Lexeme

/-- The tokens taken one after another from a text that begins at the place `start`, each behind a
gap, and the end behind the last gap. -/
inductive TakenFrom : (start : Nat) → List Char → List Token → Prop
  | finish {start gap} : IsGap gap → TakenFrom start gap [⟨.eof, "", start + gap.length⟩]
  | token {start gap c cs t ts} : IsGap gap → Text.isBlank c = false →
      Lexeme.scan c cs = .ok t → TakenFrom (start + gap.length + t.text.length) t.rest ts →
      TakenFrom start (gap ++ c :: cs) (⟨t.kind, String.ofList t.text, start + gap.length⟩ :: ts)

theorem Text.run_of_isGap {gap : List Char} (h : IsGap gap) : run isBlank gap = (gap, []) := by
  simp only [run, Prod.mk.injEq]
  exact ⟨List.takeWhile_eq_self_iff.mpr h, List.dropWhile_eq_nil_iff.mpr h⟩

theorem Text.run_gap_append {gap cs : List Char} {c : Char} (h : IsGap gap)
    (hc : isBlank c = false) : run isBlank (gap ++ c :: cs) = (gap, c :: cs) := by
  have hfront : isBlank c ≠ true := by simp [hc]
  simp only [run, Prod.mk.injEq]
  rw [List.takeWhile_append_of_pos h, List.dropWhile_append_of_pos h,
    List.takeWhile_cons_of_neg hfront, List.dropWhile_cons_of_neg hfront, List.append_nil]
  exact ⟨rfl, rfl⟩

/-- Blanks up to the end, or up to the first character that is none. -/
theorem Text.isGap_or_exists (cs : List Char) :
    IsGap cs ∨ ∃ gap c rest, cs = gap ++ c :: rest ∧ IsGap gap ∧ isBlank c = false := by
  induction cs with
  | nil => exact .inl nofun
  | cons c cs ih =>
    cases hc : isBlank c with
    | false => exact .inr ⟨[], c, cs, rfl, nofun, hc⟩
    | true =>
      rcases ih with h | ⟨gap, d, rest, rfl, hgap, hd⟩
      · exact .inl (List.forall_mem_cons.mpr ⟨hc, h⟩)
      · exact .inr ⟨c :: gap, d, rest, rfl, List.forall_mem_cons.mpr ⟨hc, hgap⟩, hd⟩

namespace Lexer

theorem nextToken_of_gap {l : Lexer} (h : IsGap l.rest) :
    l.nextToken = (.ok ⟨.eof, "", l.position + l.rest.length⟩,
      { l with rest := [], position := l.position + l.rest.length }) := by
  rw [nextToken, Text.run_of_isGap h]

theorem nextToken_of_scan {l : Lexer} {gap cs : List Char} {c : Char} {t : Lexeme.Taken}
    (hrest : l.rest = gap ++ c :: cs) (hgap : IsGap gap) (hc : Text.isBlank c = false)
    (hscan : Lexeme.scan c cs = .ok t) :
    l.nextToken = (.ok ⟨t.kind, String.ofList t.text, l.position + gap.length⟩,
      { l with rest := t.rest, position := l.position + gap.length + t.text.length }) := by
  simp only [nextToken, hrest, Text.run_gap_append hgap hc, hscan]

theorem nextToken_of_scan_error {l : Lexer} {gap cs : List Char} {c : Char} {s : Lexeme.Stop}
    (hrest : l.rest = gap ++ c :: cs) (hgap : IsGap gap) (hc : Text.isBlank c = false)
    (hscan : Lexeme.scan c cs = .error s) :
    l.nextToken =
      (.error ⟨l.position + gap.length + ((c :: cs).length - s.place.length), s.fault⟩,
        ⟨l.source, s.rest, l.position + gap.length + ((c :: cs).length - s.rest.length),
          l.finished⟩) := by
  simp only [nextToken, hrest, Text.run_gap_append hgap hc, hscan]

theorem tokens_of_gap {l : Lexer} (h : IsGap l.rest) :
    l.tokens = .ok [⟨.eof, "", l.position + l.rest.length⟩] := by
  rw [tokens, nextToken_of_gap h]
  rfl

theorem tokens_of_scan {l : Lexer} {gap cs : List Char} {c : Char} {t : Lexeme.Taken}
    (hrest : l.rest = gap ++ c :: cs) (hgap : IsGap gap) (hc : Text.isBlank c = false)
    (hscan : Lexeme.scan c cs = .ok t) :
    l.tokens =
      (tokens ⟨l.source, t.rest, l.position + gap.length + t.text.length, l.finished⟩).map
        (⟨t.kind, String.ofList t.text, l.position + gap.length⟩ :: ·) := by
  have hkind := Lexeme.kind_ne_eof_of_scan hscan
  rw [tokens, nextToken_of_scan hrest hgap hc hscan]
  split
  · rename_i heq
    cases heq
  · rename_i heq
    cases heq
    exact dif_neg (by simp)

theorem tokens_ne_ok_of_scan_error {l : Lexer} {gap cs : List Char} {c : Char} {s : Lexeme.Stop}
    (hrest : l.rest = gap ++ c :: cs) (hgap : IsGap gap) (hc : Text.isBlank c = false)
    (hscan : Lexeme.scan c cs = .error s) (ts : List Token) : l.tokens ≠ .ok ts := by
  rw [tokens, nextToken_of_scan_error hrest hgap hc hscan]
  simp

theorem takenFrom_of_tokens {l : Lexer} {ts : List Token} (h : l.tokens = .ok ts) :
    TakenFrom l.position l.rest ts := by
  induction hlength : l.rest.length using Nat.strong_induction_on generalizing l ts with
  | _ n ih =>
    rcases Text.isGap_or_exists l.rest with hgap | ⟨gap, c, cs, hrest, hgap, hc⟩
    · rw [tokens_of_gap hgap, Except.ok.injEq] at h
      rw [← h]
      exact .finish hgap
    cases hscan : Lexeme.scan c cs with
    | error s => exact absurd h (tokens_ne_ok_of_scan_error hrest hgap hc hscan ts)
    | ok t =>
      have hshorter : t.rest.length < n := by
        have := Lexeme.length_rest_of_scan hscan
        rw [← hlength, hrest, List.length_append, List.length_cons]
        omega
      rw [tokens_of_scan hrest hgap hc hscan] at h
      obtain ⟨ts', hts', rfl⟩ := map_eq_ok.mp h
      rw [hrest]
      exact .token hgap hc hscan (ih _ hshorter hts' rfl)

theorem tokens_of_takenFrom {start : Nat} {cs : List Char} {ts : List Token}
    (h : TakenFrom start cs ts) (source : String) (finished : Bool) :
    tokens ⟨source, cs, start, finished⟩ = .ok ts := by
  induction h with
  | finish hgap => exact tokens_of_gap hgap
  | token hgap hc hscan _ ih =>
    rw [tokens_of_scan rfl hgap hc hscan, ih]
    rfl

end Lexer

/-- Splitting a source gives the tokens that can be taken from it, and fails only if there are
none. -/
theorem tokenize_eq_ok_iff {source : String} {ts : List Token} :
    tokenize source = .ok ts ↔ TakenFrom 0 source.toList ts :=
  ⟨Lexer.takenFrom_of_tokens, fun h => Lexer.tokens_of_takenFrom h source false⟩

namespace TakenFrom

variable {start : Nat} {cs : List Char} {ts : List Token}

/-- The end stands last, and nowhere else. -/
theorem ends (h : TakenFrom start cs ts) :
    ∃ inner, ts = inner ++ [⟨.eof, "", start + cs.length⟩] ∧
      ∀ t ∈ inner, t.kind ≠ .eof ∧ t.text ≠ "" := by
  induction h with
  | finish => exact ⟨[], rfl, nofun⟩
  | @token start gap c cs t ts _ _ hscan _ ih =>
    obtain ⟨inner, rfl, hinner⟩ := ih
    have hlength : start + gap.length + t.text.length + t.rest.length =
        start + (gap ++ c :: cs).length := by
      rw [← Lexeme.text_append_of_scan hscan]
      simp only [List.length_append]
      omega
    rw [hlength]
    refine ⟨_ :: inner, rfl, List.forall_mem_cons.mpr ⟨⟨?_, ?_⟩, hinner⟩⟩
    · exact Lexeme.kind_ne_eof_of_scan hscan
    · simpa using Lexeme.text_ne_nil_of_scan hscan

/-- The texts and the gaps in front of them make up the whole text. -/
theorem exists_gaps (h : TakenFrom start cs ts) :
    ∃ gaps : List (List Char), gaps.length = ts.length ∧ (∀ gap ∈ gaps, IsGap gap) ∧
      cs = (List.zipWith (fun gap t => gap ++ t.text.toList) gaps ts).flatten := by
  induction h with
  | @finish _ gap hgap => exact ⟨[gap], rfl, by simpa using hgap, by simp⟩
  | @token _ gap c cs t ts hgap _ hscan _ ih =>
    obtain ⟨gaps, hlength, hgaps, hrest⟩ := ih
    refine ⟨gap :: gaps, by simp [hlength], List.forall_mem_cons.mpr ⟨hgap, hgaps⟩, ?_⟩
    rw [List.zipWith_cons_cons, List.flatten_cons, ← hrest, String.toList_ofList,
      List.append_assoc, Lexeme.text_append_of_scan hscan]

/-- A token's own text is what stands at its place. -/
theorem slice (h : TakenFrom start cs ts) {t : Token} (ht : t ∈ ts) :
    start ≤ t.position ∧ (cs.drop (t.position - start)).take t.text.length = t.text.toList := by
  induction h with
  | finish =>
    obtain rfl := List.mem_singleton.mp ht
    simp
  | @token start gap c cs taken ts _ _ hscan _ ih =>
    have happend := Lexeme.text_append_of_scan hscan
    rcases List.mem_cons.mp ht with rfl | ht
    · simp [← happend]
    · obtain ⟨hle, hslice⟩ := ih ht
      have hdrop : t.position - start =
          gap.length + taken.text.length + (t.position - (start + gap.length + taken.text.length)) := by
        omega
      rw [hdrop, ← happend, ← List.append_assoc, ← List.drop_drop, ← List.length_append,
        List.drop_left, hslice]
      exact ⟨by omega, rfl⟩

/-- No token begins before the one in front of it has ended. -/
theorem pairwise (h : TakenFrom start cs ts) :
    ts.Pairwise fun t t' => t.position + t.text.length ≤ t'.position := by
  induction h with
  | finish => exact List.pairwise_singleton _ _
  | token _ _ _ hrest ih =>
    refine List.pairwise_cons.mpr ⟨fun t' ht' => ?_, ih⟩
    simpa using (hrest.slice ht').1

/-- What no token covers is blank. -/
theorem isBlank_of_uncovered (h : TakenFrom start cs ts) {i : Nat} {c : Char}
    (hc : cs[i]? = some c)
    (hi : ∀ t ∈ ts, ¬ (t.position ≤ start + i ∧ start + i < t.position + t.text.length)) :
    Text.isBlank c := by
  induction h generalizing i with
  | finish hgap => exact hgap c (List.mem_of_getElem? hc)
  | @token start gap c' cs t ts hgap _ hscan _ ih =>
    rw [List.forall_mem_cons] at hi
    obtain ⟨hhere, hbehind⟩ := hi
    rw [← Lexeme.text_append_of_scan hscan, ← List.append_assoc] at hc
    simp only [String.length_ofList] at hhere
    by_cases hfront : i < gap.length
    · rw [List.append_assoc, List.getElem?_append_left hfront] at hc
      exact hgap c (List.mem_of_getElem? hc)
    · have hlength : (gap ++ t.text).length ≤ i := by
        rw [List.length_append]
        omega
      rw [List.getElem?_append_right hlength, List.length_append] at hc
      apply ih hc
      intro t' ht'
      have := hbehind t' ht'
      omega

end TakenFrom

/-- The tokens are a source split without a loss: the texts of the tokens, with gaps in front of
them, make up the source, and each stands at the place that its token has. -/
structure Splits (source : String) (ts : List Token) : Prop where
  ends : ∃ inner, ts = inner ++ [⟨.eof, "", source.length⟩] ∧
    ∀ t ∈ inner, t.kind ≠ .eof ∧ t.text ≠ ""
  exists_gaps : ∃ gaps : List (List Char), gaps.length = ts.length ∧ (∀ gap ∈ gaps, IsGap gap) ∧
    source.toList = (List.zipWith (fun gap t => gap ++ t.text.toList) gaps ts).flatten
  slice : ∀ t ∈ ts, (source.toList.drop t.position).take t.text.length = t.text.toList
  apart : ts.Pairwise fun t t' => t.position + t.text.length ≤ t'.position
  isBlank_of_uncovered : ∀ (i : Nat) (c : Char), source.toList[i]? = some c →
    (∀ t ∈ ts, ¬ (t.position ≤ i ∧ i < t.position + t.text.length)) → Text.isBlank c

/-- The tokens of a source split it without a loss. -/
theorem splits_of_tokenize {source : String} {ts : List Token} (h : tokenize source = .ok ts) :
    Splits source ts where
  ends := by
    rw [← String.length_toList, ← Nat.zero_add source.toList.length]
    exact (tokenize_eq_ok_iff.mp h).ends
  exists_gaps := (tokenize_eq_ok_iff.mp h).exists_gaps
  slice t ht := by simpa using ((tokenize_eq_ok_iff.mp h).slice ht).2
  apart := (tokenize_eq_ok_iff.mp h).pairwise
  isBlank_of_uncovered i c hc hi := by
    apply (tokenize_eq_ok_iff.mp h).isBlank_of_uncovered hc
    simpa using hi

/-- A source with gaps and without, an escaped quote, and a range right behind a number. -/
def spacedSource : String :=
  " f(1..n)\t== 'a\\'b' "

def spacedTokens : List Token :=
  [⟨.name "f", "f", 1⟩, ⟨.mark .openParen, "(", 2⟩, ⟨.integer 1, "1", 3⟩, ⟨.mark .range, "..", 4⟩,
    ⟨.name "n", "n", 6⟩, ⟨.mark .closeParen, ")", 7⟩, ⟨.mark .equal, "==", 9⟩,
    ⟨.string "a'b", "'a\\'b'", 12⟩, ⟨.eof, "", 19⟩]

theorem tokenize_spacedSource : tokenize spacedSource = .ok spacedTokens := by
  cbv

theorem splits_of_spacedSource :
    tokenize spacedSource = .ok spacedTokens ∧ Splits spacedSource spacedTokens :=
  ⟨tokenize_spacedSource, splits_of_tokenize tokenize_spacedSource⟩

end Stencil

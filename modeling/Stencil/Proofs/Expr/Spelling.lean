import Mathlib.Data.List.TakeWhile
import Stencil.Proofs.Expr.Lexing
import Stencil.Proofs.Expr.Reading
import Stencil.Proofs.Expr.Rendering

/-!
# How tokens are written

Marks, words, numerals and quoted texts in front of a text, and the tokens that they are taken as. A
word or a numeral must be told apart from what follows; marks and quoted texts end by themselves.
-/

namespace Stencil

open Grammar (Word)

/-- A text that splits into tokens of these kinds. -/
def Spells (w : Word) (cs : List Char) : Prop :=
  ∀ start, ∃ ts, TakenFrom start cs ts ∧ kindsBeforeEnd ts = w

theorem Spells.exists_tokens {w : Word} {source : String} (h : Spells w source.toList) :
    ∃ ts, tokenize source = .ok ts ∧ kindsBeforeEnd ts = w := by
  obtain ⟨ts, hts, hkinds⟩ := h 0
  exact ⟨ts, tokenize_eq_ok_iff.mpr hts, hkinds⟩

theorem Spells.nil : Spells [] [] :=
  fun _ => ⟨_, .finish nofun, rfl⟩

theorem Spells.cons {c : Char} {cs : List Char} {t : Lexeme.Taken} {w : Word}
    (hc : Text.isBlank c = false) (hscan : Lexeme.scan c cs = .ok t) (h : Spells w t.rest) :
    Spells (t.kind :: w) (c :: cs) := by
  intro start
  obtain ⟨ts, hts, rfl⟩ := h (start + 0 + t.text.length)
  have hend : t.kind.isEnd = false := by
    have hkind := Lexeme.kind_ne_eof_of_scan hscan
    cases hk : t.kind <;> simp_all [Token.Kind.isEnd]
  have hgap : Text.IsGap [] := nofun
  have htaken := TakenFrom.token hgap hc hscan hts
  exact ⟨_, htaken, by simp [kindsBeforeEnd, hend]⟩

namespace Lexeme

/-- The marks that another mark begins with. -/
def isExtensible : Mark → Bool
  | .dot | .greater | .less | .not => true
  | _ => false

theorem mark?_append {m : Mark} (h : isExtensible m = false) (cs : List Char) :
    mark? (m.text.toList ++ cs) = some (m, cs) := by
  cases m <;> first | rfl | cases h

end Lexeme

theorem Spells.mark {m : Mark} (hm : Lexeme.isExtensible m = false) {w : Word} {cs : List Char}
    (h : Spells w cs) : Spells (.mark m :: w) (m.text.toList ++ cs) := by
  obtain ⟨c, text, htext⟩ : ∃ c text, m.text.toList = c :: text := by
    cases m <;> exact ⟨_, _, rfl⟩
  have hc : Text.isBlank c = false := by
    cases m <;> cases htext <;> decide
  have hmark := Lexeme.mark?_append hm cs
  rw [htext, List.cons_append] at hmark ⊢
  have hscan : Lexeme.scan c (text ++ cs) = .ok ⟨.mark m, m.text.toList, cs⟩ := by
    rw [Lexeme.scan, hmark]
  exact .cons hc hscan h

namespace Lexeme

/-- The characters that marks begin with. -/
def markStarts : List Char :=
  ['.', '=', '>', '<', '!', '&', '|', ',', '+', '-', '*', '/', '%', '?', ':', '(', ')', '[', ']',
    '\x7b', '\x7d']

theorem exists_markStart {cs rest : List Char} {m : Mark} (h : mark? cs = some (m, rest)) :
    ∃ c ∈ cs.head?, c ∈ markStarts := by
  unfold mark? at h
  split at h <;> cases h <;> exact ⟨_, rfl, by decide⟩

theorem mark?_eq_none {c : Char} (h : c ∉ markStarts) (cs : List Char) :
    mark? (c :: cs) = none := by
  rw [Option.eq_none_iff_forall_ne_some]
  rintro ⟨m, rest⟩ hmark
  obtain ⟨c', hc', hmem⟩ := exists_markStart hmark
  obtain rfl := Option.mem_some_iff.mp hc'
  exact h hmem

/-- In front is nothing that a word or a numeral could go on with. -/
def IsDelimited (rest : List Char) : Prop :=
  ∀ c ∈ rest.head?, isNamePart c = false ∧ c ≠ '.'

theorem isDelimited_cons {c : Char} (hpart : isNamePart c = false) (hdot : c ≠ '.')
    (cs : List Char) : IsDelimited (c :: cs) := by
  intro d hd
  obtain rfl := Option.mem_some_iff.mp hd
  exact ⟨hpart, hdot⟩

theorem isNamePart_of_isDigit {c : Char} (h : c.isDigit) : isNamePart c := by
  simp [isNamePart, Char.isAlphanum, h]

theorem run_append_of_stop {p : Char → Bool} {front rest : List Char} (hfront : ∀ c ∈ front, p c)
    (hstop : ∀ c ∈ rest.head?, p c = false) : Text.run p (front ++ rest) = (front, rest) := by
  simp only [Text.run, Prod.mk.injEq]
  rw [List.takeWhile_append_of_pos hfront, List.dropWhile_append_of_pos hfront]
  cases rest with
  | nil => simp
  | cons c rest => simp [hstop c rfl]

/-- A run goes as far as the class does. -/
theorem run_eq_iff {p : Char → Bool} {cs front rest : List Char} :
    Text.run p cs = (front, rest) ↔
      (∀ c ∈ front, p c) ∧ (∀ c ∈ rest.head?, p c = false) ∧ cs = front ++ rest := by
  constructor
  · intro h
    have hcs := Text.run_append p cs
    simp only [h] at hcs
    simp only [Text.run, Prod.mk.injEq] at h
    refine ⟨fun c hc => List.mem_takeWhile_imp (h.1 ▸ hc), fun c hc => ?_, hcs.symm⟩
    rw [← h.2, Option.mem_def] at hc
    have hstop := List.head?_dropWhile_not p cs
    simpa [hc] using hstop
  · rintro ⟨hfront, hrest, rfl⟩
    exact run_append_of_stop hfront hrest

/-- In front is nothing that a numeral could go on with: no digit, and no point with a digit. -/
def EndsNumeral (rest : List Char) : Prop :=
  (∀ c ∈ rest.head?, c.isDigit = false) ∧
    (rest.head? = some '.' → ∀ c ∈ rest.tail.head?, c.isDigit = false)

theorem IsDelimited.endsNumeral {rest : List Char} (h : IsDelimited rest) : EndsNumeral rest := by
  refine ⟨fun c hc => ?_, fun hdot => absurd rfl (h '.' hdot).2⟩
  rw [Bool.eq_false_iff]
  intro hdigit
  exact absurd (isNamePart_of_isDigit hdigit) (by simp [(h c hc).1])

theorem not_mem_markStarts {c : Char} (h : isNamePart c) : c ∉ markStarts := by
  have hnone : markStarts.all fun c => !isNamePart c := by decide
  intro hc
  have := List.all_eq_true.mp hnone c hc
  rw [h] at this
  cases this

theorem toNat_of_isNamePart {c : Char} (h : isNamePart c) : 48 ≤ c.toNat ∧ c.toNat ≤ 122 := by
  simp only [isNamePart, Char.isAlphanum, Char.isAlpha, Char.isUpper, Char.isLower, Char.isDigit,
    Bool.or_eq_true, Bool.and_eq_true, decide_eq_true_eq, ge_iff_le, UInt32.le_iff_toNat_le] at h
  rcases h with ((h | h) | h) | rfl
  · exact ⟨Nat.le_trans (by decide) h.1, Nat.le_trans h.2 (by decide)⟩
  · exact ⟨Nat.le_trans (by decide) h.1, h.2⟩
  · exact ⟨h.1, Nat.le_trans h.2 (by decide)⟩
  · decide

theorem isBlank_of_isNamePart {c : Char} (h : isNamePart c) : Text.isBlank c = false := by
  have hc := toNat_of_isNamePart h
  simp only [Text.isBlank, Text.blankRanges, List.any_cons, List.any_nil, Bool.or_false,
    Bool.or_eq_false_iff, Bool.and_eq_false_iff, decide_eq_false_iff_not]
  omega

theorem isNamePart_of_isBlank {c : Char} (h : Text.isBlank c) : isNamePart c = false := by
  rw [Bool.eq_false_iff]
  intro hpart
  rw [isBlank_of_isNamePart hpart] at h
  cases h

theorem isNamePart_of_isNameStart {c : Char} (h : isNameStart c) : isNamePart c := by
  simp only [isNameStart, Bool.or_eq_true, decide_eq_true_eq] at h
  rcases h with h | h <;> simp [isNamePart, Char.isAlphanum, h]

/-- A word is a token, if nothing goes on with it. -/
theorem scan_word {c : Char} {cs rest : List Char} (hc : isNameStart c)
    (hcs : ∀ d ∈ cs, isNamePart d) (hrest : IsDelimited rest) :
    scan c (cs ++ rest) = .ok ⟨ofWord (String.ofList (c :: cs)), c :: cs, rest⟩ := by
  have hpart := isNamePart_of_isNameStart hc
  have hquote : ¬ (c = '"' ∨ c = '\'') := by
    rintro (rfl | rfl) <;> cases hc
  rw [scan, mark?_eq_none (not_mem_markStarts hpart)]
  simp only
  rw [if_neg (by simpa using hquote), if_pos hc, run_append_of_stop hcs fun d hd => (hrest d hd).1]

theorem scan_of_isDigit {d : Char} (hd : d.isDigit) (cs : List Char) :
    scan d cs = scanNumber (d :: cs) := by
  have hquote : ¬ (d = '"' ∨ d = '\'') := by
    rintro (rfl | rfl) <;> cases hd
  have hname : ¬ isNameStart d := by
    intro h
    simp only [isNameStart, Char.isAlpha, Char.isUpper, Char.isLower, Bool.or_eq_true,
      Bool.and_eq_true, decide_eq_true_eq, ge_iff_le, UInt32.le_iff_toNat_le] at h
    simp only [Char.isDigit, Bool.and_eq_true, decide_eq_true_eq, ge_iff_le,
      UInt32.le_iff_toNat_le] at hd
    rcases h with (h | h) | rfl
    · exact absurd (Nat.le_trans h.1 hd.2) (by decide)
    · exact absurd (Nat.le_trans h.1 hd.2) (by decide)
    · exact absurd hd.2 (by decide)
  rw [scan, mark?_eq_none (not_mem_markStarts (isNamePart_of_isDigit hd))]
  simp only
  rw [if_neg (by simpa using hquote), if_neg hname, if_pos hd]

theorem scanNumber_integer {digits rest : List Char} {n : Int64} (hdigits : ∀ c ∈ digits, c.isDigit)
    (hn : int64? (Decimal.ofDigits digits) = some n) (hrest : EndsNumeral rest) :
    scanNumber (digits ++ rest) = .ok ⟨.integer n, digits, rest⟩ := by
  have htake : takeInteger (digits ++ rest) digits rest = .ok ⟨.integer n, digits, rest⟩ := by
    rw [takeInteger, hn]
  simp only [scanNumber]
  rw [run_append_of_stop hdigits hrest.1]
  split
  · rename_i c _ heq
    cases heq
    rw [hrest.2 rfl c rfl]
    exact htake
  · exact htake

/-- A row of digits is a number that fits, if nothing goes on with it. -/
theorem scan_digits {d : Char} {ds rest : List Char} {n : Int64}
    (hdigits : ∀ c ∈ d :: ds, c.isDigit) (hn : int64? (Decimal.ofDigits (d :: ds)) = some n)
    (hrest : EndsNumeral rest) : scan d (ds ++ rest) = .ok ⟨.integer n, d :: ds, rest⟩ := by
  rw [scan_of_isDigit (hdigits d List.mem_cons_self), ← List.cons_append]
  exact scanNumber_integer hdigits hn hrest

end Lexeme

open Lexeme (IsDelimited isNameStart isNamePart)

/-- A text that is taken as these tokens, if nothing behind it goes on with it. -/
def Writes (word : Word) (text : List Char) : Prop :=
  ∀ ⦃w cs⦄, IsDelimited cs → Spells w cs → Spells (word ++ w) (text ++ cs)

theorem Writes.ofWord {word : String} {c : Char} {text : List Char}
    (hword : word.toList = c :: text) (hc : isNameStart c) (htext : text.all isNamePart) :
    Writes [Lexeme.ofWord word] word.toList := by
  intro w cs hcs hw
  obtain rfl : String.ofList (c :: text) = word := by rw [← hword, String.ofList_toList]
  rw [hword]
  exact .cons (Lexeme.isBlank_of_isNamePart (Lexeme.isNamePart_of_isNameStart hc))
    (Lexeme.scan_word hc (List.all_eq_true.mp htext) hcs) hw

theorem Writes.null : Writes [.null] "null".toList := by
  have hkind : Lexeme.ofWord "null" = .null := by simp [Lexeme.ofWord]
  rw [← hkind]
  exact .ofWord (c := 'n') rfl rfl (by decide)

theorem Writes.boolean (b : Bool) :
    Writes [.boolean b] (if b then "true" else "false").toList := by
  cases b with
  | true =>
    have hkind : Lexeme.ofWord "true" = .boolean true := by simp [Lexeme.ofWord]
    rw [← hkind]
    exact .ofWord (c := 't') rfl rfl (by decide)
  | false =>
    have hkind : Lexeme.ofWord "false" = .boolean false := by simp [Lexeme.ofWord]
    rw [← hkind]
    exact .ofWord (c := 'f') rfl rfl (by decide)

theorem Spells.natural {n : Nat} (hn : n < 2 ^ 63) {w : Word} {cs : List Char}
    (hcs : Lexeme.EndsNumeral cs) (h : Spells w cs) :
    Spells (.integer (Int64.ofInt n) :: w) (n.repr.toList ++ cs) := by
  rw [Nat.toList_repr]
  have hdigits : ∀ c ∈ Nat.toDigits 10 n, c.isDigit := fun c hc =>
    Nat.isDigit_of_mem_toDigits (by decide) (by decide) hc
  have hvalue : Decimal.ofDigits (Nat.toDigits 10 n) = n :=
    Nat.ofDigitChars_toDigits (by decide) (by decide)
  have hint : int64? (Decimal.ofDigits (Nat.toDigits 10 n)) = some (Int64.ofInt n) := by
    rw [hvalue, int64?, if_pos (by omega)]
  obtain ⟨d, ds, heq⟩ := List.exists_cons_of_ne_nil (Nat.toDigits_ne_nil (n := n) (b := 10))
  rw [heq] at hdigits hint ⊢
  have hd := Lexeme.isNamePart_of_isDigit (hdigits d List.mem_cons_self)
  exact .cons (Lexeme.isBlank_of_isNamePart hd) (Lexeme.scan_digits hdigits hint hcs) h

/-- The tokens of a number: a minus counts as a token of its own. -/
def integerWord (n : Int64) : Word :=
  if n < 0 then [.mark .minus, .integer (-n)] else [.integer n]

theorem Spells.integer {n : Int64} (hn : n ≠ Int64.minValue) {w : Word} {cs : List Char}
    (hcs : Lexeme.EndsNumeral cs) (h : Spells w cs) :
    Spells (integerWord n ++ w) ((toString n.toInt).toList ++ cs) := by
  have hlow := n.le_toInt
  have hhigh := n.toInt_lt
  have hne : n.toInt ≠ -2 ^ 63 := fun heq => hn (Int64.toInt_inj.mp heq)
  rw [integerWord]
  cases hint : n.toInt with
  | ofNat m =>
    have hneg : ¬ n < 0 := by
      rw [Int64.lt_iff_toInt_lt, hint]
      exact Int.not_lt.mpr (Int.natCast_nonneg m)
    have hm : Int64.ofInt m = n := by
      rw [← Int64.ofInt_toInt n, hint]
      rfl
    rw [hint, Int.ofNat_eq_natCast] at hhigh
    rw [if_neg hneg, ← hm]
    exact h.natural (n := m) (by omega) hcs
  | negSucc m =>
    have hneg : n < 0 := by
      rw [Int64.lt_iff_toInt_lt, hint]
      exact Int.negSucc_lt_zero m
    have hm : Int64.ofInt ((m + 1 : Nat) : Int) = -n := by
      rw [← Int64.ofInt_toInt n, hint, ← Int64.ofInt_neg]
      rfl
    rw [hint, Int.negSucc_eq] at hlow hne
    rw [if_pos hneg, ← hm]
    have htext : (toString (Int.negSucc m)).toList =
        Mark.minus.text.toList ++ (m + 1).repr.toList :=
      String.toList_append
    rw [htext, List.append_assoc]
    exact (h.natural (n := m + 1) (by omega) hcs).mark rfl

theorem Writes.integer {n : Int64} (hn : n ≠ Int64.minValue) :
    Writes (integerWord n) (toString n.toInt).toList :=
  fun _ _ hcs h => h.integer hn hcs.endsNumeral

/-- A text without the two characters that have an escape between quotes but none in a source. -/
def IsPlain (s : String) : Prop :=
  ∀ c ∈ s.toList, c ≠ '\x08' ∧ c ≠ '\x0c'

instance (s : String) : Decidable (IsPlain s) :=
  List.decidableBAll (fun c => c ≠ '\x08' ∧ c ≠ '\x0c') s.toList

namespace Lexeme

theorem codePoint?_control {n : Nat} (h : n < 0x20) :
    codePoint? ['0', '0', Text.hexDigit (n / 16), Text.hexDigit (n % 16)] = some n := by
  revert n
  decide

/-- How a character is written between quotes is taken as the character. -/
theorem scanQuoted_escaped {c : Char} (hback : c ≠ '\x08') (hfeed : c ≠ '\x0c')
    (start rest : List Char) :
    scanQuoted start '"' (Text.escaped c ++ rest) =
      Quoted.cons c (Text.escaped c) (scanQuoted start '"' rest) := by
  unfold Text.escaped
  split_ifs with hquote hslash htab hline hreturn hcontrol
  · subst hquote
    rfl
  · subst hslash
    rfl
  · subst htab
    rfl
  · subst hline
    rfl
  · subst hreturn
    rfl
  · simp only [List.cons_append, List.nil_append]
    rw [scanQuoted, codePoint?_control hcontrol]
    simp only
    have hvalid : c.toNat.isValidChar := c.valid
    rw [if_pos hvalid, Char.ofNat_toNat]
  · rw [List.cons_append, List.nil_append, scanQuoted.eq_def]
    split <;> simp_all

theorem scanQuoted_quoted {cs : List Char} (h : ∀ c ∈ cs, c ≠ '\x08' ∧ c ≠ '\x0c')
    (start rest : List Char) :
    scanQuoted start '"' (cs.flatMap Text.escaped ++ '"' :: rest) =
      .ok ⟨cs, cs.flatMap Text.escaped ++ ['"'], rest⟩ := by
  induction cs with
  | nil => rfl
  | cons c cs ih =>
    obtain ⟨⟨hback, hfeed⟩, hcs⟩ := List.forall_mem_cons.mp h
    rw [List.flatMap_cons, List.append_assoc, scanQuoted_escaped hback hfeed, ih hcs,
      List.append_assoc]
    rfl

end Lexeme

theorem Spells.quoted {s : String} (hs : IsPlain s) {w : Word} {cs : List Char}
    (h : Spells w cs) : Spells (.string s :: w) ((Text.quoted s).toList ++ cs) := by
  have htext : (Text.quoted s).toList ++ cs =
      '"' :: (s.toList.flatMap Text.escaped ++ '"' :: cs) := by
    simp [Text.quoted]
  rw [htext]
  have hscan : Lexeme.scan '"' (s.toList.flatMap Text.escaped ++ '"' :: cs) =
      .ok ⟨.string s, '"' :: (s.toList.flatMap Text.escaped ++ ['"']), cs⟩ := by
    rw [Lexeme.scan, Lexeme.mark?_eq_none (by decide), Lexeme.scanQuoted_quoted hs]
    simp [Except.map]
  exact .cons (by decide) hscan h

/-- Texts with commas between them. -/
theorem Writes.commas {parts : List (Word × List Char)} (h : ∀ p ∈ parts, Writes p.1 p.2) :
    Writes (Stencil.commas (parts.map (·.1))) ([','].intercalate (parts.map (·.2))) := by
  intro w cs hcs hw
  induction parts with
  | nil => exact hw
  | cons p parts ih =>
    obtain ⟨hp, hparts⟩ := List.forall_mem_cons.mp h
    by_cases hlast : parts = []
    · subst hlast
      simpa [Stencil.commas] using hp hcs hw
    obtain ⟨q, qs, rfl⟩ := List.exists_cons_of_ne_nil hlast
    have hword : Stencil.commas ((p :: q :: qs).map (·.1)) ++ w =
        p.1 ++ .mark .comma :: (Stencil.commas ((q :: qs).map (·.1)) ++ w) := by
      rw [List.map_cons, commas_cons p.1 (mt List.map_eq_nil_iff.mp hlast), List.append_assoc,
        List.cons_append]
    have htext : [','].intercalate ((p :: q :: qs).map (·.2)) ++ cs =
        p.2 ++ ',' :: ([','].intercalate ((q :: qs).map (·.2)) ++ cs) := by
      simp [List.intercalate_cons_cons]
    rw [hword, htext]
    exact hp (Lexeme.isDelimited_cons rfl (by decide) _) ((ih hparts).mark (m := .comma) rfl)

/-- A name with a value behind it. -/
theorem Writes.member {s : String} (hs : IsPlain s) {word : Word} {text : List Char}
    (h : Writes word text) :
    Writes (.string s :: .mark .colon :: word) ((Text.quoted s).toList ++ ':' :: text) := by
  intro w cs hcs hw
  rw [List.append_assoc]
  exact ((h hcs hw).mark (m := .colon) rfl).quoted hs

/-- Brackets or braces around a text. -/
theorem Writes.between (opening closing : Mark) (hopening : Lexeme.isExtensible opening = false)
    (hclosing : Lexeme.isExtensible closing = false)
    (hend : ∀ cs, IsDelimited (closing.text.toList ++ cs)) {word : Word} {text : List Char}
    (h : Writes word text) :
    Writes (.mark opening :: word ++ [.mark closing])
      (opening.text.toList ++ (text ++ closing.text.toList)) := by
  intro w cs hcs hw
  have := (h (hend cs) (hw.mark hclosing)).mark hopening
  simpa using this

end Stencil

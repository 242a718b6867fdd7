import Stencil.Expr.Token
import Stencil.Json.Reader
import Stencil.Number.Decimal
import Stencil.Text.Blank
import Stencil.Text.Run

/-!
# Splitting a source into tokens

`Lexer.nextToken` takes one token at a time and can go on after an error; `tokenize` takes all of
them.
-/

namespace Stencil

inductive LexFault where
  | unexpected (c : Char)
  /-- A character that only counts next to another one. -/
  | lone (c : Char)
  | badEscape (c : Char)
  | badUnicodeEscape
  | badCodePoint
  | unterminated
  | outOfRange (digits : String)
deriving DecidableEq

def LexFault.message : LexFault → String
  | unexpected c => "Unexpected character '" ++ c.toString ++ "'"
  | lone '=' => "Unexpected '=' (did you mean '==' or '=>'?)"
  | lone c => "Unexpected '" ++ c.toString ++ "' (did you mean '" ++ String.ofList [c, c] ++ "'?)"
  | badEscape c => "Invalid escape sequence '\\" ++ c.toString ++ "'"
  | badUnicodeEscape => "Invalid unicode escape"
  | badCodePoint => "Invalid unicode code point"
  | unterminated => "Unterminated string literal"
  | outOfRange digits => "Integer '" ++ digits ++ "' is out of range"

structure LexError where
  position : Nat
  fault : LexFault
deriving DecidableEq

def LexError.message (e : LexError) : String :=
  e.fault.message ++ " at position " ++ toString e.position

namespace Lexeme

/-- A token taken from the front of a text: its kind, its own text, and the text behind it. -/
structure Taken where
  kind : Token.Kind
  text : List Char
  rest : List Char

/-- Why no token could be taken: the text from the place of the fault on, and the text from which
the next token can be taken. -/
structure Stop where
  fault : LexFault
  place : List Char
  rest : List Char

/-- A mark at the front of a text, and the text behind it; of two marks that fit, the longer one. -/
def mark? : List Char → Option (Mark × List Char)
  | '.' :: '.' :: rest => some (.range, rest)
  | '=' :: '=' :: rest => some (.equal, rest)
  | '=' :: '>' :: rest => some (.arrow, rest)
  | '>' :: '=' :: rest => some (.greaterEqual, rest)
  | '<' :: '=' :: rest => some (.lessEqual, rest)
  | '!' :: '=' :: rest => some (.notEqual, rest)
  | '&' :: '&' :: rest => some (.and, rest)
  | '|' :: '|' :: rest => some (.or, rest)
  | '.' :: rest => some (.dot, rest)
  | '>' :: rest => some (.greater, rest)
  | '<' :: rest => some (.less, rest)
  | '!' :: rest => some (.not, rest)
  | ',' :: rest => some (.comma, rest)
  | '+' :: rest => some (.plus, rest)
  | '-' :: rest => some (.minus, rest)
  | '*' :: rest => some (.star, rest)
  | '/' :: rest => some (.slash, rest)
  | '%' :: rest => some (.percent, rest)
  | '?' :: rest => some (.question, rest)
  | ':' :: rest => some (.colon, rest)
  | '(' :: rest => some (.openParen, rest)
  | ')' :: rest => some (.closeParen, rest)
  | '[' :: rest => some (.openBracket, rest)
  | ']' :: rest => some (.closeBracket, rest)
  | '\x7b' :: rest => some (.openBrace, rest)
  | '\x7d' :: rest => some (.closeBrace, rest)
  | _ => none

def isNameStart (c : Char) : Bool :=
  c.isAlpha || c = '_'

def isNamePart (c : Char) : Bool :=
  c.isAlphanum || c = '_'

/-- The token of a word; some words are not names. -/
def ofWord (word : String) : Token.Kind :=
  if word = "and" then .mark .and
  else if word = "or" then .mark .or
  else if word = "true" then .boolean true
  else if word = "false" then .boolean false
  else if word = "null" then .null
  else .name word

/-- The character that stands behind a backslash for another one. -/
def unescaped? : Char → Option Char
  | 'n' => some '\n'
  | 't' => some '\t'
  | 'r' => some '\r'
  | '"' => some '"'
  | '\'' => some '\''
  | '\\' => some '\\'
  | '/' => some '/'
  | _ => none

def codePoint? (digits : List Char) : Option Nat :=
  digits.foldlM (fun n c => (Json.hexValue? c).map (16 * n + ·)) 0

/-- The content of a string, the text of it from behind the opening quote, and the text behind it. -/
structure Quoted where
  content : List Char
  text : List Char
  rest : List Char

/-- Puts a character, and the text that writes it, in front of what follows. -/
def Quoted.cons (c : Char) (text : List Char) (r : Except Stop Quoted) :
    Except Stop Quoted :=
  r.map fun q => ⟨c :: q.content, text ++ q.text, q.rest⟩

/-- A string up to its closing quote. The text `start` begins at the opening one. -/
def scanQuoted (start : List Char) (quote : Char) : List Char → Except Stop Quoted
  | [] => .error ⟨.unterminated, start, []⟩
  | ['\\'] => .error ⟨.unterminated, start, []⟩
  | '\\' :: 'u' :: a :: b :: c :: d :: rest =>
    let digits := a :: b :: c :: d :: rest
    match codePoint? [a, b, c, d] with
    | none => .error ⟨.badUnicodeEscape, 'u' :: digits, digits.dropWhile (Json.hexValue? · |>.isSome)⟩
    | some n =>
      if n.isValidChar then
        Quoted.cons (Char.ofNat n) ['\\', 'u', a, b, c, d] (scanQuoted start quote rest)
      else .error ⟨.badCodePoint, 'u' :: digits, rest⟩
  | '\\' :: 'u' :: digits =>
    .error ⟨.badUnicodeEscape, 'u' :: digits, digits.dropWhile (Json.hexValue? · |>.isSome)⟩
  | '\\' :: c :: rest =>
    match unescaped? c with
    | some c' => Quoted.cons c' ['\\', c] (scanQuoted start quote rest)
    | none => .error ⟨.badEscape c, c :: rest, c :: rest⟩
  | c :: rest =>
    if c = quote then .ok ⟨[], [c], rest⟩ else Quoted.cons c [c] (scanQuoted start quote rest)

/-- An integer of these digits. The text `start` begins at the first of them. -/
def takeInteger (start digits rest : List Char) : Except Stop Taken :=
  match int64? (Decimal.ofDigits digits) with
  | some n => .ok ⟨.integer n, digits, rest⟩
  | none => .error ⟨.outOfRange (String.ofList digits), start, rest⟩

/-- Digits, and a fraction if a digit follows the point. -/
def scanNumber (cs : List Char) : Except Stop Taken :=
  let (whole, rest) := Text.run Char.isDigit cs
  match rest with
  | '.' :: d :: rest' =>
    if d.isDigit then
      let (fraction, rest) := Text.run Char.isDigit (d :: rest')
      let x := Decimal.toFloat ⟨false, Decimal.ofDigits (whole ++ fraction), -fraction.length⟩
      .ok ⟨.float x, whole ++ '.' :: fraction, rest⟩
    else takeInteger cs whole rest
  | _ => takeInteger cs whole rest

def isLone (c : Char) : Bool :=
  c = '=' || c = '&' || c = '|'

/-- The token that starts with the character `c`. -/
def scan (c : Char) (cs : List Char) : Except Stop Taken :=
  match mark? (c :: cs) with
  | some (m, rest) => .ok ⟨.mark m, m.text.toList, rest⟩
  | none =>
    if c = '"' || c = '\'' then
      (scanQuoted (c :: cs) c cs).map fun q => ⟨.string (String.ofList q.content), c :: q.text, q.rest⟩
    else if isNameStart c then
      let (word, rest) := Text.run isNamePart cs
      .ok ⟨ofWord (String.ofList (c :: word)), c :: word, rest⟩
    else if c.isDigit then scanNumber (c :: cs)
    else .error ⟨if isLone c then .lone c else .unexpected c, c :: cs, c :: cs⟩

private theorem text_append_of_mark? {cs rest : List Char} {m : Mark}
    (h : mark? cs = some (m, rest)) : m.text.toList ++ rest = cs := by
  unfold mark? at h
  split at h <;> cases h <;> rfl

private theorem Quoted.text_append_of_cons {c : Char} {text cs : List Char}
    {r : Except Stop Quoted} {q : Quoted} (h : Quoted.cons c text r = .ok q)
    (hr : ∀ q, r = .ok q → q.text ++ q.rest = cs) : q.text ++ q.rest = text ++ cs := by
  cases r with
  | error e => simp [Quoted.cons, Except.map] at h
  | ok q' =>
    simp only [Quoted.cons, Except.map, Except.ok.injEq] at h
    simp [← h, hr q' rfl]

private theorem text_append_of_scanQuoted {start : List Char} {quote : Char} {cs : List Char}
    {q : Quoted} (h : scanQuoted start quote cs = .ok q) : q.text ++ q.rest = cs := by
  fun_induction scanQuoted start quote cs generalizing q with
  | case1 | case2 | case3 | case5 | case6 | case8 => simp at h
  | case4 _ _ _ _ _ _ _ _ ih | case7 _ _ _ _ _ _ ih | case10 _ _ _ _ _ _ _ ih =>
    exact Quoted.text_append_of_cons h fun _ => ih
  | case9 => cases h; rfl

private theorem text_append_of_takeInteger {start digits rest : List Char} {t : Taken}
    (h : takeInteger start digits rest = .ok t) : t.text ++ t.rest = digits ++ rest := by
  unfold takeInteger at h
  split at h <;> cases h
  rfl

private theorem text_append_of_scanNumber {cs : List Char} {t : Taken}
    (h : scanNumber cs = .ok t) : t.text ++ t.rest = cs := by
  have hrun := Text.run_append Char.isDigit cs
  simp only [scanNumber] at h
  split at h
  · rename_i d rest' hrest
    rw [hrest] at h hrun
    split at h
    · cases h
      rw [List.append_assoc, List.cons_append, Text.run_append, hrun]
    · rw [text_append_of_takeInteger h, hrun]
  · rw [text_append_of_takeInteger h, hrun]

/-- A token is the front of what it is taken from. -/
theorem text_append_of_scan {c : Char} {cs : List Char} {t : Taken} (h : scan c cs = .ok t) :
    t.text ++ t.rest = c :: cs := by
  unfold scan at h
  split at h
  · rename_i hm
    cases h
    exact text_append_of_mark? hm
  · split at h
    · cases hq : scanQuoted (c :: cs) c cs with
      | error e => simp [hq, Except.map] at h
      | ok q =>
        simp only [hq, Except.map, Except.ok.injEq] at h
        simp [← h, text_append_of_scanQuoted hq]
    · split at h
      · cases h
        simp
      · split at h
        · exact text_append_of_scanNumber h
        · cases h

private theorem text_ne_nil_of_scanNumber {c : Char} {cs : List Char} {t : Taken}
    (hc : c.isDigit) (h : scanNumber (c :: cs) = .ok t) : t.text ≠ [] := by
  simp only [scanNumber, takeInteger, Text.run, List.takeWhile_cons_of_pos hc] at h
  split at h <;> split at h <;> try split at h
  all_goals cases h
  all_goals simp

/-- No token is without a text. -/
theorem text_ne_nil_of_scan {c : Char} {cs : List Char} {t : Taken} (h : scan c cs = .ok t) :
    t.text ≠ [] := by
  unfold scan at h
  split at h
  · rename_i m rest _
    cases h
    cases m <;> simp [Mark.text]
  · split at h
    · cases hq : scanQuoted (c :: cs) c cs with
      | error e => simp [hq, Except.map] at h
      | ok q =>
        simp only [hq, Except.map, Except.ok.injEq] at h
        simp [← h]
    · split at h
      · cases h
        simp
      · split at h
        · rename_i hc
          exact text_ne_nil_of_scanNumber hc h
        · cases h

theorem length_rest_of_scan {c : Char} {cs : List Char} {t : Taken} (h : scan c cs = .ok t) :
    t.rest.length ≤ cs.length := by
  have hpos := List.length_pos_iff.2 (text_ne_nil_of_scan h)
  have := congrArg List.length (text_append_of_scan h)
  simp only [List.length_append, List.length_cons] at this
  omega

end Lexeme

/-- A reader of tokens: what is left of its source, and the number of characters read. -/
structure Lexer where
  source : String
  rest : List Char
  position : Nat
  /-- Whether the end has been reached or an error met. -/
  finished : Bool

namespace Lexer

def ofString (source : String) : Lexer where
  source
  rest := source.toList
  position := 0
  finished := false

def reset (l : Lexer) : Lexer :=
  ofString l.source

/-- The next token behind blanks; `eof` at the end of the source. Of a text that holds no token, the
faulty part is skipped. -/
def nextToken (l : Lexer) : Except LexError Token × Lexer :=
  let (blank, rest) := Text.run Text.isBlank l.rest
  let position := l.position + blank.length
  match rest with
  | [] => (.ok ⟨.eof, "", position⟩, { l with rest := [], position })
  | c :: cs =>
    match Lexeme.scan c cs with
    | .ok t =>
      (.ok ⟨t.kind, String.ofList t.text, position⟩,
        { l with rest := t.rest, position := position + t.text.length })
    | .error s =>
      let placeOf (cs : List Char) := position + (rest.length - cs.length)
      (.error ⟨placeOf s.place, s.fault⟩, { l with rest := s.rest, position := placeOf s.rest })

theorem length_rest_of_nextToken {l l' : Lexer} {t : Token} (h : l.nextToken = (.ok t, l'))
    (ht : ¬ t.kind matches .eof) : l'.rest.length < l.rest.length := by
  have hrun := Text.length_run_snd Text.isBlank l.rest
  simp only [nextToken] at h
  split at h
  · cases h
    simp at ht
  · rename_i c cs hrest
    rw [hrest, List.length_cons] at hrun
    split at h
    · rename_i hscan
      cases h
      exact Nat.lt_of_lt_of_le (Nat.lt_succ_of_le (Lexeme.length_rest_of_scan hscan)) hrun
    · cases h

/-- The next token, or nothing once the end has been reached or an error met. -/
def next? (l : Lexer) : Option (Except LexError Token) × Lexer :=
  if l.finished then (none, l)
  else
    match l.nextToken with
    | (.ok t, l') => (some (.ok t), { l' with finished := t.kind matches .eof })
    | (.error e, l') => (some (.error e), { l' with finished := true })

/-- All the tokens left, the last one `eof`. -/
def tokens (l : Lexer) : Except LexError (List Token) :=
  match _ : l.nextToken with
  | (.error e, _) => .error e
  | (.ok t, l') => if _ : t.kind matches .eof then .ok [t] else l'.tokens.map (t :: ·)
termination_by l.rest.length
decreasing_by exact length_rest_of_nextToken ‹_› ‹_›

end Lexer

def tokenize (source : String) : Except LexError (List Token) :=
  (Lexer.ofString source).tokens

end Stencil

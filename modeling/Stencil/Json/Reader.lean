import Stencil.Json.Basic
import Stencil.Number.Decimal

/-!
# Reading JSON

A strict reader: no comments, no trailing commas, no blanks but the four of the format, no lone
surrogates, and no deeper nesting than the caller allows. What it refuses it refuses without a
reason.
-/

namespace Stencil.Json

/-! A reader takes something from the front of a text and returns it with the text after it. -/

def skip (cs : List Char) : List Char :=
  cs.dropWhile fun c => c = ' ' || c = '\t' || c = '\n' || c = '\r'

def hexValue? (c : Char) : Option Nat :=
  if c.isDigit then some (c.toNat - '0'.toNat)
  else if 'a' ≤ c && c ≤ 'f' then some (c.toNat - 'a'.toNat + 10)
  else if 'A' ≤ c && c ≤ 'F' then some (c.toNat - 'A'.toNat + 10)
  else none

def hexValues? (cs : List Char) : Option Nat :=
  cs.foldlM (fun n c => (hexValue? c).map (16 * n + ·)) 0

/-- The character that stands behind a backslash for another one. -/
def unescape? : Char → Option Char
  | '"' => some '"'
  | '\\' => some '\\'
  | '/' => some '/'
  | 'b' => some '\x08'
  | 'f' => some '\x0c'
  | 'n' => some '\n'
  | 'r' => some '\r'
  | 't' => some '\t'
  | _ => none

def isLeading (unit : Nat) : Bool :=
  0xD800 ≤ unit && unit < 0xDC00

def isTrailing (unit : Nat) : Bool :=
  0xDC00 ≤ unit && unit < 0xE000

def paired (leading trailing : Nat) : Char :=
  Char.ofNat (0x10000 + (leading - 0xD800) * 0x400 + (trailing - 0xDC00))

def push (c : Char) (r : Option (List Char × List Char)) : Option (List Char × List Char) :=
  r.map fun (cs, rest) => (c :: cs, rest)

/-- The characters up to the closing quote. -/
def readQuoted : List Char → Option (List Char × List Char)
  | [] => none
  | '"' :: rest => some ([], rest)
  | '\\' :: 'u' :: a :: b :: c :: d :: rest =>
    match hexValues? [a, b, c, d] with
    | none => none
    | some unit =>
      if isLeading unit then
        match rest with
        | '\\' :: 'u' :: a :: b :: c :: d :: rest =>
          match hexValues? [a, b, c, d] with
          | none => none
          | some trailing =>
            if isTrailing trailing then push (paired unit trailing) (readQuoted rest) else none
        | _ => none
      else if isTrailing unit then none
      else push (Char.ofNat unit) (readQuoted rest)
  | '\\' :: c :: rest =>
    match unescape? c with
    | none => none
    | some c => push c (readQuoted rest)
  | c :: rest => if c.toNat < 0x20 || c = '\\' then none else push c (readQuoted rest)

/-- Digits as far as they go into 64 bits, and the power of ten for them. -/
structure Significand where
  digits : Nat
  exponent : Int

def Significand.extend? (s : Significand) (c : Char) : Option Nat :=
  let n := 10 * s.digits + Decimal.digitValue c
  if n < Nat.pow 2 64 then some n else none

/-- Digits before the point; those that do not fit only count. -/
def Significand.whole (s : Significand) : List Char → Significand
  | [] => s
  | c :: cs =>
    match s.extend? c with
    | some n => Significand.whole ⟨n, 0⟩ cs
    | none => ⟨s.digits, (cs.length + 1 : Nat)⟩

/-- Digits after the point, up to the first that does not fit. -/
def Significand.fraction (s : Significand) : List Char → Significand
  | [] => s
  | c :: cs =>
    match s.extend? c with
    | some n => Significand.fraction ⟨n, s.exponent - 1⟩ cs
    | none => s

def powerOfTen (n : Nat) : Float :=
  Binary.nearest (Nat.pow 10 n) 1

/-- The quotient by `10 ^ n`, in steps that are floats. -/
def dividedBy : Nat → Float → Nat → Float
  | 0, x, _ => x
  | fuel + 1, x, n =>
    if n ≤ 308 then x / powerOfTen n
    else if x == 0.0 then x
    else dividedBy fuel (x / powerOfTen 308) (n - 308)

/-- The digits as a float times or divided by the power of ten; nothing if it overflows. -/
def Significand.toFloat? (s : Significand) : Option Float :=
  let x := Binary.nearest s.digits 1
  if s.exponent < 0 then
    let n := s.exponent.natAbs
    some (dividedBy (n / 308 + 1) x n)
  else if s.digits = 0 then some x
  else if s.exponent ≤ 308 then
    let y := x * powerOfTen s.exponent.toNat
    if y.isFinite then some y else none
  else none

/-- The digits before the point: a zero, or a row that does not start with one. -/
def readWhole (cs : List Char) : Option (List Char × List Char) :=
  match Text.run Char.isDigit cs with
  | ([], _) => none
  | (['0'], rest) => some (['0'], rest)
  | ('0' :: _, _) => none
  | (ds, rest) => some (ds, rest)

/-- The point and the digits after it, if there is a point. -/
def readFraction (cs : List Char) : Option (Option (List Char) × List Char) :=
  match cs with
  | '.' :: rest =>
    match Text.run Char.isDigit rest with
    | ([], _) => none
    | (ds, rest) => some (some ds, rest)
  | _ => some (none, cs)

/-- The power of ten written behind the digits, if there is one. -/
def readExponent (cs : List Char) : Option (Option Int × List Char) :=
  match cs with
  | c :: rest =>
    if c = 'e' || c = 'E' then
      let (negative, rest) := Decimal.sign rest
      match Text.run Char.isDigit rest with
      | ([], _) => none
      | (ds, rest) =>
        some (some (if negative then -Decimal.ofDigits ds else Decimal.ofDigits ds), rest)
    else some (none, cs)
  | [] => some (none, [])

/-- A number without point and exponent is an integer if it fits, but `-0` is a float. -/
def integer? (negative : Bool) (ds : List Char) : Option Json :=
  let n := Decimal.ofDigits ds
  if negative then if n = 0 then none else (int64? (-n)).map integer else (int64? n).map integer

def readNumber (cs : List Char) : Option (Json × List Char) := do
  let (negative, cs) := match cs with
    | '-' :: rest => (true, rest)
    | _ => (false, cs)
  let (ds, cs) ← readWhole cs
  let (fs, cs) ← readFraction cs
  let (e, cs) ← readExponent cs
  let whole? := if fs.isNone && e.isNone then integer? negative ds else none
  match whole? with
  | some n => some (n, cs)
  | none =>
    let s := (Significand.whole ⟨0, 0⟩ ds).fraction (fs.getD [])
    let x ← Significand.toFloat? ⟨s.digits, s.exponent + e.getD 0⟩
    some (float (if negative then -x else x), cs)

def readWord (word : String) (v : Json) (cs : List Char) : Option (Json × List Char) :=
  if word.toList.isPrefixOf cs then some (v, cs.drop word.length) else none

def readScalar (cs : List Char) : Option (Json × List Char) :=
  match cs with
  | 'n' :: _ => readWord "null" null cs
  | 't' :: _ => readWord "true" (boolean true) cs
  | 'f' :: _ => readWord "false" (boolean false) cs
  | '"' :: rest => (readQuoted rest).map fun (s, rest) => (string (String.ofList s), rest)
  | _ => readNumber cs

/-- Items with commas between them up to the closing bracket. There are no more of them than
characters in `fuel`. -/
def readItems {α : Type} (closing : Char) (item : List Char → Option (α × List Char)) :
    (fuel : List Char) → List Char → Option (List α × List Char)
  | [], _ => none
  | _ :: fuel, cs => do
    let (a, cs) ← item cs
    match skip cs with
    | [] => none
    | c :: rest =>
      if c = closing then some ([a], rest)
      else if c = ',' then
        let (as, rest) ← readItems closing item fuel rest
        some (a :: as, rest)
      else none

/-- Every item has a character of its own. -/
def readList {α : Type} (closing : Char) (item : List Char → Option (α × List Char))
    (cs : List Char) : Option (List α × List Char) :=
  match skip cs with
  | [] => none
  | c :: rest => if c = closing then some ([], rest) else readItems closing item cs cs

/-- A name, a colon and a value. -/
def readMember (value : List Char → Option (Json × List Char)) (cs : List Char) :
    Option ((String × Json) × List Char) := do
  match skip cs with
  | '"' :: rest =>
    let (name, rest) ← readQuoted rest
    match skip rest with
    | ':' :: rest =>
      let (v, rest) ← value rest
      some ((String.ofList name, v), rest)
    | _ => none
  | _ => none

/-- The value at the front of a text, with at most `depth` arrays and objects inside each other. -/
def readValue : (depth : Nat) → List Char → Option (Json × List Char)
  | 0, cs =>
    match skip cs with
    | '[' :: _ => none
    | '\x7b' :: _ => none
    | cs => readScalar cs
  | depth + 1, cs =>
    match skip cs with
    | '[' :: rest => (readList ']' (readValue depth) rest).map fun (vs, rest) => (array vs, rest)
    | '\x7b' :: rest =>
      (readList '\x7d' (readMember (readValue depth)) rest).map fun (ms, rest) =>
        (object (Fields.ofList ms), rest)
    | cs => readScalar cs

/-- How deep arrays and objects may be nested in a document. -/
def maxNesting : Nat := 127

/-- The one value that a text holds. -/
def read? (s : String) (nesting : Nat) : Option Json := do
  let (v, rest) ← readValue nesting s.toList
  if (skip rest).isEmpty then some v else none

def ofText? (s : String) : Option Json :=
  read? s maxNesting

end Stencil.Json

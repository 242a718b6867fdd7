import Stencil.Expr.Basic
import Stencil.Expr.Lexer

/-!
# Parsing

From tokens to expressions, level by level: conditionals, then the binary operators from the
loosest to the tightest, then prefixes, then members, calls and indexes, then atoms. An expression
inside another one, and an operand behind a prefix, is one step deeper; the depth is limited.
-/

namespace Stencil

inductive ParseError where
  | unexpected (position : Nat) (expected found : String)
  | tooDeep (position limit : Nat)
deriving DecidableEq

def ParseError.message : ParseError → String
  | unexpected position expected found =>
    "Expected " ++ expected ++ ", found " ++ found ++ " at position " ++ toString position
  | tooDeep position limit =>
    "Expression nesting exceeds " ++ toString limit ++ " levels at position " ++ toString position

def ParseError.position : ParseError → Nat
  | unexpected position _ _ | tooDeep position _ => position

namespace Parser

/-- Tokens ahead, without `eof`, and the place behind the last of them. -/
structure Input where
  tokens : List Token
  finish : Nat

/-- The tokens in front of the first `eof`. Without one the source ends with the last token. -/
def Input.ofTokens (ts : List Token) : Input :=
  let inside := ts.takeWhile fun t => match t.kind with
    | .eof => false
    | _ => true
  let finish := match ts.drop inside.length, inside.getLast? with
    | eof :: _, _ => eof.position
    | [], some last => last.position + last.text.length
    | [], none => 0
  ⟨inside, finish⟩

def Input.kind (ts : Input) : Token.Kind :=
  match ts.tokens with
  | t :: _ => t.kind
  | [] => .eof

def Input.position (ts : Input) : Nat :=
  match ts.tokens with
  | t :: _ => t.position
  | [] => ts.finish

def Input.tail (ts : Input) : Input :=
  { ts with tokens := ts.tokens.tail }

abbrev Rule (α : Type) := StateT Input (Except ParseError) α

def fail {α : Type} (expected : String) : Rule α := fun ts =>
  .error (.unexpected ts.position expected ts.kind.describe)

def tooDeep {α : Type} (limit : Nat) : Rule α := fun ts =>
  .error (.tooDeep ts.position limit)

/-- The next token, which stays ahead. -/
def peek : Rule Token.Kind :=
  return (← get).kind

def advance : Rule Unit :=
  modify Input.tail

def atMark (m : Mark) : Rule Bool :=
  return (← peek).isMark m

def expect (m : Mark) (expected : String) : Rule Unit := do
  if ← atMark m then advance else fail expected

def expectName (expected : String) : Rule String := do
  match ← peek with
  | .name s => advance; return s
  | _ => fail expected

/-- The operator of a token on one level, if it has one. -/
abbrev Level := Mark → Option BinaryOp

def disjunction : Level
  | .or => some .or
  | _ => none

def conjunction : Level
  | .and => some .and
  | _ => none

def equality : Level
  | .equal => some .equal
  | .notEqual => some .notEqual
  | _ => none

def relation : Level
  | .less => some (.order .less)
  | .greater => some (.order .greater)
  | .lessEqual => some (.order .lessEqual)
  | .greaterEqual => some (.order .greaterEqual)
  | _ => none

def sum : Level
  | .plus => some (.arith .add)
  | .minus => some (.arith .sub)
  | _ => none

def product : Level
  | .star => some (.arith .mul)
  | .slash => some (.arith .div)
  | .percent => some (.arith .rem)
  | _ => none

def operator? (level : Level) : Rule (Option BinaryOp) := do
  match ← peek with
  | .mark m => return level m
  | _ => return none

/-- Further operands of one level, grouped to the left. There are no more of them than tokens in
`fuel`. -/
def chain (level : Level) (operand : Rule Expr) : (fuel : List Token) → Expr → Rule Expr
  | [], left => return left
  | _ :: fuel, left => do
    match ← operator? level with
    | none => return left
    | some op =>
      advance
      let right ← operand
      chain level operand fuel (.binary op left right)

/-- Operands of one level. Every operator is a token of its own. -/
def leftAssoc (level : Level) (operand : Rule Expr) : Rule Expr := do
  let left ← operand
  chain level operand (← get).tokens left

/-- An operand, or two with `..` between them. -/
def rangeOf (operand : Rule Expr) : Rule Expr := do
  let first ← operand
  if ← atMark .range then
    advance
    return .range first (← operand)
  else
    return first

/-- Everything from the disjunctions down to the operands `unary`. -/
def operation (unary : Rule Expr) : Rule Expr :=
  leftAssoc disjunction <| leftAssoc conjunction <| leftAssoc equality <| leftAssoc relation <|
    rangeOf <| leftAssoc sum <| leftAssoc product unary

/-- An operation, or a choice between two branches by it. -/
def choice (unary branch : Rule Expr) : Rule Expr := do
  let test ← operation unary
  if ← atMark .question then
    advance
    let yes ← branch
    expect .colon "':' in conditional expression"
    let no ← branch
    return .conditional test yes no
  else
    return test

/-- The literal of a token. -/
def number? : Token.Kind → Option Expr
  | .integer n => some (.integer n)
  | .float x => some (.float x)
  | _ => none

def negated : Expr → Expr
  | .integer n => .integer (-n)
  | .float x => .float (-x)
  | e => e

/-- A number literal, to which a minus right before it belongs, and the tokens behind it. -/
def literal? : List Token → Option (Expr × List Token)
  | t :: rest =>
    match t.kind with
    | .mark .minus =>
      match rest with
      | u :: rest => (number? u.kind).map fun e => (negated e, rest)
      | [] => none
    | kind => (number? kind).map fun e => (e, rest)
  | [] => none

/-- The second bound of a range of literals, if what follows it takes the whole range. -/
def bound? : List Token → Option (Expr × List Token)
  | t :: rest =>
    if t.kind.isMark .range then
      match literal? rest with
      | some (e, next :: rest) =>
        if next.kind.isMark .dot || next.kind.isMark .openBracket then some (e, next :: rest)
        else none
      | _ => none
    else none
  | [] => none

/-- A number literal, or a range of two where a member or an index of the range follows. -/
def numeral? (ts : List Token) : Option (Expr × List Token) := do
  let (first, rest) ← literal? ts
  match bound? rest with
  | some (last, rest) => some (.range first last, rest)
  | none => some (first, rest)

/-- Names with commas between them, a closing parenthesis and an arrow. -/
def params? : List Token → Option (List String × List Token)
  | t :: u :: rest =>
    match t.kind with
    | .name s =>
      if u.kind.isMark .comma then (params? rest).map fun (ps, rest) => (s :: ps, rest)
      else if u.kind.isMark .closeParen then
        match rest with
        | v :: rest => if v.kind.isMark .arrow then some ([s], rest) else none
        | [] => none
      else none
    | _ => none
  | _ => none

/-- The head of a lambda behind its opening parenthesis. -/
def head? : List Token → Option (List String × List Token)
  | t :: u :: rest =>
    if t.kind.isMark .closeParen then if u.kind.isMark .arrow then some ([], rest) else none
    else params? (t :: u :: rest)
  | _ => none

/-- Items up to the closing mark, with commas between them and perhaps one behind the last. There
are no more of them than tokens in `fuel`. -/
def items {α : Type} (closing : Mark) (orClosing : String) (item : Rule α) :
    (fuel : List Token) → Rule (List α)
  | [] => fail orClosing
  | _ :: fuel => do
    if ← atMark closing then
      advance
      return []
    else
      let a ← item
      if ← atMark closing then
        advance
        return [a]
      else
        expect .comma orClosing
        return a :: (← items closing orClosing item fuel)

/-- The opening mark, and items of which each has a token of its own. -/
def list {α : Type} (closing : Mark) (orClosing : String) (item : Rule α) : Rule (List α) := do
  let ahead := (← get).tokens
  advance
  items closing orClosing item ahead

def arguments (expr : Rule Expr) : Rule (List Expr) :=
  list .closeParen "',' or ')'" expr

def objectMember (expr : Rule Expr) : Rule (String × Expr) := do
  let name ← match ← peek with
    | .string s => advance; pure s
    | .name s => advance; pure s
    | _ => fail "string or identifier as object key"
  expect .colon "':'"
  return (name, ← expr)

/-- A name alone, the parameter of a lambda, or the function of a call. -/
def named (expr : Rule Expr) (name : String) : Rule Expr := do
  advance
  match ← peek with
  | .mark .arrow =>
    advance
    return .lambda [name] (← expr)
  | .mark .openParen => return .call none name (← arguments expr)
  | _ => return .name name

/-- A lambda with a list of parameters, or an expression of its own. -/
def parenthesised (expr : Rule Expr) : Rule Expr := do
  advance
  let ts ← get
  match head? ts.tokens with
  | some (params, rest) =>
    set { ts with tokens := rest }
    return .lambda params (← expr)
  | none =>
    let e ← expr
    expect .closeParen "')'"
    return e

def atom (expr : Rule Expr) : Rule Expr := do
  let ts ← get
  match numeral? ts.tokens with
  | some (e, rest) =>
    set { ts with tokens := rest }
    return e
  | none =>
    match ts.kind with
    | .string s => advance; return .string s
    | .boolean b => advance; return .boolean b
    | .null => advance; return .null
    | .name s => named expr s
    | .mark .openParen => parenthesised expr
    | .mark .openBracket => return .array (← list .closeBracket "',' or ']'" expr)
    | .mark .openBrace =>
      return .object (← list .closeBrace "',' or '\x7d'" (objectMember expr))
    | _ => fail "expression"

/-- Members, calls and indexes behind an atom. There are no more of them than tokens in `fuel`. -/
def suffixes (expr : Rule Expr) : (fuel : List Token) → Expr → Rule Expr
  | [], e => return e
  | _ :: fuel, e => do
    match ← peek with
    | .mark .dot =>
      advance
      let name ← expectName "member name after '.'"
      if ← atMark .openParen then
        let args ← arguments expr
        suffixes expr fuel (.call (some e) name args)
      else
        suffixes expr fuel (.member e name)
    | .mark .openBracket =>
      advance
      let i ← expr
      expect .closeBracket "']'"
      suffixes expr fuel (.index e i)
    | _ => return e

/-- An atom with its suffixes, each of which starts with a token. -/
def postfixed (expr : Rule Expr) : Rule Expr := do
  let e ← atom expr
  suffixes expr (← get).tokens e

/-- The prefix operator ahead. A minus right before a number is part of the number. -/
def prefixOp? (ts : Input) : Option UnaryOp :=
  match ts.tokens with
  | t :: rest =>
    match t.kind with
    | .mark .not => some .not
    | .mark .minus =>
      match rest with
      | u :: _ => if (number? u.kind).isSome then none else some .negate
      | [] => some .negate
    | _ => none
  | [] => none

/-- A prefix operator with the operand behind it, or an atom with its suffixes. -/
def prefixed (expr operand : Rule Expr) : Rule Expr := do
  match prefixOp? (← get) with
  | some op =>
    advance
    return .unary op (← operand)
  | none => postfixed expr

mutual

/-- An expression with at most `depth` levels, of `limit` altogether. -/
def expression (limit : Nat) : (depth : Nat) → Rule Expr
  | 0 => tooDeep limit
  | depth + 1 =>
    choice (prefixed (expression limit depth) (operand limit depth)) (expression limit depth)

/-- What stands behind a prefix operator. -/
def operand (limit : Nat) : (depth : Nat) → Rule Expr
  | 0 => tooDeep limit
  | depth + 1 => prefixed (expression limit depth) (operand limit depth)

end

/-- An expression and nothing behind it. -/
def whole (limit : Nat) : Rule Expr := do
  let e ← expression limit limit
  match ← peek with
  | .eof => return e
  | _ => fail "end of expression"

/-- The nesting allowed where nothing else is said. -/
def defaultLimit : Nat := 128

end Parser

def parse (tokens : List Token) (limit : Nat) : Except ParseError Expr :=
  (Parser.whole limit).run' (Parser.Input.ofTokens tokens)

end Stencil

import Stencil.Expr.Parser
import Stencil.Proofs.Success

/-!
# What is expected where nothing fits

A rule that finds no token that fits says what it expects. Here these texts are collected, rule by
rule, and no other text is ever reported.
-/

namespace Stencil.Parser

variable {α β : Type}

/-- What an expression expects of the tokens ahead. -/
def expectations : List String :=
  ["expression", "end of expression", "':' in conditional expression", "':'",
    "string or identifier as object key", "member name after '.'", "')'", "']'", "',' or ')'",
    "',' or ']'", "',' or '\x7d'"]

/-- Whatever the rule reports as expected is one of the expectations. -/
def Expects (rule : Rule α) : Prop :=
  ∀ ts position expected found,
    rule.run ts = .error (.unexpected position expected found) → expected ∈ expectations

namespace Expects

/-- A rule that takes whatever is ahead expects nothing. -/
theorem of_ok {rule : Rule α} (h : ∀ ts, ∃ p, rule.run ts = .ok p) : Expects rule := by
  intro ts position expected found herror
  obtain ⟨p, hp⟩ := h ts
  cases hp.symm.trans herror

theorem pure (a : α) : Expects (pure a : Rule α) :=
  of_ok fun ts => ⟨(a, ts), rfl⟩

theorem get : Expects (MonadState.get : Rule Input) :=
  of_ok fun ts => ⟨(ts, ts), rfl⟩

theorem set (ts : Input) : Expects (MonadStateOf.set ts : Rule PUnit) :=
  of_ok fun _ => ⟨(⟨⟩, ts), rfl⟩

theorem peek : Expects Parser.peek :=
  of_ok fun ts => ⟨(ts.kind, ts), rfl⟩

theorem atMark (m : Mark) : Expects (Parser.atMark m) :=
  of_ok fun ts => ⟨(ts.kind.isMark m, ts), rfl⟩

theorem advance : Expects Parser.advance :=
  of_ok fun ts => ⟨((), ts.tail), rfl⟩

theorem fail {expected : String} (h : expected ∈ expectations) :
    Expects (Parser.fail expected : Rule α) := by
  rintro ts position _ found ⟨rfl⟩
  exact h

theorem tooDeep (limit : Nat) : Expects (Parser.tooDeep limit : Rule α) := by
  intro ts position expected found h
  cases h

theorem bind {x : Rule α} {f : α → Rule β} (hx : Expects x) (hf : ∀ a, Expects (f a)) :
    Expects (x >>= f) := by
  intro ts position expected found h
  rw [StateT.run_bind, bind_eq_error] at h
  rcases h with h | ⟨p, -, h⟩
  · exact hx ts position expected found h
  · exact hf p.1 p.2 position expected found h

theorem map {x : Rule α} (f : α → β) (hx : Expects x) : Expects (do return f (← x)) :=
  hx.bind fun a => .pure (f a)

theorem expect (m : Mark) {expected : String} (h : expected ∈ expectations) :
    Expects (Parser.expect m expected) := by
  refine .bind (.atMark m) fun found => ?_
  split
  · exact .advance
  · exact .fail h

theorem expectName {expected : String} (h : expected ∈ expectations) :
    Expects (Parser.expectName expected) := by
  refine .bind .peek fun k => ?_
  split
  · exact .bind .advance fun _ => .pure _
  · exact .fail h

variable {expr operand branch : Rule Expr}

theorem operator? (level : Level) : Expects (Parser.operator? level) := by
  refine .bind .peek fun k => ?_
  split <;> exact .pure _

theorem chain {level : Level} (h : Expects operand) (fuel : List Token) (left : Expr) :
    Expects (Parser.chain level operand fuel left) := by
  induction fuel generalizing left with
  | nil => exact .pure left
  | cons t fuel ih =>
    refine .bind (.operator? level) fun op => ?_
    split
    · exact .pure left
    · exact .bind .advance fun _ => .bind h fun right => ih _

theorem leftAssoc {level : Level} (h : Expects operand) :
    Expects (Parser.leftAssoc level operand) :=
  .bind h fun left => .bind .get fun ts => .chain h ts.tokens left

theorem rangeOf (h : Expects operand) : Expects (Parser.rangeOf operand) := by
  refine .bind h fun first => .bind (.atMark .range) fun found => ?_
  split
  · exact .bind .advance fun _ => .map _ h
  · exact .pure first

theorem operation (h : Expects operand) : Expects (Parser.operation operand) :=
  .leftAssoc <| .leftAssoc <| .leftAssoc <| .leftAssoc <| .rangeOf <| .leftAssoc <| .leftAssoc h

theorem choice (hoperand : Expects operand) (hbranch : Expects branch) :
    Expects (Parser.choice operand branch) := by
  refine .bind (.operation hoperand) fun test => .bind (.atMark .question) fun found => ?_
  split
  · refine .bind .advance fun _ => .bind hbranch fun yes => ?_
    exact .bind (.expect .colon (by decide)) fun _ => .map _ hbranch
  · exact .pure test

theorem items {item : Rule α} {closing : Mark} {orClosing : String} (h : Expects item)
    (horClosing : orClosing ∈ expectations) (fuel : List Token) :
    Expects (Parser.items closing orClosing item fuel) := by
  induction fuel with
  | nil => exact .fail horClosing
  | cons t fuel ih =>
    refine .bind (.atMark closing) fun found => ?_
    split
    · exact .bind .advance fun _ => .pure []
    · refine .bind h fun a => .bind (.atMark closing) fun found => ?_
      split
      · exact .bind .advance fun _ => .pure [a]
      · exact .bind (.expect .comma horClosing) fun _ => .map _ ih

theorem list {item : Rule α} {closing : Mark} {orClosing : String} (h : Expects item)
    (horClosing : orClosing ∈ expectations) : Expects (Parser.list closing orClosing item) :=
  .bind .get fun ts => .bind .advance fun _ => .items h horClosing ts.tokens

theorem arguments (h : Expects expr) : Expects (Parser.arguments expr) :=
  .list h (by decide)

theorem objectMember (h : Expects expr) : Expects (Parser.objectMember expr) := by
  have hvalue (name : String) : Expects (do Parser.expect .colon "':'"; return (name, ← expr)) :=
    .bind (.expect .colon (by decide)) fun _ => .map _ h
  refine .bind .peek fun k => ?_
  dsimp only
  split
  · exact .bind .advance fun _ => hvalue _
  · exact .bind .advance fun _ => hvalue _
  · exact .bind (.fail (by decide)) hvalue

theorem named (h : Expects expr) (name : String) : Expects (Parser.named expr name) := by
  refine .bind .advance fun _ => .bind .peek fun k => ?_
  split
  · exact .bind .advance fun _ => .map _ h
  · exact .map _ (.arguments h)
  · exact .pure _

theorem parenthesised (h : Expects expr) : Expects (Parser.parenthesised expr) := by
  refine .bind .advance fun _ => .bind .get fun ts => ?_
  split
  · exact .bind (.set _) fun _ => .map _ h
  · exact .bind h fun e => .bind (.expect .closeParen (by decide)) fun _ => .pure e

theorem atom (h : Expects expr) : Expects (Parser.atom expr) := by
  refine .bind .get fun ts => ?_
  split
  · exact .bind (.set _) fun _ => .pure _
  · split
    case h_1 => exact .bind .advance fun _ => .pure _
    case h_2 => exact .bind .advance fun _ => .pure _
    case h_3 => exact .bind .advance fun _ => .pure _
    case h_4 => exact .named h _
    case h_5 => exact .parenthesised h
    case h_6 => exact .map _ (.list h (by decide))
    case h_7 => exact .map _ (.list (.objectMember h) (by decide))
    case h_8 => exact .fail (by decide)

theorem suffixes (h : Expects expr) (fuel : List Token) (e : Expr) :
    Expects (Parser.suffixes expr fuel e) := by
  induction fuel generalizing e with
  | nil => exact .pure e
  | cons t fuel ih =>
    refine .bind .peek fun k => ?_
    split
    · refine .bind .advance fun _ => .bind (.expectName (by decide)) fun name => ?_
      refine .bind (.atMark .openParen) fun found => ?_
      split
      · exact .bind (.arguments h) fun args => ih _
      · exact ih _
    · refine .bind .advance fun _ => .bind h fun i => ?_
      exact .bind (.expect .closeBracket (by decide)) fun _ => ih _
    · exact .pure e

theorem postfixed (h : Expects expr) : Expects (Parser.postfixed expr) :=
  .bind (.atom h) fun e => .bind .get fun ts => .suffixes h ts.tokens e

theorem prefixed (hexpr : Expects expr) (hoperand : Expects operand) :
    Expects (Parser.prefixed expr operand) := by
  refine .bind .get fun ts => ?_
  split
  · exact .bind .advance fun _ => .map _ hoperand
  · exact .postfixed hexpr

theorem expression (limit depth : Nat) :
    Expects (Parser.expression limit depth) ∧ Expects (Parser.operand limit depth) := by
  induction depth with
  | zero => exact ⟨.tooDeep limit, .tooDeep limit⟩
  | succ depth ih =>
    have hprefixed := Expects.prefixed ih.1 ih.2
    exact ⟨.choice hprefixed ih.1, hprefixed⟩

theorem whole (limit : Nat) : Expects (Parser.whole limit) := by
  refine .bind (Expects.expression limit limit).1 fun e => .bind .peek fun k => ?_
  split
  · exact .pure e
  · exact .fail (by decide)

end Expects

theorem mem_expectations_of_parse {tokens : List Token} {limit position : Nat}
    {expected found : String}
    (h : parse tokens limit = .error (.unexpected position expected found)) :
    expected ∈ expectations :=
  Expects.whole limit (.ofTokens tokens) position expected found (map_eq_error.mp h)

end Stencil.Parser

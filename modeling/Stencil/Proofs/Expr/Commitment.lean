import Stencil.Proofs.Eval.Arithmetic
import Stencil.Proofs.Expr.Expectations
import Stencil.Proofs.Expr.Lexing
import Stencil.Proofs.Expr.Offsets

/-!
# Committed rules

A parser that looks ahead by offsets takes nothing while it decides, and then reads what it has
decided for once more, with rules that could fail. They never do. Whatever is reported in place of
their failures, it parses as the rules do that look and take in one go.
-/

namespace Stencil

theorem Lexeme.ofWord_ne_integer (word : String) (n : Int64) : ofWord word ≠ .integer n := by
  unfold ofWord
  repeat' split
  all_goals simp

theorem Lexeme.toInt_nonneg_of_scan {c : Char} {cs : List Char} {t : Taken} {n : Int64}
    (h : scan c cs = .ok t) (hn : t.kind = .integer n) : 0 ≤ n.toInt := by
  obtain ⟨m, hm, -⟩ | ⟨-, q, -, rfl⟩ | ⟨-, word, -, hword, -⟩ | ⟨-, hnumber⟩ := scan_eq_ok h
  · cases hm.symm.trans hn
  · cases hn
  · exact absurd (hword.symm.trans hn) (ofWord_ne_integer _ n)
  · obtain ⟨m, -, hm, hkind⟩ | ⟨whole, d, fraction, -, -, -, hkind⟩ := scanNumber_eq_ok hnumber
    · obtain rfl : m = n := by simpa [hkind] using hn
      rw [int64?_eq_some_iff.mp hm]
      exact Int.natCast_nonneg _
    · cases hkind.symm.trans hn

/-- The integers of a source have no sign of their own. -/
theorem TakenFrom.toInt_nonneg {start : Nat} {cs : List Char} {ts : List Token}
    (h : TakenFrom start cs ts) {t : Token} (ht : t ∈ ts) {n : Int64} (hn : t.kind = .integer n) :
    0 ≤ n.toInt := by
  induction h with
  | finish =>
    obtain rfl := List.mem_singleton.mp ht
    cases hn
  | token _ _ hscan _ ih =>
    rcases List.mem_cons.mp ht with rfl | ht
    · exact Lexeme.toInt_nonneg_of_scan hscan hn
    · exact ih ht

theorem toInt_neg_of_nonneg {n : Int64} (h : 0 ≤ n.toInt) : (-n).toInt = -n.toInt := by
  have := n.toInt_lt
  rw [Int64.toInt_neg]
  exact Int.bmod_eq_of_le (by omega) (by omega)

namespace Parser

open Grammar

/-- A number without a sign. -/
def plainNumber : Rule Expr := do
  match number? (← peek) with
  | some e => advance; return e
  | none => fail "number"

/-- A number, to which a minus right before it belongs. -/
def numberLiteral : Rule Expr := do
  if ← atMark .minus then
    advance
    return negated (← plainNumber)
  else plainNumber

/-- A range with this first bound, or the bound alone. -/
def literalRange (number : Rule Expr) (first : Expr) : Rule Expr := do
  if (← get).commitsToRange then
    advance
    return .range first (← number)
  else return first

/-- The parameters of a lambda, with the arrow behind them. Each of them has a token of its own. -/
def lambdaHead : Rule (List String) := do
  let ahead := (← get).tokens
  expect .openParen "'('"
  let names ← items .closeParen "',' or ')'" (expectName "lambda parameter name") ahead
  expect .arrow "'=>'"
  return names

/-- A rule with `report` of a failure in place of that. -/
def reporting {α : Type} (report : ParseError → ParseError) (rule : Rule α) : Rule α := fun ts =>
  (rule.run ts).mapError report

section

variable (report : ParseError → ParseError) (expr : Rule Expr)

def committedAtom : Rule Expr := do
  let ts ← get
  match ts.kind with
  | .integer _ | .float _ | .mark .minus =>
    literalRange (reporting report numberLiteral) (← reporting report numberLiteral)
  | .mark .openParen =>
    if ts.isParameterList then
      return .lambda (← reporting report lambdaHead) (← expr)
    else
      advance
      let e ← expr
      expect .closeParen "')'"
      return e
  | _ => atom expr

def committedPostfixed : Rule Expr := do
  let e ← committedAtom report expr
  suffixes expr (← get).tokens e

def committedPrefixed (operand : Rule Expr) : Rule Expr := do
  let ts ← get
  match ts.kind with
  | .mark .not =>
    advance
    return .unary .not (← operand)
  | .mark .minus =>
    if isNumber (ts.kindAt 1) then committedPostfixed report expr
    else
      advance
      return .unary .negate (← operand)
  | _ => committedPostfixed report expr

end

mutual

def committedExpression (report : ParseError → ParseError) (limit : Nat) : (depth : Nat) → Rule Expr
  | 0 => tooDeep limit
  | depth + 1 =>
    choice (committedPrefixed report (committedExpression report limit depth)
      (committedOperand report limit depth)) (committedExpression report limit depth)

def committedOperand (report : ParseError → ParseError) (limit : Nat) : (depth : Nat) → Rule Expr
  | 0 => tooDeep limit
  | depth + 1 =>
    committedPrefixed report (committedExpression report limit depth)
      (committedOperand report limit depth)

end

def committedWhole (report : ParseError → ParseError) (limit : Nat) : Rule Expr := do
  let e ← committedExpression report limit limit
  match ← peek with
  | .eof => return e
  | _ => fail "end of expression"

/-- Parsing with committed rules, and `report` in place of their failures. -/
def committedParse (report : ParseError → ParseError) (tokens : List Token) (limit : Nat) :
    Except ParseError Expr :=
  (committedWhole report limit).run' (.ofTokens tokens)

theorem run_bind_of_ok {α β : Type} {x : Rule α} {f : α → Rule β} {a : α} {ts ts' : Input}
    (h : x.run ts = .ok (a, ts')) : (x >>= f).run ts = (f a).run ts' := by
  rw [StateT.run_bind, h]
  rfl

theorem run_items_of_name {orClosing expected name : String} (ts : Input)
    (h : ts.kind = .name name) (f : Token) (fuel : List Token) :
    (items .closeParen orClosing (expectName expected) (f :: fuel)).run ts =
      if ts.tail.kind.isMark .closeParen then .ok ([name], ts.tail.tail)
      else (do
        expect .comma orClosing
        return name :: (← items .closeParen orClosing (expectName expected) fuel)).run ts.tail := by
  have hnot : ¬ ts.kind.isMark .closeParen := by
    simp [h, Token.Kind.isMark]
  have hname : (expectName expected).run ts = .ok (name, ts.tail) := by
    rw [expectName, run_peek_bind, h]
    rfl
  rw [items, run_atMark_bind, if_neg hnot, run_bind_of_ok hname, run_atMark_bind]
  split <;> rfl

/-- Parameters are read up to the parenthesis behind them. -/
theorem run_items_of_kinds {orClosing expected : String} {names : List String}
    {taken rest fuel : List Token} {finish : Nat}
    (h : kindsOf taken = parameters names ++ [.mark .closeParen])
    (hfuel : taken.length ≤ fuel.length) :
    (items .closeParen orClosing (expectName expected) fuel).run ⟨taken ++ rest, finish⟩ =
      .ok (names, ⟨rest, finish⟩) := by
  -- Each name uses one token of `fuel` up, and has at least itself and what follows it in `taken`.
  induction names generalizing taken fuel with
  | nil =>
    obtain ⟨t, _, rfl, ht, h⟩ := List.map_eq_cons_iff.mp h
    obtain rfl := List.map_eq_nil_iff.mp h
    obtain ⟨f, fuel, rfl⟩ := List.exists_cons_of_length_pos hfuel
    have hclosing : (Input.kind ⟨[t] ++ rest, finish⟩).isMark .closeParen := isMark_iff.mpr ht
    rw [items, run_atMark_bind, if_pos hclosing]
    rfl
  | cons name names ih =>
    have hpos : 0 < fuel.length := by
      have hlength := congrArg List.length h
      simp only [List.length_map, List.length_append, List.length_singleton] at hlength
      omega
    obtain ⟨f, fuel, rfl⟩ := List.exists_cons_of_length_pos hpos
    cases names with
    | nil =>
      obtain ⟨t, _, rfl, ht, h⟩ := List.map_eq_cons_iff.mp h
      obtain ⟨u, _, rfl, hu, h⟩ := List.map_eq_cons_iff.mp h
      obtain rfl := List.map_eq_nil_iff.mp h
      have hclosing : (Input.tail ⟨[t, u] ++ rest, finish⟩).kind.isMark .closeParen :=
        isMark_iff.mpr hu
      rw [run_items_of_name ⟨[t, u] ++ rest, finish⟩ ht, if_pos hclosing]
      rfl
    | cons next names =>
      rw [parameters_cons name (List.cons_ne_nil _ _)] at h
      obtain ⟨t, _, rfl, ht, h⟩ := List.map_eq_cons_iff.mp h
      obtain ⟨u, taken, rfl, hu, h⟩ := List.map_eq_cons_iff.mp h
      have hcomma : ¬ (Input.tail ⟨t :: u :: taken ++ rest, finish⟩).kind.isMark .closeParen := by
        rw [show (Input.tail ⟨t :: u :: taken ++ rest, finish⟩).kind = .mark .comma from hu]
        decide
      have hlength : taken.length ≤ fuel.length := by
        simp only [List.length_cons] at hfuel
        omega
      rw [run_items_of_name ⟨t :: u :: taken ++ rest, finish⟩ ht, if_neg hcomma]
      exact run_expect_bind_eq_ok.mpr ⟨hu, run_map_eq_ok.mpr ⟨_, ih h hlength, rfl⟩⟩

theorem run_lambdaHead {ts : Input} {names : List String} {rest : List Token}
    (h : ts.HasHead names rest) : lambdaHead.run ts = .ok (names, { ts with tokens := rest }) := by
  obtain ⟨tokens, finish⟩ := ts
  obtain ⟨taken, rfl, hkinds⟩ := h
  obtain ⟨t, taken, rfl, ht, hkinds⟩ := List.map_eq_cons_iff.mp hkinds
  replace hkinds : kindsOf taken = parameters names ++ [.mark .closeParen] ++ [.mark .arrow] :=
    hkinds.trans (List.append_cons ..)
  obtain ⟨listed, closing, rfl, hlisted, hclosing⟩ := List.map_eq_append_iff.mp hkinds
  obtain ⟨u, _, rfl, hu, hnil⟩ := List.map_eq_cons_iff.mp hclosing
  obtain rfl := List.map_eq_nil_iff.mp hnil
  have hitems : (items .closeParen "',' or ')'" (expectName "lambda parameter name")
      (t :: (listed ++ [u]) ++ rest)).run ⟨listed ++ (u :: rest), finish⟩ =
      .ok (names, ⟨u :: rest, finish⟩) :=
    run_items_of_kinds hlisted (by simp only [List.length_append, List.length_cons]; omega)
  have htail : Input.tail ⟨t :: (listed ++ [u]) ++ rest, finish⟩ =
      ⟨listed ++ (u :: rest), finish⟩ := by
    simp [Input.tail]
  rw [lambdaHead, run_get_bind]
  refine run_expect_bind_eq_ok.mpr ⟨ht, ?_⟩
  rw [htail, run_bind_of_ok hitems]
  exact run_expect_bind_eq_ok.mpr ⟨hu, rfl⟩

theorem run_plainNumber {ts : Input} {e : Expr} (h : number? ts.kind = some e) :
    plainNumber.run ts = .ok (e, ts.tail) := by
  rw [plainNumber, run_peek_bind, h]
  rfl

theorem run_numberLiteral_of_minus (ts : Input) (h : ts.kind = .mark .minus) :
    numberLiteral.run ts = (do return negated (← plainNumber)).run ts.tail := by
  rw [numberLiteral, run_atMark_bind, if_pos (isMark_iff.mpr h), run_advance_bind]

theorem run_numberLiteral {ts : Input} {e : Expr} {rest : List Token}
    (h : literal? ts.tokens = some (e, rest)) :
    numberLiteral.run ts = .ok (e, { ts with tokens := rest }) := by
  obtain ⟨_ | ⟨t, tokens⟩, finish⟩ := ts
  · cases h
  · by_cases ht : t.kind = .mark .minus
    · rw [run_numberLiteral_of_minus ⟨t :: tokens, finish⟩ ht]
      cases tokens with
      | nil => simp [literal?, ht] at h
      | cons u tokens =>
        rw [literal?_minus ht, Option.map_eq_some_iff] at h
        obtain ⟨e, hu, heq⟩ := h
        obtain ⟨rfl, rfl⟩ := Prod.mk.inj heq
        exact run_map_eq_ok.mpr ⟨e, run_plainNumber hu, rfl⟩
    · rw [literal?_of_ne_minus ht, Option.map_eq_some_iff] at h
      obtain ⟨e, hu, heq⟩ := h
      obtain ⟨rfl, rfl⟩ := Prod.mk.inj heq
      have hminus : ¬ (Input.kind ⟨t :: tokens, finish⟩).isMark .minus := mt isMark_iff.mp ht
      rw [numberLiteral, run_atMark_bind, if_neg hminus]
      exact run_plainNumber hu

/-- The sign of an integer that has none yet is changed without a wrap. -/
theorem run_numberLiteral_of_integer {ts : Input} {n : Int64} (hminus : ts.kind = .mark .minus)
    (hkind : ts.kindAt 1 = .integer n) (hn : 0 ≤ n.toInt) :
    ∃ m, numberLiteral.run ts = .ok (.integer m, ts.tail.tail) ∧ m.toInt = -n.toInt := by
  rw [Input.kindAt_one] at hkind
  refine ⟨-n, ?_, toInt_neg_of_nonneg hn⟩
  rw [run_numberLiteral_of_minus ts hminus]
  exact run_map_eq_ok.mpr ⟨.integer n, run_plainNumber (by rw [hkind]; rfl), rfl⟩

theorem literal?_of_bound? (ts : Input) {last : Expr} {rest : List Token}
    (h : bound? ts.tokens = some (last, rest)) : literal? ts.tail.tokens = some (last, rest) := by
  obtain ⟨t, taken, htokens, -, hliteral, -⟩ := bound?_eq_some_iff.mp h
  refine literal?_eq_some_iff.mpr ⟨taken, ?_, hliteral⟩
  rw [Input.tail, htokens]
  rfl

/-- The second bound of a range that is decided for is a number. -/
theorem exists_run_numberLiteral {ts : Input} (h : ts.commitsToRange) :
    ∃ last ts', numberLiteral.run ts.tail = .ok (last, ts') := by
  rw [Input.commitsToRange_eq, Option.isSome_iff_exists] at h
  obtain ⟨⟨last, rest⟩, hbound⟩ := h
  exact ⟨last, _, run_numberLiteral (literal?_of_bound? ts hbound)⟩

theorem run_literalRange {number : Rule Expr} {ts ts' : Input} {last : Expr}
    (h : ts.commitsToRange) (hnumber : number.run ts.tail = .ok (last, ts')) (first : Expr) :
    (literalRange number first).run ts = .ok (.range first last, ts') := by
  rw [literalRange, run_get_bind, if_pos h, run_advance_bind]
  exact run_map_eq_ok.mpr ⟨last, hnumber, rfl⟩

theorem run_literalRange_of_not {number : Rule Expr} {ts : Input} (h : ¬ ts.commitsToRange)
    (first : Expr) : (literalRange number first).run ts = .ok (first, ts) := by
  rw [literalRange, run_get_bind, if_neg h]
  rfl

section

variable {report : ParseError → ParseError} {expr operand : Rule Expr} {ts : Input}

theorem run_reporting_of_ok {α : Type} {rule : Rule α} {ts' : Input} {a : α}
    (h : rule.run ts = .ok (a, ts')) : (reporting report rule).run ts = .ok (a, ts') :=
  mapError_eq_ok.mpr h

theorem run_committedNumber (h : ∃ e rest, literal? ts.tokens = some (e, rest)) :
    (do literalRange (reporting report numberLiteral) (← reporting report numberLiteral)).run ts =
      (atom expr).run ts := by
  obtain ⟨e, rest, h⟩ := h
  have hfirst : (reporting report numberLiteral).run ts = .ok (e, { ts with tokens := rest }) :=
    run_reporting_of_ok (run_numberLiteral h)
  rw [run_bind_of_ok hfirst, atom, run_get_bind, numeral?, h, Option.bind_eq_bind, Option.bind_some]
  dsimp only
  have hcommits := Input.commitsToRange_eq { ts with tokens := rest }
  cases hbound : bound? rest with
  | none =>
    rw [hbound] at hcommits
    exact run_literalRange_of_not (Bool.eq_false_iff.mp hcommits) e
  | some p =>
    rw [hbound] at hcommits
    have hnumber := run_numberLiteral (literal?_of_bound? { ts with tokens := rest } hbound)
    exact run_literalRange hcommits (run_reporting_of_ok hnumber) e

theorem run_atom_of_open (h : ts.kind = .mark .openParen) :
    (atom expr).run ts = (parenthesised expr).run ts := by
  rw [atom, run_get_bind, numeral?, Input.literal?_of_open h]
  dsimp only [Option.bind_eq_bind, Option.bind_none]
  rw [h]

theorem run_committedParenthesised (h : ts.kind = .mark .openParen) :
    (if ts.isParameterList then do return Expr.lambda (← reporting report lambdaHead) (← expr)
    else do
      advance
      let e ← expr
      expect .closeParen "')'"
      return e : Rule Expr).run ts = (parenthesised expr).run ts := by
  rw [parenthesised, run_advance_bind, run_get_bind]
  cases hhead : head? ts.tail.tokens with
  | none =>
    have hlist : ¬ ts.isParameterList := by simp [Input.isParameterList_eq, hhead]
    rw [if_neg hlist]
    rfl
  | some p =>
    obtain ⟨names, rest⟩ := p
    have hlist : ts.isParameterList := by simp [Input.isParameterList_eq, hhead]
    have hrun := run_lambdaHead ((Input.hasHead_iff h).mpr hhead)
    rw [if_pos hlist, run_bind_of_ok (run_reporting_of_ok hrun)]
    rfl

theorem run_committedAtom (hminus : ts.kind = .mark .minus → isNumber ts.tail.kind) :
    (committedAtom report expr).run ts = (atom expr).run ts := by
  rw [committedAtom, run_get_bind]
  split
  · rename_i hkind
    exact run_committedNumber (Input.literal?_of_number (by rw [hkind]; rfl))
  · rename_i hkind
    exact run_committedNumber (Input.literal?_of_number (by rw [hkind]; rfl))
  · rename_i hkind
    exact run_committedNumber (Input.literal?_of_minus hkind (hminus hkind))
  · rename_i hkind
    rw [run_atom_of_open hkind]
    exact run_committedParenthesised hkind
  · rfl

theorem run_committedPostfixed (hminus : ts.kind = .mark .minus → isNumber ts.tail.kind) :
    (committedPostfixed report expr).run ts = (postfixed expr).run ts := by
  rw [committedPostfixed, postfixed, StateT.run_bind, run_committedAtom hminus]
  rfl

theorem committedPrefixed_eq : committedPrefixed report expr operand = prefixed expr operand := by
  funext ts
  show (committedPrefixed report expr operand).run ts = (prefixed expr operand).run ts
  rw [committedPrefixed, prefixed, run_get_bind, run_get_bind]
  split
  · rename_i hkind
    rw [Input.prefixOp?_eq, hkind]
  · rename_i hkind
    rw [Input.prefixOp?_eq, hkind]
    split
    · rename_i hnumber
      exact run_committedPostfixed fun _ => ts.kindAt_one ▸ hnumber
    · rfl
  · rename_i hnot hminus
    have hnone : prefixOp? ts = none := by
      rw [Input.prefixOp?_eq]
      split
      · exact absurd ‹_› hnot
      · exact absurd ‹_› hminus
      · rfl
    rw [hnone]
    exact run_committedPostfixed fun hkind => absurd hkind hminus

theorem committedExpression_eq (limit depth : Nat) :
    committedExpression report limit depth = expression limit depth ∧
      committedOperand report limit depth = Parser.operand limit depth := by
  induction depth with
  | zero => exact ⟨rfl, rfl⟩
  | succ depth ih =>
    simp only [committedExpression, committedOperand, expression, Parser.operand, ih.1, ih.2,
      committedPrefixed_eq, and_self]

end

theorem committedParse_eq (report : ParseError → ParseError) (tokens : List Token) (limit : Nat) :
    committedParse report tokens limit = parse tokens limit := by
  rw [committedParse, committedWhole, (committedExpression_eq limit limit).1]
  rfl

theorem notMem_of_mem_expectations {expected : String} (h : expected ∈ expectations) :
    expected ∉ ["number", "'('", "lambda parameter name", "'=>'"] := by
  have hall : ∀ expected ∈ expectations,
      expected ∉ ["number", "'('", "lambda parameter name", "'=>'"] := by decide
  exact hall expected h

/-- What the parser decides for by looking ahead is what it then reads. A parenthesis is taken for
the head of a lambda exactly where one is, and all of it is read, up to the body. Where a range is
decided for, its second bound is read. The failures of these rules are never reported, and no
integer of a source wraps around when its sign is changed. -/
theorem committed_rules_read :
    (∀ ts : Input, ts.kind = .mark .openParen →
      (ts.isParameterList ↔ ∃ names rest, ts.HasHead names rest) ∧
      ∀ names rest, ts.HasHead names rest →
        lambdaHead.run ts = .ok (names, { ts with tokens := rest })) ∧
    (∀ ts : Input, ts.commitsToRange → ∀ first, ∃ last ts',
      numberLiteral.run ts.tail = .ok (last, ts') ∧
        (literalRange numberLiteral first).run ts = .ok (.range first last, ts')) ∧
    (∀ tokens limit,
      (∀ report, committedParse report tokens limit = parse tokens limit) ∧
      ∀ position expected found,
        parse tokens limit = .error (.unexpected position expected found) →
          expected ∉ ["number", "'('", "lambda parameter name", "'=>'"]) ∧
    ∀ source tokens, tokenize source = .ok tokens → ∀ ts : Input, ts.tokens ⊆ tokens →
      ∀ n, ts.kind = .mark .minus → ts.kindAt 1 = .integer n →
        ∃ m, numberLiteral.run ts = .ok (.integer m, ts.tail.tail) ∧ m.toInt = -n.toInt := by
  refine ⟨fun ts hopen => ⟨Input.isParameterList_iff hopen, fun _ _ => run_lambdaHead⟩, ?_, ?_, ?_⟩
  · intro ts hcommits first
    obtain ⟨last, ts', hnumber⟩ := exists_run_numberLiteral hcommits
    exact ⟨last, ts', hnumber, run_literalRange hcommits hnumber first⟩
  · intro tokens limit
    refine ⟨fun report => committedParse_eq report tokens limit, ?_⟩
    intro position expected found h
    exact notMem_of_mem_expectations (mem_expectations_of_parse h)
  · intro source tokens htokens ts hts n hminus hkind
    obtain ⟨t, hdrop, ht⟩ := Input.exists_drop_of_kindAt hkind (by simp)
    have hmem : t ∈ ts.tokens := List.mem_of_mem_drop (hdrop ▸ List.mem_cons_self)
    have hn := (tokenize_eq_ok_iff.mp htokens).toInt_nonneg (hts hmem) ht
    exact run_numberLiteral_of_integer hminus hkind hn

/-- A lambda with two parameters, and a range that a member is taken of. -/
def headedSource : String :=
  "(a, b) => 1..-3.x"

def boundTokens : List Token :=
  [⟨.mark .range, "..", 11⟩, ⟨.mark .minus, "-", 13⟩, ⟨.integer 3, "3", 14⟩, ⟨.mark .dot, ".", 15⟩,
    ⟨.name "x", "x", 16⟩]

def bodyTokens : List Token :=
  ⟨.integer 1, "1", 10⟩ :: boundTokens

def headTokens : List Token :=
  [⟨.mark .openParen, "(", 0⟩, ⟨.name "a", "a", 1⟩, ⟨.mark .comma, ",", 2⟩, ⟨.name "b", "b", 4⟩,
    ⟨.mark .closeParen, ")", 5⟩, ⟨.mark .arrow, "=>", 7⟩]

theorem tokenize_headedSource :
    tokenize headedSource = .ok (headTokens ++ bodyTokens ++ [⟨.eof, "", 17⟩]) := by
  cbv

theorem committed_rules_read_headedSource :
    lambdaHead.run ⟨headTokens ++ bodyTokens, 17⟩ = .ok (["a", "b"], ⟨bodyTokens, 17⟩) ∧
      (∃ last ts', numberLiteral.run ⟨boundTokens.tail, 17⟩ = .ok (last, ts') ∧
        (literalRange numberLiteral (.integer 1)).run ⟨boundTokens, 17⟩ =
          .ok (.range (.integer 1) last, ts')) ∧
      ∃ m, numberLiteral.run ⟨boundTokens.tail, 17⟩ =
        .ok (.integer m, ⟨boundTokens.drop 3, 17⟩) ∧ m.toInt = -3 := by
  obtain ⟨hheads, hranges, -, hintegers⟩ := committed_rules_read
  have hopen : Input.kind ⟨headTokens ++ bodyTokens, 17⟩ = .mark .openParen := rfl
  have hhead : Input.HasHead ⟨headTokens ++ bodyTokens, 17⟩ ["a", "b"] bodyTokens :=
    ⟨headTokens, rfl, rfl⟩
  have hcommits : Input.commitsToRange ⟨boundTokens, 17⟩ := rfl
  have hsubset : boundTokens.tail ⊆ headTokens ++ bodyTokens ++ [⟨.eof, "", 17⟩] := by
    intro t ht
    exact List.mem_append_left _ (List.mem_append_right _ (.tail _ (List.mem_of_mem_tail ht)))
  exact ⟨(hheads _ hopen).2 _ _ hhead, hranges _ hcommits (.integer 1),
    hintegers _ _ tokenize_headedSource ⟨boundTokens.tail, 17⟩ hsubset 3 rfl rfl⟩

end Parser

end Stencil

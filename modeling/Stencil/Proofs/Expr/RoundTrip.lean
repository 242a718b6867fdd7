import Stencil.Proofs.Expr.Acceptance
import Stencil.Proofs.Number.Negation

/-!
# Written expressions are read back

Every expression in parentheses is accepted as an operand, and every row as an expression, whatever
closes it.
-/

namespace Stencil

open Grammar

namespace Parser

section

variable {expr operand : Rule Expr} {rest : Word} {e : Expr}

theorem head?_eq_none {ts : List Token} (h : kindsOf ts = e.rendering ++ .mark .closeParen :: rest)
    (harrow : ahead rest ≠ .mark .arrow) : head? ts = none := by
  rw [Option.eq_none_iff_forall_ne_some]
  rintro ⟨names, tokens⟩ hhead
  obtain ⟨taken, rfl, htaken⟩ := head?_eq_some_iff.mp hhead
  replace h : parameters names ++ [.mark .closeParen, .mark .arrow] ++ kindsOf tokens =
      e.rendering ++ .mark .closeParen :: rest := by
    rw [← h, ← htaken, ← List.map_append]
  -- the first two kinds tell the head of a lambda from a row, unless an arrow follows a name
  match names with
  | [] =>
    rcases e.rendering_shape with ⟨s, hshape⟩ | ⟨s, w, hshape⟩ | ⟨k, w, hshape, hk, -⟩ <;>
      rw [hshape] at h
    · simp [parameters] at h
    · simp [parameters] at h
    · exact hk (List.cons.inj h).1.symm
  | [name] =>
    rcases e.rendering_shape with ⟨s, hshape⟩ | ⟨s, w, hshape⟩ | ⟨k, w, hshape, -, hname⟩ <;>
      rw [hshape] at h
    · simp only [parameters, List.map_cons, List.map_nil, List.intercalate_singleton,
        List.cons_append, List.nil_append, List.cons.injEq, true_and] at h
      exact harrow (h.2 ▸ rfl)
    · simp [parameters] at h
    · exact hname name (List.cons.inj h).1.symm
  | name :: next :: names =>
    rw [parameters_cons name (List.cons_ne_nil _ _)] at h
    rcases e.rendering_shape with ⟨s, hshape⟩ | ⟨s, w, hshape⟩ | ⟨k, w, hshape, -, hname⟩ <;>
      rw [hshape] at h
    · simp at h
    · simp at h
    · exact hname name (List.cons.inj h).1.symm

theorem mark_ne {m m' : Mark} (h : m ≠ m') : Token.Kind.mark m ≠ .mark m' :=
  fun heq => h (Token.Kind.mark.inj heq)

theorem not_startsInNumber_enclosed {w : Word} :
    ¬ StartsInNumber (Stencil.enclosed w ++ rest) := by
  simp [StartsInNumber, Stencil.enclosed, isNumber]

/-- Whether a prefix operator starts with this. -/
def startsPrefix (k : Token.Kind) : Bool :=
  k.isMark .not || k.isMark .minus

/-- What starts with no prefix operator is an operand as it is. -/
theorem Accepts.plain (h : Accepts (Parser.postfixed expr) w e rest)
    (hstart : startsPrefix (ahead (w ++ rest)) = false) :
    Accepts (prefixed expr operand) w e rest := by
  obtain ⟨hnot, hminus⟩ := Bool.or_eq_false_iff.mp hstart
  refine h.bare (fun heq => ?_) fun heq => ?_
  · rw [isMark_iff.mpr heq] at hnot
    cases hnot
  · rw [isMark_iff.mpr heq] at hminus
    cases hminus

theorem Accepts.enclosed (h : Accepts expr e.rendering e (.mark .closeParen :: rest))
    (harrow : ahead rest ≠ .mark .arrow) : Accepts (atom expr) (enclosed e.rendering) e rest :=
  .group h fun _ hts => head?_eq_none hts harrow

/-- An expression in parentheses is an operand of any operator. -/
theorem Accepts.enclosedOperand (h : Accepts expr e.rendering e (.mark .closeParen :: rest))
    (harrow : ahead rest ≠ .mark .arrow) (hrest : startsSuffix (ahead rest) = false) :
    Accepts (prefixed expr operand) (Stencil.enclosed e.rendering) e rest :=
  .plain (.postfixed (.enclosed h harrow) hrest) rfl

end

/-- The items of a list with their words. -/
def itemsOf (es : List Expr) : List (Word × Expr) :=
  es.map fun e => (enclosed e.rendering, e)

theorem itemsOf_fst (es : List Expr) : (itemsOf es).map (·.1) = Expr.renderItems es := by
  rw [itemsOf, List.map_map, Expr.renderItems_eq_map]
  rfl

theorem itemsOf_snd (es : List Expr) : (itemsOf es).map (·.2) = es := by
  rw [itemsOf, List.map_map]
  exact List.map_id es

def membersOf (members : List (String × Expr)) : List (Word × (String × Expr)) :=
  members.map fun m => (.string m.1 :: .mark .colon :: enclosed m.2.rendering, m)

theorem membersOf_fst (members : List (String × Expr)) :
    (membersOf members).map (·.1) = Expr.renderMembers members := by
  rw [membersOf, List.map_map, Expr.renderMembers_eq_map]
  rfl

theorem membersOf_snd (members : List (String × Expr)) :
    (membersOf members).map (·.2) = members := by
  rw [membersOf, List.map_map]
  exact List.map_id members

/-- What the rule of expressions accepts if no more than `n` levels are left, in parentheses or
not. -/
structure AcceptsRows (n : Nat) (expr operand : Rule Expr) : Prop where
  row : ∀ e rest, e.rendering.length ≤ n → Closes (ahead rest) →
    Accepts expr e.rendering e rest
  item : ∀ e rest, e.rendering.length + 2 ≤ n → Closes (ahead rest) →
    Accepts expr (enclosed e.rendering) e rest
  operand : ∀ e rest, e.rendering.length + 2 ≤ n → Closes (ahead rest) →
    Accepts operand (enclosed e.rendering) e rest

namespace AcceptsRows

variable {n : Nat} {expr operand : Rule Expr}

theorem isItem (h : AcceptsRows n expr operand) {closing : Mark} (hclosing : Closes (.mark closing))
    {e : Expr} (hlength : e.rendering.length + 2 ≤ n) :
    IsItem expr closing (enclosed e.rendering) e := by
  refine ⟨List.cons_ne_nil _ _, ?_, fun rest hrest => h.item e rest hlength ?_⟩
  · exact fun hopen => (hclosing.ne (m := .openParen) id) hopen.symm
  · rcases hrest with hrest | hrest <;> rw [hrest]
    · trivial
    · exact hclosing

theorem side (h : AcceptsRows n expr operand) {e : Expr} {rest : Word}
    (hlength : e.rendering.length ≤ n) (harrow : ahead rest ≠ .mark .arrow)
    (hrest : startsSuffix (ahead rest) = false) :
    Accepts (prefixed expr operand) (enclosed e.rendering) e rest :=
  .enclosedOperand (h.row e _ hlength trivial) harrow hrest

theorem target (h : AcceptsRows n expr operand) {e : Expr} {rest : Word}
    (hlength : e.rendering.length ≤ n) (harrow : ahead rest ≠ .mark .arrow) :
    Accepts (atom expr) (enclosed e.rendering) e rest :=
  .enclosed (h.row e _ hlength trivial) harrow

theorem items (h : AcceptsRows n expr operand) {es : List Expr}
    (hlength : (commas (Expr.renderItems es)).length ≤ n) {closing : Mark}
    (hclosing : Closes (.mark closing)) :
    ∀ p ∈ itemsOf es, IsItem expr closing p.1 p.2 := by
  intro p hp
  have hmem : p.1 ∈ Expr.renderItems es := itemsOf_fst es ▸ List.mem_map_of_mem hp
  obtain ⟨e, -, rfl⟩ := List.mem_map.mp hp
  have hshort := le_trans (length_le_of_mem_commas hmem) hlength
  rw [length_enclosed] at hshort
  exact h.isItem hclosing hshort

theorem members (h : AcceptsRows n expr operand) {members : List (String × Expr)}
    (hlength : (commas (Expr.renderMembers members)).length ≤ n) :
    ∀ p ∈ membersOf members, IsItem (objectMember expr) .closeBrace p.1 p.2 := by
  intro p hp
  have hmem : p.1 ∈ Expr.renderMembers members := membersOf_fst members ▸ List.mem_map_of_mem hp
  obtain ⟨m, -, rfl⟩ := List.mem_map.mp hp
  have hshort := le_trans (length_le_of_mem_commas hmem) hlength
  simp only [List.length_cons, length_enclosed] at hshort
  refine ⟨List.cons_ne_nil _ _, nofun, fun rest hrest => .objectMember (h.item _ _ (by omega) ?_)⟩
  rcases hrest with hrest | hrest <;> rw [hrest] <;> trivial

section

variable {rest : Word} {e : Expr}

/-- What closes a row ends every rule between an operand and the expression. -/
theorem standing {w : Word} (hw : Accepts (prefixed expr operand) w e rest)
    (hrest : Closes (ahead rest)) : Accepts (choice (prefixed expr operand) expr) w e rest :=
  .choiceless (.bareOperation hw (passes_of_closes hrest) (hrest.ne id)) hrest

theorem standing_atom {w : Word} (hw : Accepts (atom expr) w e rest)
    (hstart : startsPrefix (ahead (w ++ rest)) = false) (hrest : Closes (ahead rest)) :
    Accepts (choice (prefixed expr operand) expr) w e rest :=
  standing (.plain (.postfixed hw hrest.startsSuffix_eq) hstart) hrest

/-- A negative number starts with a minus sign and is no operation all the same. -/
theorem standing_negative {k : Token.Kind} (hk : isNumber k)
    (hw : Literal [.mark .minus, k] e) (hrest : Closes (ahead rest)) :
    Accepts (choice (prefixed expr operand) expr) [.mark .minus, k] e rest :=
  standing (.bare (.postfixed (.number hw (hrest.ne id)) hrest.startsSuffix_eq)
    (mark_ne (by decide)) fun _ => ⟨_, rfl, hk⟩) hrest

theorem row_float (x : Float) (hrest : Closes (ahead rest)) :
    Accepts (choice (prefixed expr operand) expr) (Expr.float x).rendering (.float x) rest := by
  rw [Expr.rendering]
  split
  · have hliteral := Literal.negativeFloat (-x)
    rw [neg_neg_float] at hliteral
    exact standing_negative rfl hliteral hrest
  · exact standing_atom (.number (.float x) (hrest.ne id)) rfl hrest

theorem row_integer (i : Int64) (hrest : Closes (ahead rest)) :
    Accepts (choice (prefixed expr operand) expr) (Expr.integer i).rendering (.integer i) rest := by
  rw [Expr.rendering]
  split
  · have hliteral := Literal.negativeInteger (-i)
    rw [Int64.neg_neg] at hliteral
    exact standing_negative rfl hliteral hrest
  · exact standing_atom (.number (.integer i) (hrest.ne id)) rfl hrest

variable (h : AcceptsRows n expr operand)

include h

theorem row_array {es : List Expr} (hlength : (Expr.array es).rendering.length ≤ n + 1)
    (hrest : Closes (ahead rest)) :
    Accepts (choice (prefixed expr operand) expr) (Expr.array es).rendering (.array es) rest := by
  simp only [Expr.rendering, List.length_append, List.length_cons] at hlength
  have hitems : ∀ p ∈ itemsOf es, IsItem expr .closeBracket p.1 p.2 := h.items (by omega) trivial
  have harray : Accepts (atom expr) _ _ rest := .array hitems
  rw [itemsOf_fst, itemsOf_snd] at harray
  exact standing_atom harray rfl hrest

theorem row_object {members : List (String × Expr)}
    (hlength : (Expr.object members).rendering.length ≤ n + 1) (hrest : Closes (ahead rest)) :
    Accepts (choice (prefixed expr operand) expr) (Expr.object members).rendering (.object members)
      rest := by
  simp only [Expr.rendering, List.length_append, List.length_cons] at hlength
  have hmembers : ∀ p ∈ membersOf members, IsItem (objectMember expr) .closeBrace p.1 p.2 :=
    h.members (by omega)
  have hobject : Accepts (atom expr) _ _ rest := .object hmembers
  rw [membersOf_fst, membersOf_snd] at hobject
  exact standing_atom hobject rfl hrest

theorem row_range {first last : Expr}
    (hlength : (Expr.range first last).rendering.length ≤ n + 1) (hrest : Closes (ahead rest)) :
    Accepts (choice (prefixed expr operand) expr) (Expr.range first last).rendering
      (.range first last) rest := by
  simp only [Expr.rendering, length_enclosed, List.length_append, List.length_cons] at hlength
  exact .choiceless (.rangeOperation (h.side (by omega) (mark_ne (by decide)) rfl)
    (h.side (by omega) (hrest.ne id) hrest.startsSuffix_eq) hrest) hrest

theorem row_unary {op : UnaryOp} (hlength : (Expr.unary op e).rendering.length ≤ n + 1)
    (hrest : Closes (ahead rest)) :
    Accepts (choice (prefixed expr operand) expr) (Expr.unary op e).rendering (.unary op e)
      rest := by
  simp only [Expr.rendering, length_enclosed, List.length_cons] at hlength
  exact standing (.unary (h.operand e rest (by omega) hrest) not_startsInNumber_enclosed) hrest

theorem row_binary {op : BinaryOp} {left right : Expr}
    (hlength : (Expr.binary op left right).rendering.length ≤ n + 1)
    (hrest : Closes (ahead rest)) :
    Accepts (choice (prefixed expr operand) expr) (Expr.binary op left right).rendering
      (.binary op left right) rest := by
  simp only [Expr.rendering, length_enclosed, List.length_append, List.length_cons] at hlength
  exact .choiceless (.binaryOperation
    (h.side (by omega) (mark_ne_of_operatorOf (m := .arrow) rfl op) (startsSuffix_mark op))
    (h.side (by omega) (hrest.ne id) hrest.startsSuffix_eq) hrest) hrest

theorem row_conditional {test yes no : Expr}
    (hlength : (Expr.conditional test yes no).rendering.length ≤ n + 1)
    (hrest : Closes (ahead rest)) :
    Accepts (choice (prefixed expr operand) expr) (Expr.conditional test yes no).rendering
      (.conditional test yes no) rest := by
  simp only [Expr.rendering, length_enclosed, List.length_append, List.length_cons] at hlength
  exact .conditional (h.side (by omega) (mark_ne (by decide)) rfl) (h.item _ _ (by omega) trivial)
    (h.item _ _ (by omega) hrest)

theorem row_member {s : String} (hlength : (Expr.member e s).rendering.length ≤ n + 1)
    (hrest : Closes (ahead rest)) :
    Accepts (choice (prefixed expr operand) expr) (Expr.member e s).rendering (.member e s)
      rest := by
  simp only [Expr.rendering, length_enclosed, List.length_append, List.length_cons] at hlength
  have htarget : Accepts (atom expr) (enclosed e.rendering) e (.mark .dot :: .name s :: rest) :=
    h.target (by omega) (mark_ne (by decide))
  exact standing (.plain (.member htarget hrest.startsSuffix_eq (hrest.ne id)) rfl) hrest

theorem row_index {i : Expr} (hlength : (Expr.index e i).rendering.length ≤ n + 1)
    (hrest : Closes (ahead rest)) :
    Accepts (choice (prefixed expr operand) expr) (Expr.index e i).rendering (.index e i)
      rest := by
  simp only [Expr.rendering, length_enclosed, List.length_append, List.length_cons] at hlength
  exact standing (.plain (.index (h.target (by omega) (mark_ne (by decide)))
    (h.item _ _ (by omega) trivial) hrest.startsSuffix_eq) rfl) hrest

theorem row_call {f : String} {args : List Expr}
    (hlength : (Expr.call none f args).rendering.length ≤ n + 1) (hrest : Closes (ahead rest)) :
    Accepts (choice (prefixed expr operand) expr) (Expr.call none f args).rendering
      (.call none f args) rest := by
  simp only [Expr.rendering, length_enclosed, List.length_cons] at hlength
  have hargs : ∀ p ∈ itemsOf args, IsItem expr .closeParen p.1 p.2 := h.items (by omega) trivial
  have hcall : Accepts (atom expr) (.name f :: _) _ rest := .call hargs
  rw [itemsOf_fst, itemsOf_snd] at hcall
  exact standing_atom hcall rfl hrest

theorem row_method {f : String} {args : List Expr}
    (hlength : (Expr.call (some e) f args).rendering.length ≤ n + 1)
    (hrest : Closes (ahead rest)) :
    Accepts (choice (prefixed expr operand) expr) (Expr.call (some e) f args).rendering
      (.call (some e) f args) rest := by
  simp only [Expr.rendering, length_enclosed, List.length_append, List.length_cons] at hlength
  have hargs : ∀ p ∈ itemsOf args, IsItem expr .closeParen p.1 p.2 := h.items (by omega) trivial
  have htarget {w : Word} : Accepts (atom expr) (enclosed e.rendering) e (.mark .dot :: w) :=
    h.target (by omega) (mark_ne (by decide))
  have hmethod := Accepts.method (s := f) htarget hargs hrest.startsSuffix_eq
  rw [itemsOf_fst, itemsOf_snd] at hmethod
  exact standing (.plain hmethod rfl) hrest

theorem row_lambda {params : List String} {body : Expr}
    (hlength : (Expr.lambda params body).rendering.length ≤ n + 1) (hrest : Closes (ahead rest)) :
    Accepts (choice (prefixed expr operand) expr) (Expr.lambda params body).rendering
      (.lambda params body) rest := by
  simp only [Expr.rendering, length_enclosed, List.length_append, List.length_cons] at hlength
  have hbody := h.item body rest (by omega) hrest
  exact standing_atom (.lambda hbody) rfl hrest

theorem row_succ (e : Expr) (hlength : e.rendering.length ≤ n + 1) (hrest : Closes (ahead rest)) :
    Accepts (choice (prefixed expr operand) expr) e.rendering e rest := by
  cases e with
  | float x => exact row_float x hrest
  | integer i => exact row_integer i hrest
  | string s => exact standing_atom .string rfl hrest
  | boolean b => exact standing_atom .boolean rfl hrest
  | null => exact standing_atom .null rfl hrest
  | name s => exact standing_atom (.name (hrest.ne id) (hrest.ne id)) rfl hrest
  | array es => exact h.row_array hlength hrest
  | object members => exact h.row_object hlength hrest
  | range first last => exact h.row_range hlength hrest
  | unary op e => exact h.row_unary hlength hrest
  | binary op left right => exact h.row_binary hlength hrest
  | conditional test yes no => exact h.row_conditional hlength hrest
  | member e s => exact h.row_member hlength hrest
  | index e i => exact h.row_index hlength hrest
  | call receiver f args =>
    cases receiver with
    | none => exact h.row_call hlength hrest
    | some e => exact h.row_method hlength hrest
  | lambda params body => exact h.row_lambda hlength hrest

end

end AcceptsRows

theorem acceptsRows (limit depth : Nat) :
    AcceptsRows depth (expression limit depth) (operand limit depth) := by
  induction depth with
  | zero =>
    refine ⟨fun e _ h => ?_, fun e _ h => by omega, fun e _ h => by omega⟩
    exact absurd (List.length_eq_zero_iff.mp (Nat.le_zero.mp h)) e.rendering_ne_nil
  | succ depth ih =>
    have henclosed (e : Expr) (rest : Word) (hlength : e.rendering.length + 2 ≤ depth + 1)
        (hrest : Closes (ahead rest)) :
        Accepts (operand limit (depth + 1)) (enclosed e.rendering) e rest :=
      ih.side (by omega) (hrest.ne id) hrest.startsSuffix_eq
    refine ⟨fun e rest hlength hrest => ih.row_succ e hlength hrest, fun e rest hlength hrest => ?_,
      henclosed⟩
    exact .choiceless (.bareOperation (henclosed e rest hlength hrest) (passes_of_closes hrest)
      (hrest.ne id)) hrest

end Parser

/-- An expression that is written with every inner one in parentheses is read back, if no fewer
levels are allowed than the row has tokens. -/
theorem parse_rendering (e : Expr) {tokens : List Token} {limit : Nat}
    (htokens : kindsBeforeEnd tokens = e.rendering) (hlimit : e.rendering.length ≤ limit) :
    parse tokens limit = .ok e := by
  have hexpr := (Parser.acceptsRows limit limit).row e [] hlimit trivial
  rw [← htokens] at hexpr
  exact parse_of_accepts hexpr

/-- The tokens of `f(((x, y) => (-(1))), (-2))` and an end. -/
def nestedTokens : List Token :=
  [.name "f", .mark .openParen, .mark .openParen, .mark .openParen, .name "x", .mark .comma,
    .name "y", .mark .closeParen, .mark .arrow, .mark .openParen, .mark .minus, .mark .openParen,
    .integer 1, .mark .closeParen, .mark .closeParen, .mark .closeParen, .mark .comma,
    .mark .openParen, .mark .minus, .integer 2, .mark .closeParen, .mark .closeParen,
    .eof].map fun k => ⟨k, "", 0⟩

def nestedTree : Expr :=
  .call none "f" [.lambda ["x", "y"] (.unary .negate (.integer 1)), .integer (-2)]

theorem parse_nestedTokens :
    kindsBeforeEnd nestedTokens = nestedTree.rendering ∧ nestedTree.rendering.length ≤ 22 ∧
      parse nestedTokens 22 = .ok nestedTree :=
  ⟨rfl, by decide, parse_rendering nestedTree rfl (by decide)⟩

end Stencil

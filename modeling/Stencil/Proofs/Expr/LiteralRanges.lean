import Stencil.Proofs.Expr.Exchange

/-!
# Ranges of number literals

With a member, a call or an index behind it, a range of two number literals is what that is taken
of, as if parentheses stood around it. Otherwise its end goes on through sums and products.
-/

namespace Stencil

namespace Grammar

variable {c : Category} {k : Token.Kind} {v w rest : Word} {e first last : Expr}

/-- No operand comes right behind the word, only an operator or something that closes. -/
def EndsClosed (w : Word) : Prop :=
  ∃ v k, w = v ++ [k] ∧ opens k = false

theorem EndsClosed.append (h : EndsClosed w) (v : Word) : EndsClosed (v ++ w) := by
  obtain ⟨w, k, rfl, hk⟩ := h
  exact ⟨v ++ w, k, (List.append_assoc ..).symm, hk⟩

theorem EndsClosed.cons (h : EndsClosed w) (k : Token.Kind) : EndsClosed (k :: w) :=
  h.append [k]

theorem EndsClosed.of_last (v : Word) (hk : opens k = false) : EndsClosed (v ++ [k]) :=
  ⟨v, k, rfl, hk⟩

theorem Literal.endsClosed (h : Literal w e) : EndsClosed w := by
  cases h with
  | integer | float => exact .of_last [] rfl
  | negativeInteger | negativeFloat => exact .of_last [.mark .minus] rfl

theorem endsClosed_of_derives : ∀ {c w e}, Derives c w e → EndsClosed w
  | _, _, _, .choiceless h | _, _, _, .operand h | _, _, _, .single h | _, _, _, .bare h
  | _, _, _, .atomic h | _, _, _, .target h => endsClosed_of_derives h
  | _, _, _, .conditional _ _ h | _, _, _, .binary _ h | _, _, _, .range _ h _ =>
    ((endsClosed_of_derives h).cons _).append _
  | _, _, _, .not h | _, _, _, .negate h _ => (endsClosed_of_derives h).cons _
  | _, _, _, .lambda h => ((endsClosed_of_derives h).cons _).cons _
  | _, _, _, .lambdaOf h => (((endsClosed_of_derives h).cons _).cons _).append _
  | _, _, _, .literalRange _ h => (h.endsClosed.cons _).append _
  | _, _, _, .number h => h.endsClosed
  | _, _, _, .member _ => (EndsClosed.of_last [.mark .dot] rfl).append _
  | _, _, _, .string | _, _, _, .boolean | _, _, _, .null | _, _, _, .name => .of_last [] rfl
  | _, _, _, .method .. | _, _, _, .index .. | _, _, _, .call .. | _, _, _, .group ..
  | _, _, _, .array .. | _, _, _, .object .. => .of_last _ rfl

/-- Where an operand comes that a minus in front does not negate. -/
inductive Awaits : Word → Prop
  | start : Awaits []
  | mark (u : Word) {m : Mark} : opens (.mark m) → m ≠ .minus → Awaits (u ++ [.mark m])
  | minus (u : Word) {c w e} : Derives c w e → Awaits (u ++ w ++ [.mark .minus])

theorem endsOpen_cons (h : endsOpen w) (hnil : w ≠ []) (hminus : w ≠ [.mark .minus])
    (k : Token.Kind) : endsOpen (k :: w) := by
  unfold endsOpen
  split
  case h_1 heq => cases heq
  case h_2 heq =>
    cases heq
    exact absurd rfl hnil
  case h_3 heq =>
    cases heq
    exact absurd rfl hminus
  case h_4 heq =>
    cases heq
    exact h

theorem Awaits.endsOpen (h : Awaits w) : endsOpen w := by
  cases h with
  | start => rfl
  | mark u hm hminus =>
    induction u with
    | nil => exact hm
    | cons k u ih =>
      refine endsOpen_cons ih (by simp) (fun h => ?_) k
      cases u <;> simp_all
  | minus u h =>
    obtain ⟨v, k, rfl, hk⟩ := endsClosed_of_derives h
    rw [← List.append_assoc, List.append_assoc]
    induction u ++ v with
    | nil => simp [Grammar.endsOpen, hk]
    | cons j u ih => exact endsOpen_cons ih (by simp) (by cases u <;> simp) j

theorem Awaits.ne_minus (h : Awaits w) : w ≠ [.mark .minus] := by
  cases h with
  | start => nofun
  | mark u hm hminus => cases u <;> simp [hminus]
  | minus u h =>
    obtain ⟨v, k, rfl, -⟩ := endsClosed_of_derives h
    cases u <;> cases v <;> simp

theorem Literal.startsInBound_iff (h : Literal w e) :
    StartsInBound (w ++ rest) ↔ StartsInSuffix rest := by
  constructor
  · rintro ⟨v, e', rest', hliteral, hword, hsuffix⟩
    obtain rfl : rest = rest' := by
      cases h <;> cases hliteral <;> simp_all
    exact hsuffix
  · exact fun hsuffix => ⟨w, e, rest, h, rfl, hsuffix⟩

theorem not_startsInSuffix_mark {m : Mark} (h : startsSuffix (.mark m) = false) (w : Word) :
    ¬ StartsInSuffix (.mark m :: w) := by
  rintro ⟨_, ⟨rfl⟩, hk⟩
  cases h.symm.trans hk

/-- A range is no bound. -/
theorem Literal.not_startsInBound (h : Literal v e) : ¬ StartsInBound (v ++ .mark .range :: w) :=
  mt h.startsInBound_iff.mp (not_startsInSuffix_mark rfl w)

theorem Literal.startsOperand (h : Literal v e) (w : Word) :
    StartsOperand (v ++ .mark .range :: w) where
  first := by cases h <;> simp [isNumber]
  minus := by cases h <;> simp [StartsInNumber, isNumber]
  unbound := h.not_startsInBound

theorem startsOperand_enclosed (w rest : Word) : StartsOperand (enclosed w ++ rest) where
  first := .inr (.inr rfl)
  minus := nofun
  unbound := by
    rintro ⟨v, e, rest, h, hword, -⟩
    cases h <;> simp [enclosed] at hword

end Grammar

namespace Parser

open Grammar

variable {expr operand unary : Rule Expr} {v w x rest : Word} {e e' first last left right : Expr}

theorem startsSuffix_ahead (h : ¬ StartsInSuffix rest) : startsSuffix (ahead rest) = false := by
  cases rest with
  | nil => rfl
  | cons k rest =>
    rw [ahead_cons, ← Bool.not_eq_true]
    exact fun hk => h ⟨k, rfl, hk⟩

theorem Accepts.bareNumber (h : Literal w e) (hrest : ¬ StartsInSuffix rest)
    (hbound : ∀ v, rest = .mark .range :: v → ¬ StartsInBound v) :
    Accepts (prefixed expr operand) w e rest := by
  refine .bare (.postfixed (.numeral (.literal h hbound)) (startsSuffix_ahead hrest)) ?_ ?_
  · cases h <;> simp
  · cases h <;> simp [StartsInNumber, isNumber]

theorem Accepts.firstBound (hfirst : Literal v first) (hlast : Literal w last)
    (hx : ¬ StartsInSuffix x) :
    Accepts (prefixed expr operand) v first (.mark .range :: (w ++ x)) := by
  refine .bareNumber hfirst (not_startsInSuffix_mark rfl _) ?_
  rintro _ ⟨rfl⟩
  exact mt hlast.startsInBound_iff.mp hx

/-- The end of the range is all that is read behind it as a sum of products. -/
theorem run_rangeOf_literal (hfirst : Literal v first) (hlast : Literal w last)
    (hx : ¬ StartsInSuffix x) {ts : Input} (hts : ts.kinds = v ++ .mark .range :: (w ++ x)) :
    ∃ ts' : Input, ts'.kinds = w ++ x ∧
      (rangeOf (additive (prefixed expr operand))).run ts =
        (do return .range first (← additive (prefixed expr operand)) : Rule Expr).run ts' := by
  have hmark (l : Layer) := passes_of_operatorOf (m := .range) rfl l (w ++ x)
  have hfirst : Accepts (additive (prefixed expr operand)) v first (.mark .range :: (w ++ x)) :=
    ((Accepts.firstBound hfirst hlast hx).leftAssoc (hmark .product)).leftAssoc (hmark .sum)
  obtain ⟨ts₁, hts₁, hrun⟩ := hfirst ts hts
  have hrange : ts₁.kind.isMark .range := isMark_iff.mpr (Input.kind_of_kinds hts₁).1
  have hbind (f : Expr → Rule Expr) :
      (additive (prefixed expr operand) >>= f).run ts = (f first).run ts₁ := by
    rw [StateT.run_bind, hrun]
    rfl
  refine ⟨ts₁.tail, (Input.kind_of_kinds hts₁).2, ?_⟩
  rw [rangeOf, hbind, run_atMark_bind, if_pos hrange, run_advance_bind]

theorem Accepts.additive {op : BinaryOp} (hop : op.layer = .sum ∨ op.layer = .product)
    (hleft : Accepts unary v left (.mark op.mark :: (w ++ rest)))
    (hright : Accepts unary w right rest) (hrest : Closes (ahead rest)) :
    Accepts (Parser.additive unary) (v ++ .mark op.mark :: w) (.binary op left right) rest := by
  have h := hleft.binaryLayer hright hrest
  rcases hop with hop | hop <;> rw [hop] at h
  · exact h
  · exact h.leftAssoc (passes_of_closes hrest .sum)

/-- Suffixes in a row, and what they make of an expression. -/
inductive Suffixes (expr : Rule Expr) : Word → Expr → Expr → Prop
  | nil {e : Expr} : Suffixes expr [] e e
  | member {w : Word} {s : String} {e e' : Expr} : Suffixes expr w (.member e s) e' →
      Suffixes expr (.mark .dot :: .name s :: w) e e'
  | method {w : Word} {s : String} {e e' : Expr} {parts : List (Word × Expr)} :
      (∀ p ∈ parts, IsItem expr .closeParen p.1 p.2) →
      Suffixes expr w (.call (some e) s (parts.map (·.2))) e' →
      Suffixes expr (.mark .dot :: .name s :: (enclosed (commas (parts.map (·.1))) ++ w)) e e'
  | index {v w : Word} {e i e' : Expr} : (∀ rest, Accepts expr v i (.mark .closeBracket :: rest)) →
      Suffixes expr w (.index e i) e' →
      Suffixes expr (.mark .openBracket :: (v ++ .mark .closeBracket :: w)) e e'

theorem Suffixes.startsInSuffix (h : Suffixes expr w e e') (hne : w ≠ []) (rest : Word) :
    StartsInSuffix (w ++ rest) := by
  cases h with
  | nil => exact absurd rfl hne
  | member | method | index => exact ⟨_, rfl, rfl⟩

theorem Suffixes.ahead_ne (h : Suffixes expr w e e') (hrest : Closes (ahead rest)) :
    ahead (w ++ rest) ≠ .mark .openParen := by
  cases h with
  | nil => exact hrest.ne id
  | member | method | index => nofun

theorem Accepts.suffixes (h : Suffixes expr w e e') (hrest : Closes (ahead rest))
    {fuel : List Token} (hfuel : w.length ≤ fuel.length) :
    Accepts (Parser.suffixes expr fuel e) w e' rest := by
  induction h generalizing fuel with
  | nil => exact .noSuffix hrest.startsSuffix_eq fuel
  | member h ih =>
    obtain ⟨t, fuel, rfl⟩ := List.exists_cons_of_length_pos (Nat.zero_lt_of_lt hfuel)
    simp only [List.length_cons] at hfuel
    exact .peek (.advance (.expectName (.atMark_other (h.ahead_ne hrest) (ih (by omega)))))
  | method hparts h ih =>
    obtain ⟨t, fuel, rfl⟩ := List.exists_cons_of_length_pos (Nat.zero_lt_of_lt hfuel)
    simp only [List.length_cons, List.length_append] at hfuel
    exact .peek (.advance (.expectName (.atMark_here
      (.bind (.list (by decide) hparts) (ih (by omega))))))
  | index hi h ih =>
    obtain ⟨t, fuel, rfl⟩ := List.exists_cons_of_length_pos (Nat.zero_lt_of_lt hfuel)
    simp only [List.length_cons, List.length_append] at hfuel
    exact .peek (.advance (.bind (hi _) (.expect (ih (by omega)))))

section

variable {limit depth : Nat} {hole hole' : Word} {ts ts' : Input}

theorem accepts_literalGroup (hfirst : Literal v first) (hlast : Literal w last) :
    Accepts (atom (expression limit (depth + 1))) (enclosed (v ++ .mark .range :: w))
      (.range first last) rest := by
  have hclose : ¬ StartsInSuffix (.mark .closeParen :: rest) := not_startsInSuffix_mark rfl rest
  have hoperation : Accepts (Parser.operation
      (prefixed (expression limit depth) (Parser.operand limit depth))) (v ++ .mark .range :: w)
      (.range first last) (.mark .closeParen :: rest) :=
    .rangeOperation (.firstBound hfirst hlast hclose) (.bareNumber hlast hclose nofun) trivial
  refine .group (.choiceless hoperation trivial) ?_
  · intro ts hts
    rw [List.append_assoc, List.cons_append] at hts
    rw [Option.eq_none_iff_forall_ne_some]
    rintro ⟨params, rest'⟩ hhead
    obtain ⟨taken, rfl, htaken⟩ := head?_eq_some_iff.mp hhead
    have hkinds : kindsOf (taken ++ rest') = kindsOf taken ++ kindsOf rest' := List.map_append
    rw [hkinds, htaken] at hts
    obtain ⟨u, hu, -⟩ := exists_append_of_head (u := []) (hfirst.startsOperand _) hts
    simp at hu

theorem Accepts.mirrors {rule rule' : Rule Expr} (h : Accepts rule v e rest)
    (h' : Accepts rule' w e rest) (hts : ts.kinds = v ++ rest) (hts' : ts'.kinds = w ++ rest) :
    Mirrors (BehindOperand hole hole') rule rule' ts ts' := by
  have hlength {us us' : Input} {u : Word} (hus : us.kinds = u ++ rest) (hus' : us'.kinds = rest) :
      us'.length ≤ us.length := by
    have hle : us'.kinds.length ≤ us.kinds.length := by simp [hus, hus']
    simpa [Input.kinds, Input.length] using hle
  intro a us hrun
  obtain ⟨_, hus, hrun₁⟩ := h ts hts
  cases hrun.symm.trans hrun₁
  obtain ⟨us', hus', hrun'⟩ := h' ts' hts'
  exact ⟨us', hrun', .inl (hus.trans hus'.symm), hlength hts hus, hlength hts' hus'⟩

theorem literalRange_readsAlike (hfirst : Literal v first) (hlast : Literal w last)
    (hrest : StartsInSuffix rest) (limit limit' depth : Nat) :
    ReadsAlike (v ++ .mark .range :: w ++ rest) (enclosed (v ++ .mark .range :: w) ++ rest)
      (expression limit depth) (expression limit' (depth + 1)) :=
  fun _ _ hts hts' => (Accepts.numeral (.range hfirst hlast hrest)).mirrors
    (accepts_literalGroup hfirst hlast) hts hts'

theorem literalGroup_readsAlike (hfirst : Literal v first) (hlast : Literal w last)
    (hrest : StartsInSuffix rest) (limit limit' depth : Nat) :
    ReadsAlike (enclosed (v ++ .mark .range :: w) ++ rest) (v ++ .mark .range :: w ++ rest)
      (expression limit depth) (expression limit' depth) := by
  intro ts ts' hts hts' a us hrun
  -- one level more makes sure that there is one for the parentheses
  have hexpr : FollowsBelow ParseError.IsTooDeep ts.length (expression limit (depth + 1))
      (expression limit depth) :=
    (expression_follows (Nat.le_succ depth) (.inr fun _ => trivial)).1
  have hrun' : (atom (expression limit (depth + 1))).run ts = .ok (a, us) := by
    rcases (atom_follows hexpr ts (Nat.lt_succ_self _)).agree with h | ⟨e, he, -⟩
    · exact h.trans hrun
    · cases he.symm.trans hrun
  exact (accepts_literalGroup hfirst hlast).mirrors (.numeral (.range hfirst hlast hrest)) hts hts'
    a us hrun'

/-- A row of suffixes behind the range is put on it. -/
theorem Accepts.suffixedRange (hfirst : Literal v first) (hlast : Literal w last)
    (hx : Suffixes (expression limit depth) x (.range first last) e) (hne : x ≠ []) :
    Accepts (expression limit (depth + 1)) (v ++ .mark .range :: w ++ x) e [] := by
  have hend : Closes (ahead []) := trivial
  have hstarts : StartsOperand (v ++ .mark .range :: w ++ x ++ []) := by
    simpa using hfirst.startsOperand (w ++ x)
  have hpostfixed :
      Accepts (Parser.postfixed (expression limit depth)) (v ++ .mark .range :: w ++ x) e [] := by
    refine .bind (.numeral (.range hfirst hlast (hx.startsInSuffix hne []))) (.get fun ts hts => ?_)
    have hlength := congrArg List.length hts
    simp only [Input.kinds, List.length_map, List.append_nil] at hlength
    exact .suffixes hx hend (Nat.le_of_eq hlength.symm)
  have hnot : ahead (v ++ .mark .range :: w ++ x ++ []) ≠ .mark .not := by
    intro hnot
    have hfirst := hstarts.first
    rw [hnot] at hfirst
    simp [isNumber] at hfirst
  exact .choiceless (.bareOperation (.bare hpostfixed hnot hstarts.minus)
    (passes_of_closes hend) (hend.ne id)) hend

/-- An operator behind the range is part of its end. -/
theorem Accepts.rangeToBinary {op : BinaryOp} (hop : op.layer = .sum ∨ op.layer = .product)
    (hfirst : Literal v first) (hlast : Literal w last)
    (hx : Accepts (Parser.operand limit (depth + 1)) x right []) :
    Accepts (expression limit (depth + 1)) (v ++ .mark .range :: (w ++ .mark op.mark :: x))
      (.range first (.binary op last right)) [] := by
  have hmark (u : Word) : ¬ StartsInSuffix (.mark op.mark :: u) :=
    not_startsInSuffix_mark (startsSuffix_mark op) u
  have hlastBound :
      Accepts (Parser.operand limit (depth + 1)) w last (.mark op.mark :: (x ++ [])) :=
    .bareNumber hlast (hmark _) fun u hu =>
      absurd (List.cons.inj hu).1 (mark_ne_of_operatorOf rfl op)
  have hfirstBound : Accepts (Parser.operand limit (depth + 1)) v first
      (.mark .range :: (w ++ .mark op.mark :: x ++ [])) := by
    rw [List.append_assoc]
    exact .firstBound hfirst hlast (hmark _)
  exact .choiceless (.rangeOfSums hfirstBound (.additive hop hlastBound hx trivial) trivial) trivial

end

/-- With a suffix behind it, a range of two number literals is parsed as if it stood in parentheses,
wherever an operand comes, and a row of suffixes is put on it. Without one its end is the sum of
products behind `..`, and so an operator behind the range belongs to the end. -/
theorem parse_literalRange {v w : Word} {first last : Expr} (hfirst : Literal v first)
    (hlast : Literal w last) :
    (∀ front behind tokens tokens', Awaits front → StartsInSuffix behind →
      kindsBeforeEnd tokens = front ++ (v ++ .mark .range :: w ++ behind) →
      kindsBeforeEnd tokens' = front ++ (enclosed (v ++ .mark .range :: w) ++ behind) →
      ∀ limit e, (parse tokens limit = .ok e → parse tokens' (limit + 1) = .ok e) ∧
        (parse tokens' limit = .ok e → parse tokens limit = .ok e)) ∧
    (∀ x tokens depth e, x ≠ [] →
      Suffixes (expression (depth + 1) depth) x (.range first last) e →
      kindsBeforeEnd tokens = v ++ .mark .range :: w ++ x → parse tokens (depth + 1) = .ok e) ∧
    (∀ x expr operand (ts : Input), ¬ StartsInSuffix x →
      ts.kinds = v ++ .mark .range :: (w ++ x) →
      ∃ ts' : Input, ts'.kinds = w ++ x ∧
        (rangeOf (additive (prefixed expr operand))).run ts =
          (do return .range first (← additive (prefixed expr operand)) : Rule Expr).run ts') ∧
    ∀ (op : BinaryOp) x tokens depth right, op.layer = .sum ∨ op.layer = .product →
      Accepts (Parser.operand (depth + 1) (depth + 1)) x right [] →
      kindsBeforeEnd tokens = v ++ .mark .range :: (w ++ .mark op.mark :: x) →
      parse tokens (depth + 1) = .ok (.range first (.binary op last right)) := by
  refine ⟨?_, ?_, ?_, ?_⟩
  · intro front behind tokens tokens' hfront hbehind htokens htokens' limit e
    have hbare : StartsOperand (v ++ .mark .range :: w ++ behind) := by
      simpa using hfirst.startsOperand (w ++ behind)
    have hgroup := startsOperand_enclosed (v ++ .mark .range :: w) behind
    constructor
    · exact parse_exchange 1 hbare hgroup (literalRange_readsAlike hfirst hlast hbehind limit _)
        hfront.endsOpen hfront.ne_minus htokens htokens'
    · exact parse_exchange 0 hgroup hbare (literalGroup_readsAlike hfirst hlast hbehind limit _)
        hfront.endsOpen hfront.ne_minus htokens' htokens
  · intro x tokens depth e hne hx htokens
    exact parse_of_accepts (htokens ▸ .suffixedRange hfirst hlast hx hne)
  · intro x expr operand ts hx hts
    exact run_rangeOf_literal hfirst hlast hx hts
  · intro op x tokens depth right hop hx htokens
    exact parse_of_accepts (htokens ▸ .rangeToBinary hop hfirst hlast hx)

/-- The row of `-1..2`. -/
def shortRange : Word :=
  [.mark .minus, .integer 1] ++ .mark .range :: [.integer 2]

/-- The row of `.y(3)[z]`. -/
def suffixRow : Word :=
  [.mark .dot, .name "y", .mark .openParen, .integer 3, .mark .closeParen, .mark .openBracket,
    .name "z", .mark .closeBracket]

def subtractedTree : Expr :=
  .binary (.arith .sub) (.name "x")
    (.index (.call (some (.range (.integer (-1)) (.integer 2))) "y" [.integer 3]) (.name "z"))

def tokensOf (w : Word) : List Token :=
  w.map fun k => ⟨k, "", 0⟩

theorem parse_shortRange :
    (parse (tokensOf ([.name "x", .mark .minus] ++ (shortRange ++ suffixRow))) 2 =
        .ok subtractedTree ∧
      parse (tokensOf ([.name "x", .mark .minus] ++ (enclosed shortRange ++ suffixRow))) 3 =
        .ok subtractedTree) ∧
    parse (tokensOf (shortRange ++ [.mark .dot, .name "y", .mark .openBracket, .integer 0,
        .mark .closeBracket])) 2 =
      .ok (.index (.member (.range (.integer (-1)) (.integer 2)) "y") (.integer 0)) ∧
    parse (tokensOf ([.mark .minus, .integer 1] ++ .mark .range :: ([.integer 2] ++
        .mark .star :: [.mark .not, .name "z"]))) 2 =
      .ok (.range (.integer (-1))
        (.binary (.arith .mul) (.integer 2) (.unary .not (.name "z")))) := by
  obtain ⟨hgroup, hsuffixes, -, hend⟩ := parse_literalRange (.negativeInteger 1) (.integer 2)
  have hparse : parse (tokensOf ([.name "x", .mark .minus] ++ (shortRange ++ suffixRow))) 2 =
      .ok subtractedTree := rfl
  have hindex (rest : Word) :
      Accepts (expression 2 1) [.integer 0] (.integer 0) (.mark .closeBracket :: rest) :=
    .choiceless (.bareOperation (.bareNumber (.integer 0) (not_startsInSuffix_mark rfl rest) nofun)
      (passes_of_closes trivial) nofun) trivial
  have hname : Accepts (Parser.operand 2 1) [.name "z"] (.name "z") [] :=
    .bare (.postfixed (.name nofun nofun) rfl) nofun nofun
  have hnot : Accepts (prefixed (expression 2 1) (Parser.operand 2 1))
      (.mark UnaryOp.not.mark :: [.name "z"]) (.unary .not (.name "z")) [] :=
    .unary hname (by simp [StartsInNumber, isNumber])
  refine ⟨⟨hparse, ?_⟩, ?_, ?_⟩
  · exact (hgroup [.name "x", .mark .minus] suffixRow _ _ (.minus [] .name) ⟨_, rfl, rfl⟩ rfl rfl
      2 _).1 hparse
  · exact hsuffixes _ _ 1 _ (by simp) (.member (.index (v := [.integer 0]) hindex .nil)) rfl
  · exact hend (.arith .mul) [.mark .not, .name "z"] _ 1 _ (.inr rfl) hnot rfl

end Parser

end Stencil

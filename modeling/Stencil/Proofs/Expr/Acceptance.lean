import Stencil.Proofs.Expr.Lookahead
import Stencil.Proofs.Expr.Rendering

/-!
# What the rules accept

A rule accepts a word in front of certain tokens if it takes all of the word and nothing behind it.
-/

namespace Stencil

open Grammar

namespace Grammar

/-- The kind in front, which is the end where nothing is left. -/
def ahead (w : Word) : Token.Kind :=
  w.head?.getD .eof

@[simp] theorem ahead_cons (k : Token.Kind) (w : Word) : ahead (k :: w) = k :=
  rfl

/-- What can stand behind a whole expression. -/
def Closes : Token.Kind → Prop
  | .eof | .mark .closeParen | .mark .closeBracket | .mark .closeBrace | .mark .comma
  | .mark .colon => True
  | _ => False

theorem Closes.ne {k : Token.Kind} {m : Mark} (h : Closes k) (hm : ¬ Closes (.mark m)) :
    k ≠ .mark m :=
  fun hk => hm (hk ▸ h)

theorem Closes.startsSuffix_eq {k : Token.Kind} (h : Closes k) : startsSuffix k = false := by
  cases k with
  | mark m => cases m <;> first | rfl | exact h.elim
  | _ => rfl

end Grammar

namespace Parser

variable {α β : Type} {rest : Word}

theorem Input.kind_eq (ts : Input) : ts.kind = ahead ts.kinds := by
  obtain ⟨tokens, finish⟩ := ts
  cases tokens <;> rfl

theorem Input.kinds_tail (ts : Input) : ts.tail.kinds = ts.kinds.tail :=
  List.map_tail

/-- A rule takes a word in front of others, and returns what is said. -/
def Accepts (rule : Rule α) (w : Word) (a : α) (rest : Word) : Prop :=
  ∀ ts : Input, ts.kinds = w ++ rest → ∃ ts', ts'.kinds = rest ∧ rule.run ts = .ok (a, ts')

namespace Accepts

theorem pure (a : α) : Accepts (pure a) [] a rest :=
  fun ts h => ⟨ts, h, rfl⟩

theorem bind {x : Rule α} {f : α → Rule β} {v w : Word} {a : α} {b : β}
    (hx : Accepts x v a (w ++ rest)) (hf : Accepts (f a) w b rest) :
    Accepts (x >>= f) (v ++ w) b rest := by
  intro ts h
  obtain ⟨ts₁, hts₁, hrun⟩ := hx ts (h.trans (List.append_assoc ..))
  obtain ⟨ts', hts', hrun'⟩ := hf ts₁ hts₁
  exact ⟨ts', hts', run_bind_eq_ok.mpr ⟨a, ts₁, hrun, hrun'⟩⟩

/-- The last step of a rule takes nothing. -/
theorem bind_end {x : Rule α} {f : α → Rule β} {w : Word} {a : α} {b : β} (hx : Accepts x w a rest)
    (hf : Accepts (f a) [] b rest) : Accepts (x >>= f) w b rest := by
  have h := bind (w := []) hx hf
  rwa [List.append_nil] at h

theorem bind_pure {x : Rule α} {f : α → β} {w : Word} {a : α} (hx : Accepts x w a rest) :
    Accepts (do return f (← x)) w (f a) rest :=
  bind_end hx (pure (f a))

theorem get {f : Input → Rule β} {w : Word} {b : β}
    (h : ∀ ts : Input, ts.kinds = w ++ rest → Accepts (f ts) w b rest) :
    Accepts (MonadState.get >>= f) w b rest := by
  intro ts hts
  obtain ⟨ts', hts', hrun⟩ := h ts hts ts hts
  exact ⟨ts', hts', (run_get_bind f).trans hrun⟩

theorem peek {f : Token.Kind → Rule β} {w : Word} {b : β}
    (h : Accepts (f (ahead (w ++ rest))) w b rest) : Accepts (Parser.peek >>= f) w b rest := by
  intro ts hts
  obtain ⟨ts', hts', hrun⟩ := h ts hts
  exact ⟨ts', hts', by rw [run_peek_bind, ts.kind_eq, hts, hrun]⟩

theorem atMark {m : Mark} {f : Bool → Rule β} {w : Word} {b : β}
    (h : Accepts (f ((ahead (w ++ rest)).isMark m)) w b rest) :
    Accepts (Parser.atMark m >>= f) w b rest := by
  intro ts hts
  obtain ⟨ts', hts', hrun⟩ := h ts hts
  exact ⟨ts', hts', by rw [run_atMark_bind, ts.kind_eq, hts, hrun]⟩

theorem atMark_here {m : Mark} {f : Bool → Rule β} {w : Word} {b : β}
    (h : Accepts (f true) (.mark m :: w) b rest) :
    Accepts (Parser.atMark m >>= f) (.mark m :: w) b rest := by
  refine .atMark ?_
  rwa [show (ahead (.mark m :: w ++ rest)).isMark m = true from isMark_iff.mpr rfl]

theorem atMark_other {m : Mark} {f : Bool → Rule β} {w : Word} {b : β}
    (hm : ahead (w ++ rest) ≠ .mark m) (h : Accepts (f false) w b rest) :
    Accepts (Parser.atMark m >>= f) w b rest := by
  refine .atMark ?_
  rwa [show (ahead (w ++ rest)).isMark m = false by rwa [← Bool.not_eq_true, isMark_iff]]

theorem advance {f : Unit → Rule β} {k : Token.Kind} {w : Word} {b : β}
    (h : Accepts (f ()) w b rest) : Accepts (Parser.advance >>= f) (k :: w) b rest := by
  intro ts hts
  obtain ⟨ts', hts', hrun⟩ := h ts.tail (by rw [ts.kinds_tail, hts]; rfl)
  exact ⟨ts', hts', (run_advance_bind f).trans hrun⟩

theorem expect {m : Mark} {expected : String} {f : Unit → Rule β} {w : Word} {b : β}
    (h : Accepts (f ()) w b rest) :
    Accepts (Parser.expect m expected >>= f) (.mark m :: w) b rest := by
  intro ts hts
  obtain ⟨ts', hts', hrun⟩ := h ts.tail (by rw [ts.kinds_tail, hts]; rfl)
  have hkind : ts.kind = .mark m := by
    rw [ts.kind_eq, hts]
    rfl
  exact ⟨ts', hts', run_expect_bind_eq_ok.mpr ⟨hkind, hrun⟩⟩

theorem expectName {expected : String} {f : String → Rule β} {s : String} {w : Word} {b : β}
    (h : Accepts (f s) w b rest) :
    Accepts (Parser.expectName expected >>= f) (.name s :: w) b rest := by
  intro ts hts
  obtain ⟨ts', hts', hrun⟩ := h ts.tail (by rw [ts.kinds_tail, hts]; rfl)
  have hkind : ts.kind = .name s := by
    rw [ts.kind_eq, hts]
    rfl
  exact ⟨ts', hts', run_expectName_bind_eq_ok.mpr ⟨s, hkind, hrun⟩⟩

end Accepts

/-- No operator of a layer is ahead. -/
def Passes (l : Layer) (rest : Word) : Prop :=
  ∀ op : BinaryOp, op.layer = l → ahead rest ≠ .mark op.mark

theorem run_operator?_of_passes {l : Layer} {ts : Input} (h : Passes l ts.kinds) :
    (operator? (levelOf l)).run ts = .ok (none, ts) := by
  refine run_operator?_eq_ok.mpr ⟨fun op => ⟨nofun, ?_⟩, rfl⟩
  rintro ⟨hl, hkind⟩
  exact absurd (ts.kind_eq.symm.trans hkind) (h op hl)

/-- The operator of a mark. -/
def operatorOf (m : Mark) : Option BinaryOp :=
  [.disjunction, .conjunction, .equality, .relation, .sum, .product].findSome? (levelOf · m)

theorem operatorOf_mark (op : BinaryOp) : operatorOf op.mark = some op := by
  cases op with
  | order c => cases c <;> rfl
  | arith a => cases a <;> rfl
  | _ => rfl

theorem startsSuffix_mark (op : BinaryOp) : startsSuffix (.mark op.mark) = false := by
  cases op with
  | order c => cases c <;> rfl
  | arith a => cases a <;> rfl
  | _ => rfl

theorem mark_injective {op op' : BinaryOp} (h : op.mark = op'.mark) : op = op' :=
  Option.some.inj ((operatorOf_mark op).symm.trans (h ▸ operatorOf_mark op'))

theorem mark_ne_of_operatorOf {m : Mark} (h : operatorOf m = none) (op : BinaryOp) :
    Token.Kind.mark op.mark ≠ .mark m := by
  intro hmark
  rw [← Token.Kind.mark.inj hmark, operatorOf_mark] at h
  cases h

theorem passes_of_operatorOf {m : Mark} (h : operatorOf m = none) (l : Layer) (w : Word) :
    Passes l (.mark m :: w) :=
  fun op _ hmark => mark_ne_of_operatorOf h op hmark.symm

theorem passes_of_ne {op : BinaryOp} {l : Layer} (h : l ≠ op.layer) (w : Word) :
    Passes l (.mark op.mark :: w) := by
  rintro op' rfl hmark
  exact h (congrArg BinaryOp.layer (mark_injective (Token.Kind.mark.inj hmark)).symm)

theorem passes_of_closes (h : Closes (ahead rest)) (l : Layer) : Passes l rest := by
  rintro op - hmark
  have hnone : operatorOf op.mark = none := by
    rw [hmark] at h
    generalize op.mark = m at h
    cases m <;> first | rfl | exact h.elim
  rw [operatorOf_mark] at hnone
  cases hnone

theorem run_operator?_of_mark {op : BinaryOp} {ts : Input} (h : ts.kind = .mark op.mark) :
    (operator? (levelOf op.layer)).run ts = .ok (some op, ts) := by
  refine run_operator?_eq_ok.mpr ⟨fun op' => ?_, rfl⟩
  rw [h, Option.some.injEq, Token.Kind.mark.injEq]
  exact ⟨fun heq => heq ▸ ⟨rfl, rfl⟩, fun hop => mark_injective hop.2⟩

theorem Accepts.operator?_some {op : BinaryOp} {f : Option BinaryOp → Rule β} {w : Word} {b : β}
    (h : Accepts (f (some op)) (.mark op.mark :: w) b rest) :
    Accepts (operator? (levelOf op.layer) >>= f) (.mark op.mark :: w) b rest := by
  intro ts hts
  obtain ⟨ts', hts', hrun⟩ := h ts hts
  have hkind : ts.kind = .mark op.mark := by
    rw [ts.kind_eq, hts]
    rfl
  exact ⟨ts', hts', run_bind_eq_ok.mpr ⟨_, ts, run_operator?_of_mark hkind, hrun⟩⟩

section

variable {operand : Rule Expr} {l : Layer} {v w : Word} {left right e : Expr}

theorem run_chain_of_passes {ts : Input} (h : Passes l ts.kinds) (fuel : List Token) :
    (Parser.chain (levelOf l) operand fuel e).run ts = .ok (e, ts) := by
  cases fuel with
  | nil => rfl
  | cons t fuel => exact run_bind_eq_ok.mpr ⟨none, ts, run_operator?_of_passes h, rfl⟩

theorem Accepts.chain (h : Passes l rest) (fuel : List Token) :
    Accepts (Parser.chain (levelOf l) operand fuel e) [] e rest :=
  fun ts hts => ⟨ts, hts, run_chain_of_passes (hts ▸ h) fuel⟩

theorem Accepts.leftAssoc (h : Accepts operand w e rest) (hrest : Passes l rest) :
    Accepts (Parser.leftAssoc (levelOf l) operand) w e rest :=
  .bind_end h (.get fun ts _ => .chain hrest ts.tokens)

theorem Accepts.binary {op : BinaryOp}
    (hleft : Accepts operand v left (.mark op.mark :: (w ++ rest)))
    (hright : Accepts operand w right rest) (hrest : Passes op.layer rest) :
    Accepts (Parser.leftAssoc (levelOf op.layer) operand) (v ++ .mark op.mark :: w)
      (.binary op left right) rest := by
  refine .bind hleft (.get fun ts hts => ?_)
  cases htokens : ts.tokens with
  | nil => simp [Input.kinds, htokens] at hts
  | cons t fuel =>
    exact .operator?_some (.advance (.bind_end hright (.chain hrest fuel)))

theorem Accepts.single (h : Accepts operand w e rest) (hrest : ahead rest ≠ .mark .range) :
    Accepts (rangeOf operand) w e rest :=
  .bind_end h (.atMark_other hrest (.pure e))

theorem Accepts.range (hleft : Accepts operand v left (.mark .range :: (w ++ rest)))
    (hright : Accepts operand w right rest) :
    Accepts (rangeOf operand) (v ++ .mark .range :: w) (.range left right) rest :=
  .bind hleft (.atMark (.advance (.bind_pure hright)))

end

/-- The rule of the operands of a layer. -/
def operandRule (unary : Rule Expr) : Layer → Rule Expr
  | .product => unary
  | .sum => leftAssoc product unary
  | .relation => rangeOf <| leftAssoc sum <| leftAssoc product unary
  | .equality => leftAssoc relation <| rangeOf <| leftAssoc sum <| leftAssoc product unary
  | .conjunction =>
    leftAssoc equality <| leftAssoc relation <| rangeOf <| leftAssoc sum <|
      leftAssoc product unary
  | .disjunction =>
    leftAssoc conjunction <| leftAssoc equality <| leftAssoc relation <| rangeOf <|
      leftAssoc sum <| leftAssoc product unary

section

variable {unary : Rule Expr} {l : Layer} {w : Word} {e : Expr}

theorem Accepts.operandRule (h : Accepts unary w e rest)
    (hpass : ∀ l', l' ≠ l → Passes l' rest) (hrange : ahead rest ≠ .mark .range) :
    Accepts (Parser.operandRule unary l) w e rest := by
  have hproduct (hl : .product ≠ l) := h.leftAssoc (hpass .product hl)
  have hrangeOf (hl : .product ≠ l) (hl' : .sum ≠ l) :=
    ((hproduct hl).leftAssoc (hpass .sum hl')).single hrange
  have hrelation (hl : .product ≠ l) (hl' : .sum ≠ l) (hl'' : .relation ≠ l) :=
    (hrangeOf hl hl').leftAssoc (hpass .relation hl'')
  cases l with
  | product => exact h
  | sum => exact hproduct nofun
  | relation => exact hrangeOf nofun nofun
  | equality => exact hrelation nofun nofun nofun
  | conjunction => exact (hrelation nofun nofun nofun).leftAssoc (hpass .equality nofun)
  | disjunction =>
    exact ((hrelation nofun nofun nofun).leftAssoc (hpass .equality nofun)).leftAssoc
      (hpass .conjunction nofun)

/-- The looser layers have nothing to add. -/
theorem Accepts.operation
    (h : Accepts (Parser.leftAssoc (levelOf l) (Parser.operandRule unary l)) w e rest)
    (hpass : ∀ l', Passes l' rest) (hrange : ahead rest ≠ .mark .range) :
    Accepts (Parser.operation unary) w e rest := by
  have hequality {x : Rule Expr} (hx : Accepts x w e rest) :=
    (hx.leftAssoc (hpass .conjunction)).leftAssoc (hpass .disjunction)
  have hsum {x : Rule Expr} (hx : Accepts x w e rest) :=
    hequality (((hx.single hrange).leftAssoc (hpass .relation)).leftAssoc (hpass .equality))
  cases l with
  | disjunction => exact h
  | conjunction => exact h.leftAssoc (hpass .disjunction)
  | equality => exact hequality h
  | relation => exact hequality (h.leftAssoc (hpass .equality))
  | sum => exact hsum h
  | product => exact hsum (h.leftAssoc (hpass .sum))

end

section

variable {expr operand : Rule Expr} {v w : Word} {e i : Expr} {s : String}

theorem numeral?_eq_none {ts : Input} (hminus : ahead ts.kinds ≠ .mark .minus)
    (hnumber : isNumber (ahead ts.kinds) = false) : numeral? ts.tokens = none := by
  obtain ⟨tokens, finish⟩ := ts
  cases tokens with
  | nil => rfl
  | cons t tokens =>
    have hnone : number? t.kind = none := by
      rw [← Option.not_isSome_iff_eq_none, number?_isSome]
      simpa [Input.kinds] using hnumber
    simp [numeral?, literal?_of_ne_minus hminus, hnone]

theorem bound?_eq_none {ts : List Token} (h : ahead (kindsOf ts) ≠ .mark .range) :
    bound? ts = none := by
  cases ts with
  | nil => rfl
  | cons t ts => exact if_neg (mt isMark_iff.mp h)

theorem Accepts.of_numeral? (h : ∀ taken ts, kindsOf taken = w → kindsOf ts = rest →
    numeral? (taken ++ ts) = some (e, ts)) : Accepts (atom expr) w e rest := by
  refine .get fun ts hts => ?_
  obtain ⟨taken, tokens, htokens, htaken, hrest⟩ := List.map_eq_append_iff.mp hts
  rw [htokens, h taken tokens htaken hrest]
  intro us _
  exact ⟨{ ts with tokens := tokens }, hrest, rfl⟩

theorem Accepts.numeral (h : Numeral w e rest) : Accepts (atom expr) w e rest := by
  refine .of_numeral? fun taken ts htaken hts => numeral?_eq_some_iff.mpr ⟨taken, rfl, ?_⟩
  rwa [htaken, hts]

theorem Accepts.literal (h : Literal w e) (hrest : ∀ ts, kindsOf ts = rest → bound? ts = none) :
    Accepts (atom expr) w e rest := by
  refine .of_numeral? fun taken ts htaken hts => ?_
  have hliteral : literal? (taken ++ ts) = some (e, ts) :=
    literal?_eq_some_iff.mpr ⟨taken, rfl, htaken ▸ h⟩
  simp [numeral?, hliteral, hrest ts hts]

theorem Accepts.number (h : Literal w e) (hrest : ahead rest ≠ .mark .range) :
    Accepts (atom expr) w e rest :=
  .literal h fun _ hts => bound?_eq_none (hts ▸ hrest)

theorem Accepts.string : Accepts (atom expr) [.string s] (.string s) rest := by
  refine .get fun ts hts => ?_
  rw [numeral?_eq_none (by simp [hts]) (by simp [hts, isNumber]), ts.kind_eq, hts]
  exact .advance (.pure _)

theorem Accepts.boolean {b : Bool} : Accepts (atom expr) [.boolean b] (.boolean b) rest := by
  refine .get fun ts hts => ?_
  rw [numeral?_eq_none (by simp [hts]) (by simp [hts, isNumber]), ts.kind_eq, hts]
  exact .advance (.pure _)

theorem Accepts.null : Accepts (atom expr) [.null] .null rest := by
  refine .get fun ts hts => ?_
  rw [numeral?_eq_none (by simp [hts]) (by simp [hts, isNumber]), ts.kind_eq, hts]
  exact .advance (.pure _)

theorem Accepts.named (h : Accepts (Parser.named expr s) (.name s :: w) e rest) :
    Accepts (atom expr) (.name s :: w) e rest := by
  refine .get fun ts hts => ?_
  rw [numeral?_eq_none (by simp [hts]) (by simp [hts, isNumber]), ts.kind_eq, hts]
  exact h

theorem Accepts.parenthesised
    (h : Accepts (Parser.parenthesised expr) (.mark .openParen :: w) e rest) :
    Accepts (atom expr) (.mark .openParen :: w) e rest := by
  refine .get fun ts hts => ?_
  rw [numeral?_eq_none (by simp [hts]) (by simp [hts, isNumber]), ts.kind_eq, hts]
  exact h

theorem Accepts.name (harrow : ahead rest ≠ .mark .arrow) (hparen : ahead rest ≠ .mark .openParen) :
    Accepts (atom expr) [.name s] (.name s) rest := by
  refine .named (.advance (.peek ?_))
  split
  · exact absurd ‹_› harrow
  · exact absurd ‹_› hparen
  · exact .pure _

theorem Accepts.lambda {params : List String} (h : Accepts expr w e rest) :
    Accepts (atom expr) (enclosed (parameters params) ++ .mark .arrow :: w) (.lambda params e)
      rest := by
  have hword : enclosed (parameters params) ++ .mark .arrow :: w =
      .mark .openParen :: (parameters params ++ [.mark .closeParen, .mark .arrow] ++ w) := by
    simp [enclosed]
  rw [hword]
  refine .parenthesised (.advance (.get fun ts hts => ?_))
  obtain ⟨taken, tokens, htokens, htaken, hrest⟩ :=
    List.map_eq_append_iff.mp (hts.trans (List.append_assoc ..))
  rw [head?_eq_some_iff.mpr ⟨taken, htokens, htaken⟩]
  obtain ⟨ts', hts', hrun⟩ := h { ts with tokens := tokens } hrest
  refine fun us _ => ⟨ts', hts', ?_⟩
  exact (run_set_bind _ _).trans (run_bind_eq_ok.mpr ⟨_, _, hrun, rfl⟩)

theorem Accepts.group (h : Accepts expr w e (.mark .closeParen :: rest))
    (hhead : ∀ ts, kindsOf ts = w ++ .mark .closeParen :: rest → head? ts = none) :
    Accepts (atom expr) (enclosed w) e rest := by
  refine .parenthesised (.advance (.get fun ts hts => ?_))
  rw [hhead ts.tokens (hts.trans (List.append_assoc ..))]
  exact .bind h (.expect (.pure e))

/-- A word that an item is read from, up to a comma or the closing mark. -/
def IsItem {α : Type} (item : Rule α) (closing : Mark) (w : Word) (a : α) : Prop :=
  w ≠ [] ∧ ahead w ≠ .mark closing ∧
    ∀ rest, ahead rest = .mark .comma ∨ ahead rest = .mark closing → Accepts item w a rest

theorem Accepts.items {α : Type} {item : Rule α} {closing : Mark} {orClosing : String}
    (hclosing : closing ≠ .comma) {parts : List (Word × α)}
    (hparts : ∀ p ∈ parts, IsItem item closing p.1 p.2) {fuel : List Token}
    (hfuel : parts.length < fuel.length) :
    Accepts (Parser.items closing orClosing item fuel)
      (commas (parts.map (·.1)) ++ [.mark closing]) (parts.map (·.2)) rest := by
  induction parts generalizing fuel with
  | nil =>
    obtain ⟨t, fuel, rfl⟩ := List.exists_cons_of_length_pos hfuel
    exact .atMark_here (w := []) (.advance (.pure []))
  | cons p parts ih =>
    obtain ⟨t, fuel, rfl⟩ := List.exists_cons_of_length_pos (Nat.zero_lt_of_lt hfuel)
    obtain ⟨⟨hne, hahead, hitem⟩, hparts⟩ := List.forall_mem_cons.mp hparts
    have hfront (w : Word) : ahead (p.1 ++ w) ≠ .mark closing := by
      obtain ⟨k, v, hv⟩ := List.exists_cons_of_ne_nil hne
      rw [hv] at hahead ⊢
      exact hahead
    by_cases hlast : parts = []
    · subst hlast
      have hword : commas ([p].map (·.1)) = p.1 := by simp [commas]
      rw [hword]
      refine .atMark_other (List.append_assoc p.1 _ _ ▸ hfront _) ?_
      exact .bind (hitem _ (.inr rfl)) (.atMark_here (w := []) (.advance (.pure [p.2])))
    · have hword : commas ((p :: parts).map (·.1)) ++ [.mark closing] =
          p.1 ++ .mark .comma :: (commas (parts.map (·.1)) ++ [.mark closing]) := by
        rw [List.map_cons, commas_cons _ (mt List.map_eq_nil_iff.mp hlast), List.append_assoc,
          List.cons_append]
      rw [hword]
      refine .atMark_other (List.append_assoc p.1 _ _ ▸ hfront _) ?_
      refine .bind (hitem _ (.inl rfl)) (.atMark_other (by simp [hclosing.symm]) ?_)
      exact .expect (.bind_pure (ih hparts (Nat.lt_of_succ_lt_succ hfuel)))

theorem Accepts.list {α : Type} {item : Rule α} {opening closing : Mark} {orClosing : String}
    (hclosing : closing ≠ .comma) {parts : List (Word × α)}
    (hparts : ∀ p ∈ parts, IsItem item closing p.1 p.2) :
    Accepts (Parser.list closing orClosing item)
      (.mark opening :: commas (parts.map (·.1)) ++ [.mark closing]) (parts.map (·.2)) rest := by
  refine .get fun ts hts => .advance (.items hclosing hparts ?_)
  have hlength : ts.tokens.length = ts.kinds.length := (List.length_map _).symm
  have hcommas := length_le_commas (parts.map (·.1))
  rw [List.length_map] at hcommas
  rw [hlength, hts]
  simp only [List.length_append, List.length_cons]
  omega

theorem Accepts.array {parts : List (Word × Expr)}
    (hparts : ∀ p ∈ parts, IsItem expr .closeBracket p.1 p.2) :
    Accepts (atom expr) (.mark .openBracket :: commas (parts.map (·.1)) ++ [.mark .closeBracket])
      (.array (parts.map (·.2))) rest := by
  refine .get fun ts hts => ?_
  rw [numeral?_eq_none (by simp [hts]) (by simp [hts, isNumber]), ts.kind_eq, hts]
  exact .bind_pure (.list (by decide) hparts)

theorem Accepts.object {parts : List (Word × (String × Expr))}
    (hparts : ∀ p ∈ parts, IsItem (objectMember expr) .closeBrace p.1 p.2) :
    Accepts (atom expr) (.mark .openBrace :: commas (parts.map (·.1)) ++ [.mark .closeBrace])
      (.object (parts.map (·.2))) rest := by
  refine .get fun ts hts => ?_
  rw [numeral?_eq_none (by simp [hts]) (by simp [hts, isNumber]), ts.kind_eq, hts]
  exact .bind_pure (.list (by decide) hparts)

theorem Accepts.call {parts : List (Word × Expr)}
    (hparts : ∀ p ∈ parts, IsItem expr .closeParen p.1 p.2) :
    Accepts (atom expr) (.name s :: enclosed (commas (parts.map (·.1))))
      (.call none s (parts.map (·.2))) rest :=
  .named (.advance (.peek (.bind_pure (.list (by decide) hparts))))

theorem Accepts.objectMember (h : Accepts expr w e rest) :
    Accepts (Parser.objectMember expr) (.string s :: .mark .colon :: w) (s, e) rest :=
  .peek (.advance (.bind (v := []) (.pure s) (.expect (.bind_pure h))))

theorem run_suffixes_of_startsSuffix_eq {ts : Input} (h : startsSuffix ts.kind = false)
    (fuel : List Token) : (suffixes expr fuel e).run ts = .ok (e, ts) := by
  cases fuel with
  | nil => rfl
  | cons t fuel =>
    rw [suffixes, run_peek_bind]
    split
    · simp_all [startsSuffix]
    · simp_all [startsSuffix]
    · rfl

theorem Accepts.noSuffix (h : startsSuffix (ahead rest) = false) (fuel : List Token) :
    Accepts (suffixes expr fuel e) [] e rest := by
  intro ts hts
  refine ⟨ts, hts, run_suffixes_of_startsSuffix_eq ?_ fuel⟩
  rw [ts.kind_eq, hts]
  exact h

theorem Accepts.postfixed (h : Accepts (atom expr) w e rest)
    (hrest : startsSuffix (ahead rest) = false) : Accepts (Parser.postfixed expr) w e rest :=
  .bind_end h (.get fun ts _ => .noSuffix hrest ts.tokens)

/-- An atom with one suffix. -/
theorem Accepts.suffix {k : Token.Kind} {e' : Expr}
    (h : Accepts (atom expr) v e (k :: (w ++ rest)))
    (hsuffix : ∀ t fuel, Accepts (suffixes expr (t :: fuel) e) (k :: w) e' rest) :
    Accepts (Parser.postfixed expr) (v ++ k :: w) e' rest := by
  refine .bind h (.get fun ts hts => ?_)
  cases htokens : ts.tokens with
  | nil => simp [Input.kinds, htokens] at hts
  | cons t fuel => exact hsuffix t fuel

theorem Accepts.member (h : Accepts (atom expr) w e (.mark .dot :: .name s :: rest))
    (hrest : startsSuffix (ahead rest) = false) (hparen : ahead rest ≠ .mark .openParen) :
    Accepts (Parser.postfixed expr) (w ++ [.mark .dot, .name s]) (.member e s) rest :=
  .suffix (w := [.name s]) h fun _ fuel =>
    .peek (.advance (.expectName (.atMark_other hparen (.noSuffix hrest fuel))))

theorem Accepts.method {parts : List (Word × Expr)}
    (h : Accepts (atom expr) w e
      (.mark .dot :: .name s :: (enclosed (commas (parts.map (·.1))) ++ rest)))
    (hparts : ∀ p ∈ parts, IsItem expr .closeParen p.1 p.2)
    (hrest : startsSuffix (ahead rest) = false) :
    Accepts (Parser.postfixed expr)
      (w ++ .mark .dot :: .name s :: enclosed (commas (parts.map (·.1))))
      (.call (some e) s (parts.map (·.2))) rest :=
  .suffix (w := .name s :: enclosed (commas (parts.map (·.1)))) h fun _ fuel =>
    .peek (.advance (.expectName (.atMark_here (.bind_end (.list (by decide) hparts)
      (.noSuffix hrest fuel)))))

theorem Accepts.index
    (h : Accepts (atom expr) v e (.mark .openBracket :: (w ++ .mark .closeBracket :: rest)))
    (hi : Accepts expr w i (.mark .closeBracket :: rest))
    (hrest : startsSuffix (ahead rest) = false) :
    Accepts (Parser.postfixed expr) (v ++ .mark .openBracket :: w ++ [.mark .closeBracket])
      (.index e i) rest := by
  rw [List.append_assoc, List.cons_append]
  refine .suffix (by simpa using h) fun _ fuel => ?_
  exact .peek (.advance (.bind hi (.expect (.noSuffix hrest fuel))))

theorem Accepts.bare (h : Accepts (Parser.postfixed expr) w e rest)
    (hnot : ahead (w ++ rest) ≠ .mark .not)
    (hminus : ahead (w ++ rest) = .mark .minus → StartsInNumber (w ++ rest).tail) :
    Accepts (prefixed expr operand) w e rest := by
  refine .get fun ts hts => ?_
  have hnone : prefixOp? ts = none := by
    rw [Option.eq_none_iff_forall_ne_some]
    intro op hop
    rw [prefixOp?_eq_some_iff, ts.kinds_tail, ts.kind_eq, hts] at hop
    rcases hop with ⟨-, hkind⟩ | ⟨-, hkind, hnumber⟩
    · exact hnot hkind
    · exact hnumber (hminus hkind)
  rw [hnone]
  exact h

theorem Accepts.unary {op : UnaryOp} (h : Accepts operand w e rest)
    (hnumber : ¬ StartsInNumber (w ++ rest)) :
    Accepts (prefixed expr operand) (.mark op.mark :: w) (.unary op e) rest := by
  refine .get fun ts hts => ?_
  have hop : prefixOp? ts = some op := by
    rw [prefixOp?_eq_some_iff, ts.kinds_tail, ts.kind_eq, hts]
    cases op with
    | not => exact .inl ⟨rfl, rfl⟩
    | negate => exact .inr ⟨rfl, rfl, hnumber⟩
  rw [hop]
  exact .advance (.bind_pure h)

end

section

variable {expr operand unary branch : Rule Expr} {u v w : Word} {e test yes no left right : Expr}

theorem Accepts.bareOperation {x : Expr} (h : Accepts unary w x rest)
    (hrest : ∀ l, Passes l rest) (hrange : ahead rest ≠ .mark .range) :
    Accepts (Parser.operation unary) w x rest :=
  (h.operandRule (l := .disjunction) (fun l _ => hrest l) hrange).leftAssoc (hrest .disjunction)

theorem Accepts.binaryLayer {op : BinaryOp}
    (hleft : Accepts unary v left (.mark op.mark :: (w ++ rest)))
    (hright : Accepts unary w right rest) (hrest : Closes (ahead rest)) :
    Accepts (Parser.leftAssoc (levelOf op.layer) (Parser.operandRule unary op.layer))
      (v ++ .mark op.mark :: w) (.binary op left right) rest := by
  have hpass := passes_of_closes hrest
  have hrange : ahead rest ≠ .mark .range := hrest.ne id
  have hmark : ahead (.mark op.mark :: (w ++ rest)) ≠ .mark .range := mark_ne_of_operatorOf rfl op
  have hleft := hleft.operandRule (l := op.layer) (fun l hl => passes_of_ne hl _) hmark
  have hright := hright.operandRule (l := op.layer) (fun l _ => hpass l) hrange
  exact hleft.binary hright (hpass op.layer)

theorem Accepts.binaryOperation {op : BinaryOp}
    (hleft : Accepts unary v left (.mark op.mark :: (w ++ rest)))
    (hright : Accepts unary w right rest) (hrest : Closes (ahead rest)) :
    Accepts (Parser.operation unary) (v ++ .mark op.mark :: w) (.binary op left right) rest :=
  (hleft.binaryLayer hright hrest).operation (passes_of_closes hrest) (hrest.ne id)

/-- Sums of products, which both ends of a range are. -/
def additive (unary : Rule Expr) : Rule Expr :=
  leftAssoc sum (leftAssoc product unary)

theorem Accepts.rangeOfSums (hleft : Accepts unary v left (.mark .range :: (w ++ rest)))
    (hright : Accepts (additive unary) w right rest) (hrest : Closes (ahead rest)) :
    Accepts (Parser.operation unary) (v ++ .mark .range :: w) (.range left right) rest := by
  have hpass := passes_of_closes hrest
  have hmark (l : Layer) := passes_of_operatorOf (m := .range) rfl l (w ++ rest)
  have hleft : Accepts (additive unary) v left (.mark .range :: (w ++ rest)) :=
    (hleft.leftAssoc (hmark .product)).leftAssoc (hmark .sum)
  exact ((((hleft.range hright).leftAssoc (hpass .relation)).leftAssoc (hpass .equality)).leftAssoc
    (hpass .conjunction)).leftAssoc (hpass .disjunction)

theorem Accepts.rangeOperation (hleft : Accepts unary v left (.mark .range :: (w ++ rest)))
    (hright : Accepts unary w right rest) (hrest : Closes (ahead rest)) :
    Accepts (Parser.operation unary) (v ++ .mark .range :: w) (.range left right) rest := by
  have hpass := passes_of_closes hrest
  exact hleft.rangeOfSums ((hright.leftAssoc (hpass .product)).leftAssoc (hpass .sum)) hrest

theorem Accepts.choiceless {x : Expr} (h : Accepts (Parser.operation unary) w x rest)
    (hrest : Closes (ahead rest)) : Accepts (choice unary branch) w x rest :=
  .bind_end h (.atMark_other (hrest.ne id) (.pure x))

theorem Accepts.conditional
    (htest : Accepts unary u test (.mark .question :: (v ++ .mark .colon :: w ++ rest)))
    (hyes : Accepts branch v yes (.mark .colon :: (w ++ rest))) (hno : Accepts branch w no rest) :
    Accepts (choice unary branch) (u ++ .mark .question :: v ++ .mark .colon :: w)
      (.conditional test yes no) rest := by
  have hpass (l : Layer) :=
    passes_of_operatorOf (m := .question) rfl l (v ++ .mark .colon :: w ++ rest)
  rw [List.append_assoc, List.cons_append]
  refine .bind (htest.bareOperation hpass nofun) (.atMark_here (.advance ?_))
  exact .bind hyes (.expect (.bind_pure hno))

end

end Parser

/-- What the rule of expressions accepts as a whole is the outcome of the parser. -/
theorem parse_of_accepts {tokens : List Token} {limit : Nat} {e : Expr}
    (h : Parser.Accepts (Parser.expression limit limit) (kindsBeforeEnd tokens) e []) :
    parse tokens limit = .ok e := by
  have hkinds : (Parser.Input.ofTokens tokens).kinds = kindsBeforeEnd tokens ++ [] := by
    rw [Parser.Input.kinds_ofTokens, List.append_nil]
  have hwhole : Parser.Accepts (Parser.whole limit) (kindsBeforeEnd tokens) e [] :=
    .bind_end h (.peek (.pure e))
  obtain ⟨ts, -, hrun⟩ := hwhole _ hkinds
  exact map_eq_ok.mpr ⟨(e, ts), hrun, rfl⟩

end Stencil

import Stencil.Proofs.Expr.Lookahead

/-!
# Looking ahead by offsets

A parser can also tell by single tokens what stands ahead, each that far behind the next one, and
take nothing before it has decided. Behind the last token every offset shows the end. Both ways find
the same heads of lambdas and the same ranges.
-/

namespace Stencil.Parser

open Grammar

theorem isMark_eq_false {k : Token.Kind} {m : Mark} (h : k ≠ .mark m) : k.isMark m = false :=
  Bool.eq_false_iff.mpr (mt isMark_iff.mp h)

namespace Input

variable {ts : Input} {offset : Nat}

/-- The kind of the token that far ahead. An offset behind the last token stays at the end. -/
def kindAt (ts : Input) (offset : Nat) : Token.Kind :=
  (ts.kinds ++ [Token.Kind.eof]).get ⟨min offset ts.kinds.length, by
    rw [List.length_append, List.length_singleton]
    omega⟩

theorem kindAt_zero (ts : Input) : ts.kindAt 0 = ts.kind := by
  obtain ⟨tokens, finish⟩ := ts
  cases tokens <;> rfl

theorem kindAt_succ (ts : Input) (offset : Nat) :
    ts.kindAt (offset + 1) = ts.tail.kindAt offset := by
  obtain ⟨tokens, finish⟩ := ts
  cases tokens with
  | nil => simp [kindAt, kinds, tail]
  | cons t rest => simp [kindAt, kinds, tail, Nat.add_min_add_right]

theorem kindAt_one (ts : Input) : ts.kindAt 1 = ts.tail.kind := by
  rw [kindAt_succ, kindAt_zero]

theorem kindAt_two (ts : Input) : ts.kindAt 2 = ts.tail.tail.kind := by
  rw [kindAt_succ, kindAt_one]

theorem kindAt_eq (ts : Input) (offset : Nat) :
    ts.kindAt offset = kind { ts with tokens := ts.tokens.drop offset } := by
  induction offset generalizing ts with
  | zero => exact ts.kindAt_zero
  | succ offset ih => rw [kindAt_succ, ih, tail, List.drop_tail]

theorem lt_length_of_kindAt (h : ts.kindAt offset ≠ .eof) : offset < ts.tokens.length := by
  by_contra hle
  rw [kindAt_eq, List.drop_of_length_le (Nat.not_lt.mp hle)] at h
  exact h rfl

theorem exists_drop_of_kindAt {k : Token.Kind} (h : ts.kindAt offset = k) (hk : k ≠ .eof) :
    ∃ t, ts.tokens.drop offset = t :: ts.tokens.drop (offset + 1) ∧ t.kind = k := by
  have hlt := lt_length_of_kindAt (h.symm ▸ hk)
  refine ⟨ts.tokens[offset], List.drop_eq_getElem_cons hlt, ?_⟩
  rw [← h, kindAt_eq, List.drop_eq_getElem_cons hlt]
  rfl

/-- Whether names with commas between them, a closing parenthesis and an arrow stand ahead, from the
token at this offset on. -/
def isParameterListFrom (ts : Input) (offset : Nat) : Bool :=
  match _ : ts.kindAt offset with
  | .name _ =>
    match ts.kindAt (offset + 1) with
    | .mark .comma => ts.isParameterListFrom (offset + 2)
    | .mark .closeParen => (ts.kindAt (offset + 2)).isMark .arrow
    | _ => false
  | _ => false
termination_by ts.tokens.length - offset
decreasing_by
  have : offset < ts.tokens.length := lt_length_of_kindAt (by simp [*])
  omega

/-- Whether the parenthesis ahead opens the head of a lambda. -/
def isParameterList (ts : Input) : Bool :=
  if (ts.kindAt 1).isMark .closeParen then (ts.kindAt 2).isMark .arrow
  else ts.isParameterListFrom 1

theorem isParameterListFrom_eq (ts : Input) (offset : Nat) :
    ts.isParameterListFrom offset = (params? (ts.tokens.drop offset)).isSome := by
  fun_induction isParameterListFrom ts offset with
  | case1 offset s hs hcomma ih =>
    obtain ⟨t, hdrop, ht⟩ := exists_drop_of_kindAt hs (by simp)
    obtain ⟨u, hdrop', hu⟩ := exists_drop_of_kindAt hcomma (by simp)
    rw [hdrop, hdrop', ih]
    simp [params?, ht, hu, Token.Kind.isMark]
  | case2 offset s hs hclose =>
    obtain ⟨t, hdrop, ht⟩ := exists_drop_of_kindAt hs (by simp)
    obtain ⟨u, hdrop', hu⟩ := exists_drop_of_kindAt hclose (by simp)
    rw [hdrop, hdrop', kindAt_eq]
    cases ts.tokens.drop (offset + 1 + 1) with
    | nil => simp [params?, ht, hu, kind, Token.Kind.isMark]
    | cons v rest =>
      cases hv : v.kind.isMark .arrow <;> simp [params?, ht, hu, isMark_iff, kind, hv]
  | case3 offset s hs hcomma hclose =>
    obtain ⟨t, hdrop, ht⟩ := exists_drop_of_kindAt hs (by simp)
    rw [kindAt_eq] at hcomma hclose
    rw [hdrop]
    cases hrest : ts.tokens.drop (offset + 1) with
    | nil => rfl
    | cons u rest =>
      rw [hrest] at hcomma hclose
      have hnotComma : u.kind.isMark .comma = false := isMark_eq_false hcomma
      have hnotClose : u.kind.isMark .closeParen = false := isMark_eq_false hclose
      simp [params?, ht, hnotComma, hnotClose]
  | case4 offset hs =>
    rw [kindAt_eq] at hs
    cases hdrop : ts.tokens.drop offset with
    | nil => rfl
    | cons t rest =>
      rw [hdrop] at hs
      cases rest with
      | nil => rfl
      | cons u rest =>
        rw [params?]
        split
        · exact absurd ‹_› (hs _)
        · rfl

theorem isParameterList_eq (ts : Input) :
    ts.isParameterList = (head? ts.tail.tokens).isSome := by
  rw [isParameterList, kindAt_one, kindAt_two, isParameterListFrom_eq, List.drop_one]
  obtain ⟨_ | ⟨_, _ | ⟨t, _ | ⟨u, rest⟩⟩⟩, finish⟩ := ts
  · rfl
  · rfl
  · simp only [tail, kind, head?, params?, List.tail_cons, Option.isSome_none]
    split <;> rfl
  · show (if t.kind.isMark .closeParen then u.kind.isMark .arrow
      else (params? (t :: u :: rest)).isSome) = (head? (t :: u :: rest)).isSome
    rw [head?]
    by_cases ht : t.kind.isMark .closeParen
    · rw [if_pos ht, if_pos ht]
      cases u.kind.isMark .arrow <;> rfl
    · rw [if_neg ht, if_neg ht]

/-- The head of a lambda is ahead, with these parameters, and then come the tokens `rest`. -/
def HasHead (ts : Input) (names : List String) (rest : List Token) : Prop :=
  ∃ taken, ts.tokens = taken ++ rest ∧
    kindsOf taken = .mark .openParen :: parameters names ++ [.mark .closeParen, .mark .arrow]

theorem hasHead_iff (hopen : ts.kind = .mark .openParen) {names : List String}
    {rest : List Token} : ts.HasHead names rest ↔ head? ts.tail.tokens = some (names, rest) := by
  rw [head?_eq_some_iff]
  obtain ⟨_ | ⟨t, tokens⟩, finish⟩ := ts
  · cases hopen
  · constructor
    · rintro ⟨taken, htokens, hkinds⟩
      obtain ⟨t', taken, rfl, -, hkinds⟩ := List.map_eq_cons_iff.mp hkinds
      exact ⟨taken, (List.cons.inj htokens).2, hkinds⟩
    · rintro ⟨taken, htokens, hkinds⟩
      exact ⟨t :: taken, congrArg (t :: ·) htokens, congrArg₂ (· :: ·) hopen hkinds⟩

theorem isParameterList_iff (hopen : ts.kind = .mark .openParen) :
    ts.isParameterList ↔ ∃ names rest, ts.HasHead names rest := by
  rw [isParameterList_eq, Option.isSome_iff_exists, Prod.exists]
  simp only [hasHead_iff hopen]

/-- How far ahead a number ends that starts right behind the next token. -/
def boundEnd? (ts : Input) : Option Nat :=
  match ts.kindAt 1 with
  | .mark .minus => if isNumber (ts.kindAt 2) then some 3 else none
  | k => if isNumber k then some 2 else none

/-- Whether `..` and a number are ahead, and a member or an index that takes the whole range. -/
def commitsToRange (ts : Input) : Bool :=
  match ts.boundEnd? with
  | some offset => ts.kind.isMark .range && startsSuffix (ts.kindAt offset)
  | none => false

theorem ite_isNumber {α : Type} (k : Token.Kind) (a : α) :
    (if isNumber k then some a else none) = (number? k).map fun _ => a := by
  cases k <;> rfl

theorem boundEnd?_of_minus (h : ts.tail.kind = .mark .minus) :
    ts.boundEnd? = (number? ts.tail.tail.kind).map fun _ => 3 := by
  rw [boundEnd?, kindAt_one, kindAt_two, h, ← ite_isNumber]

theorem boundEnd?_of_ne_minus (h : ts.tail.kind ≠ .mark .minus) :
    ts.boundEnd? = (number? ts.tail.kind).map fun _ => 2 := by
  rw [boundEnd?, kindAt_one, ← ite_isNumber]
  split
  · exact absurd ‹_› h
  · rfl

/-- A number stands behind the next token exactly if an end of it is found. -/
theorem literal?_tail (ts : Input) :
    (∃ e offset, ts.boundEnd? = some offset ∧
      literal? ts.tail.tokens = some (e, ts.tokens.drop offset)) ∨
    ts.boundEnd? = none ∧ literal? ts.tail.tokens = none := by
  by_cases hminus : ts.tail.kind = .mark .minus
  · rw [boundEnd?_of_minus hminus]
    obtain ⟨_ | ⟨t, _ | ⟨u, _ | ⟨v, rest⟩⟩⟩, finish⟩ := ts
    · cases hminus
    · cases hminus
    · have hu : u.kind = .mark .minus := hminus
      exact .inr ⟨rfl, by simp [tail, literal?, hu]⟩
    · simp only [tail, List.tail_cons, kind, literal?_minus hminus]
      cases number? v.kind with
      | none => exact .inr ⟨rfl, rfl⟩
      | some e => exact .inl ⟨negated e, 3, rfl, rfl⟩
  · rw [boundEnd?_of_ne_minus hminus]
    obtain ⟨_ | ⟨t, _ | ⟨u, rest⟩⟩, finish⟩ := ts
    · exact .inr ⟨rfl, rfl⟩
    · exact .inr ⟨rfl, rfl⟩
    · simp only [tail, List.tail_cons, kind, literal?_of_ne_minus hminus]
      cases number? u.kind with
      | none => exact .inr ⟨rfl, rfl⟩
      | some e => exact .inl ⟨e, 2, rfl, rfl⟩

theorem bound?_of_literal? {t : Token} {tokens rest : List Token} {e : Expr}
    (h : literal? tokens = some (e, rest)) (finish : Nat) :
    (bound? (t :: tokens)).isSome =
      (t.kind.isMark .range && startsSuffix (kind ⟨rest, finish⟩)) := by
  rw [bound?, h]
  cases t.kind.isMark .range with
  | false => rfl
  | true =>
    cases rest with
    | nil => rfl
    | cons u rest =>
      simp only [kind, startsSuffix_eq, if_true, Bool.true_and]
      cases u.kind.isMark .dot || u.kind.isMark .openBracket <;> rfl

theorem commitsToRange_eq (ts : Input) : ts.commitsToRange = (bound? ts.tokens).isSome := by
  rw [commitsToRange]
  obtain ⟨e, offset, hend, hliteral⟩ | ⟨hend, hliteral⟩ := ts.literal?_tail
  · rw [hend]
    dsimp only
    rw [kindAt_eq]
    obtain ⟨_ | ⟨t, tokens⟩, finish⟩ := ts
    · cases hliteral
    · exact (bound?_of_literal? hliteral finish).symm
  · rw [hend]
    obtain ⟨_ | ⟨t, tokens⟩, finish⟩ := ts
    · rfl
    · have hbound : literal? tokens = none := hliteral
      simp [bound?, hbound]

theorem literal?_of_number (h : isNumber ts.kind) :
    ∃ e rest, literal? ts.tokens = some (e, rest) := by
  rw [← number?_isSome] at h
  obtain ⟨_ | ⟨t, tokens⟩, finish⟩ := ts
  · cases h
  · obtain ⟨e, he⟩ := Option.isSome_iff_exists.mp h
    have hnumber : number? t.kind = some e := he
    have hminus : t.kind ≠ .mark .minus := by
      intro hminus
      rw [hminus] at hnumber
      cases hnumber
    exact ⟨e, tokens, by simp [literal?_of_ne_minus hminus, hnumber]⟩

theorem literal?_of_minus (hminus : ts.kind = .mark .minus) (h : isNumber ts.tail.kind) :
    ∃ e rest, literal? ts.tokens = some (e, rest) := by
  rw [← number?_isSome] at h
  obtain ⟨_ | ⟨t, _ | ⟨u, tokens⟩⟩, finish⟩ := ts
  · cases h
  · cases h
  · obtain ⟨e, he⟩ := Option.isSome_iff_exists.mp h
    have hnumber : number? u.kind = some e := he
    exact ⟨negated e, tokens, by simp [literal?_minus hminus, hnumber]⟩

theorem literal?_of_open (h : ts.kind = .mark .openParen) : literal? ts.tokens = none := by
  obtain ⟨_ | ⟨t, tokens⟩, finish⟩ := ts
  · rfl
  · have ht : t.kind = .mark .openParen := h
    rw [literal?_of_ne_minus (by simp [ht]), ht]
    rfl

theorem prefixOp?_eq (ts : Input) : prefixOp? ts =
    match ts.kind with
    | .mark .not => some .not
    | .mark .minus => if isNumber (ts.kindAt 1) then none else some .negate
    | _ => none := by
  rw [kindAt_one]
  obtain ⟨_ | ⟨t, _ | ⟨u, tokens⟩⟩, finish⟩ := ts
  · rfl
  · rfl
  · simp only [prefixOp?, number?_isSome]
    rfl

end Input

end Stencil.Parser

import Stencil.Proofs.Expr.Lookahead

/-!
# Every parsed source is derived by the grammar

Each rule of the parser takes a word of its category and gives the tree of it. A word that ends in a
number is settled by what follows: the number is no bound of a range that a suffix takes as a whole.
-/

namespace Stencil

namespace Grammar

theorem endsInNumber_append_mark (v : Word) (m : Mark) (w : Word) :
    EndsInNumber (v ++ .mark m :: w) ↔ EndsInNumber w := by
  rw [EndsInNumber, EndsInNumber, List.getLast?_append, List.getLast?_cons]
  cases w.getLast? <;> simp [isNumber]

/-- A number at the end of a word is no first bound of a range with a suffix. -/
def Settled (w rest : Word) : Prop :=
  EndsInNumber w → ∀ v, rest = .mark .range :: v → ¬ StartsInBound v

theorem Settled.of_append_mark {v w rest : Word} {m : Mark} (h : Settled w rest) :
    Settled (v ++ .mark m :: w) rest :=
  fun hw => h ((endsInNumber_append_mark v m w).mp hw)

theorem Settled.of_not {w rest : Word} (h : ¬ EndsInNumber w) : Settled w rest :=
  fun hw => absurd hw h

theorem Settled.of_last {w rest : Word} {k : Token.Kind} (h : isNumber k = false) :
    Settled (w ++ [k]) rest :=
  .of_not (by simp [EndsInNumber, h])

theorem StartsInNumber.append {w : Word} (h : StartsInNumber w) (rest : Word) :
    StartsInNumber (w ++ rest) := by
  obtain ⟨k, hk, hnumber⟩ := h
  refine ⟨k, ?_, hnumber⟩
  rw [List.head?_append, Option.mem_def.mp hk]
  rfl

theorem StartsInBound.append {w : Word} (h : StartsInBound w) (rest : Word) :
    StartsInBound (w ++ rest) := by
  obtain ⟨v, e, after, hliteral, rfl, k, hk, hsuffix⟩ := h
  refine ⟨v, e, after ++ rest, hliteral, List.append_assoc .., k, ?_, hsuffix⟩
  rw [List.head?_append, Option.mem_def.mp hk]
  rfl

theorem Listed.cons {v w : Word} {ws : List Word} (h : Listed ws w) :
    Listed (v :: ws) (v ++ .mark .comma :: w) := by
  cases ws with
  | nil =>
    cases h with
    | plain =>
      have h : Listed [v] _ := .trailing (List.cons_ne_nil _ _)
      simpa using h
    | trailing h => exact absurd rfl h
  | cons u us =>
    cases h with
    | plain =>
      have h : Listed (v :: u :: us) _ := .plain
      rw [List.intercalate_cons_cons] at h
      simpa using h
    | trailing =>
      have h : Listed (v :: u :: us) _ := .trailing (List.cons_ne_nil _ _)
      rw [List.intercalate_cons_cons] at h
      simpa using h

end Grammar

namespace Parser

open Grammar

/-- Whatever a rule takes from the front, with what it returns and what it leaves, is as said. -/
def Reads {α : Type} (rule : Rule α) (P : Word → α → Word → Prop) : Prop :=
  ∀ ⦃ts a ts'⦄, rule.run ts = .ok (a, ts') → ∃ w, ts.kinds = w ++ ts'.kinds ∧ P w a ts'.kinds

/-- Whatever a rule takes is a word of a category. -/
def ReadsPhrase (c : Category) (rule : Rule Expr) : Prop :=
  Reads rule fun w e rest => Derives c w e ∧ Settled w rest

variable {expr : Rule Expr}

theorem ReadsPhrase.phrases (h : ReadsPhrase .expression expr) :
    Reads expr fun w e _ => Derives .expression w e := by
  intro ts e ts' hrun
  obtain ⟨w, hw, hderives, -⟩ := h hrun
  exact ⟨w, hw, hderives⟩

theorem chain_reads {l : Layer} {operand : Rule Expr} (h : ReadsPhrase (operandOf l) operand)
    {fuel : List Token} {left e : Expr} {ts ts' : Input} {v : Word}
    (hleft : Derives (.layer l) v left) (hsettled : Settled v ts.kinds)
    (hrun : (chain (levelOf l) operand fuel left).run ts = .ok (e, ts')) :
    ∃ w, ts.kinds = w ++ ts'.kinds ∧ Derives (.layer l) (v ++ w) e ∧
      Settled (v ++ w) ts'.kinds := by
  induction fuel generalizing left ts v with
  | nil =>
    obtain ⟨rfl, rfl⟩ := run_pure_eq_ok.mp hrun
    exact ⟨[], rfl, by simpa using hleft, by simpa using hsettled⟩
  | cons t fuel ih =>
    obtain ⟨o, _, hoperator, hrun⟩ := run_bind_eq_ok.mp hrun
    obtain ⟨ho, rfl⟩ := run_operator?_eq_ok.mp hoperator
    cases o with
    | none =>
      obtain ⟨rfl, rfl⟩ := run_pure_eq_ok.mp hrun
      exact ⟨[], rfl, by simpa using hleft, by simpa using hsettled⟩
    | some op =>
      obtain ⟨rfl, hmark⟩ := (ho op).mp rfl
      rw [run_advance_bind] at hrun
      obtain ⟨right, ts₂, hright, hrun⟩ := run_bind_eq_ok.mp hrun
      obtain ⟨w, hw, hderives, hsettled'⟩ := h hright
      obtain ⟨w', hw', hrest⟩ := ih (.binary hleft hderives) hsettled'.of_append_mark hrun
      refine ⟨.mark op.mark :: w ++ w', ?_, by simpa using hrest⟩
      rw [Input.kinds_of_mark hmark, hw, hw', List.cons_append, List.cons_append,
        List.append_assoc]

theorem leftAssoc_reads {l : Layer} {operand : Rule Expr} (h : ReadsPhrase (operandOf l) operand) :
    ReadsPhrase (.layer l) (leftAssoc (levelOf l) operand) := by
  intro ts e ts' hrun
  obtain ⟨left, ts₁, hleft, hrun⟩ := run_bind_eq_ok.mp hrun
  rw [run_get_bind] at hrun
  obtain ⟨v, hv, hderives, hsettled⟩ := h hleft
  obtain ⟨w, hw, hrest⟩ := chain_reads h (.operand hderives) hsettled hrun
  exact ⟨v ++ w, by rw [hv, hw, List.append_assoc], hrest⟩

theorem rangeOf_reads {operand : Rule Expr} (h : ReadsPhrase (.layer .sum) operand) :
    ReadsPhrase .range (rangeOf operand) := by
  intro ts e ts' hrun
  obtain ⟨first, ts₁, hfirst, hrun⟩ := run_bind_eq_ok.mp hrun
  rw [run_atMark_bind] at hrun
  obtain ⟨v, hv, hderives, hsettled⟩ := h hfirst
  split at hrun
  · rename_i hrange
    rw [isMark_iff] at hrange
    rw [run_advance_bind] at hrun
    obtain ⟨last, hlast, rfl⟩ := run_map_eq_ok.mp hrun
    obtain ⟨w, hw, hderives', hsettled'⟩ := h hlast
    have hkinds := Input.kinds_of_mark hrange
    refine ⟨v ++ .mark .range :: w, ?_, .range hderives hderives' ?_, hsettled'.of_append_mark⟩
    · rw [hv, hkinds, hw, List.append_assoc, List.cons_append]
    · rintro ⟨hends, hbound⟩
      exact hsettled hends _ hkinds (hw ▸ hbound.append _)
  · obtain ⟨rfl, rfl⟩ := run_pure_eq_ok.mp hrun
    exact ⟨v, hv, .single hderives, hsettled⟩

theorem operation_reads {unary : Rule Expr} (h : ReadsPhrase .prefixed unary) :
    ReadsPhrase (.layer .disjunction) (operation unary) :=
  leftAssoc_reads (l := .disjunction) <| leftAssoc_reads (l := .conjunction) <|
    leftAssoc_reads (l := .equality) <| leftAssoc_reads (l := .relation) <| rangeOf_reads <|
      leftAssoc_reads (l := .sum) <| leftAssoc_reads (l := .product) h

theorem choice_reads {unary branch : Rule Expr} (hunary : ReadsPhrase .prefixed unary)
    (hbranch : ReadsPhrase .expression branch) :
    ReadsPhrase .expression (choice unary branch) := by
  intro ts e ts' hrun
  obtain ⟨test, ts₁, htest, hrun⟩ := run_bind_eq_ok.mp hrun
  rw [run_atMark_bind] at hrun
  obtain ⟨u, hu, hderives, hsettled⟩ := operation_reads hunary htest
  split at hrun
  · rename_i hquestion
    rw [run_advance_bind] at hrun
    obtain ⟨yes, ts₂, hyes, hrun⟩ := run_bind_eq_ok.mp hrun
    obtain ⟨hcolon, hrun⟩ := run_expect_bind_eq_ok.mp hrun
    obtain ⟨no, hno, rfl⟩ := run_map_eq_ok.mp hrun
    obtain ⟨v, hv, hderives', -⟩ := hbranch hyes
    obtain ⟨w, hw, hderives'', hsettled''⟩ := hbranch hno
    refine ⟨_, ?_, .conditional hderives hderives' hderives'', hsettled''.of_append_mark⟩
    rw [hu, Input.kinds_of_mark (isMark_iff.mp hquestion), hv, Input.kinds_of_mark hcolon, hw]
    simp
  · obtain ⟨rfl, rfl⟩ := run_pure_eq_ok.mp hrun
    exact ⟨u, hu, .choiceless hderives, hsettled⟩

/-- Words of items with commas between them, and the closing mark. -/
def IsList {α : Type} (P : Word → α → Prop) (closing : Mark) (w : Word) (as : List α) : Prop :=
  ∃ (parts : List (Word × α)) (v : Word), (∀ p ∈ parts, P p.1 p.2) ∧
    Listed (parts.map (·.1)) v ∧ w = v ++ [.mark closing] ∧ as = parts.map (·.2)

theorem items_reads {α : Type} {P : Word → α → Prop} {item : Rule α}
    (h : Reads item fun w a _ => P w a) (closing : Mark) (orClosing : String) (fuel : List Token) :
    Reads (items closing orClosing item fuel) fun w as _ => IsList P closing w as := by
  induction fuel with
  | nil => exact fun ts as ts' hrun => absurd hrun (run_fail_ne_ok _)
  | cons t fuel ih =>
    intro ts as ts' hrun
    rw [items, run_atMark_bind] at hrun
    split at hrun
    · rename_i hclosing
      rw [run_advance_bind] at hrun
      obtain ⟨rfl, rfl⟩ := run_pure_eq_ok.mp hrun
      exact ⟨[.mark closing], Input.kinds_of_mark (isMark_iff.mp hclosing), [], [], nofun, .plain,
        rfl, rfl⟩
    · obtain ⟨a, ts₁, ha, hrun⟩ := run_bind_eq_ok.mp hrun
      obtain ⟨w, hw, hword⟩ := h ha
      rw [run_atMark_bind] at hrun
      split at hrun
      · rename_i hclosing
        rw [run_advance_bind] at hrun
        obtain ⟨rfl, rfl⟩ := run_pure_eq_ok.mp hrun
        refine ⟨w ++ [.mark closing], ?_, [(w, a)], w, by simpa using hword, ?_, rfl, rfl⟩
        · rw [hw, Input.kinds_of_mark (isMark_iff.mp hclosing), List.append_assoc]
          rfl
        · have h : Listed [w] _ := .plain
          simpa using h
      · obtain ⟨hcomma, hrun⟩ := run_expect_bind_eq_ok.mp hrun
        obtain ⟨as', has, rfl⟩ := run_map_eq_ok.mp hrun
        obtain ⟨_, hrest, parts, v, hparts, hlisted, rfl, rfl⟩ := ih has
        refine ⟨w ++ .mark .comma :: v ++ [.mark closing], ?_, (w, a) :: parts, _,
          List.forall_mem_cons.mpr ⟨hword, hparts⟩, hlisted.cons, rfl, rfl⟩
        rw [hw, Input.kinds_of_mark hcomma, hrest]
        simp

theorem list_reads {α : Type} {P : Word → α → Prop} {item : Rule α}
    (h : Reads item fun w a _ => P w a) {opening closing : Mark} {orClosing : String}
    {ts ts' : Input} {as : List α} (hopening : ts.kind = .mark opening)
    (hrun : (list closing orClosing item).run ts = .ok (as, ts')) :
    ∃ w, ts.kinds = .mark opening :: w ++ ts'.kinds ∧ IsList P closing w as := by
  rw [list, run_get_bind, run_advance_bind] at hrun
  obtain ⟨w, hw, hlist⟩ := items_reads h closing orClosing _ hrun
  exact ⟨w, by rw [Input.kinds_of_mark hopening, hw, List.cons_append], hlist⟩

theorem objectMember_reads (h : ReadsPhrase .expression expr) :
    Reads (objectMember expr) fun w a _ => DerivesMember w a := by
  intro ts a ts' hrun
  have hvalue (name : String) (ts₁ : Input)
      (hrun : (do expect .colon "':'"; return (name, ← expr) : Rule (String × Expr)).run ts₁ =
        .ok (a, ts')) :
      ∃ w e, a = (name, e) ∧ ts₁.kinds = .mark .colon :: w ++ ts'.kinds ∧
        Derives .expression w e := by
    obtain ⟨hcolon, hrun⟩ := run_expect_bind_eq_ok.mp hrun
    obtain ⟨e, he, rfl⟩ := run_map_eq_ok.mp hrun
    obtain ⟨w, hw, hderives, -⟩ := h he
    exact ⟨w, e, rfl, by rw [Input.kinds_of_mark hcolon, hw, List.cons_append], hderives⟩
  rw [objectMember, run_peek_bind] at hrun
  dsimp only at hrun
  split at hrun
  · rename_i hquoted
    rw [run_advance_bind] at hrun
    obtain ⟨w, e, rfl, hkinds, hderives⟩ := hvalue _ _ hrun
    refine ⟨_, ?_, .quoted hderives⟩
    rw [Input.kinds_of_kind hquoted nofun, hkinds]
    rfl
  · rename_i hplain
    rw [run_advance_bind] at hrun
    obtain ⟨w, e, rfl, hkinds, hderives⟩ := hvalue _ _ hrun
    refine ⟨_, ?_, .plain hderives⟩
    rw [Input.kinds_of_kind hplain nofun, hkinds]
    rfl
  · obtain ⟨_, _, hfail, -⟩ := run_bind_eq_ok.mp hrun
    exact absurd hfail (run_fail_ne_ok _)

/-- What stands in front of suffixes, of which there is one ahead if it could not do without. -/
def IsTarget (w : Word) (e : Expr) (rest : Word) : Prop :=
  Derives .target w e ∧ (StartsInSuffix rest ∨ Derives .postfixed w e ∧ Settled w rest)

theorem IsTarget.atom {w rest : Word} {e : Expr} (h : Derives .atom w e)
    (hsettled : Settled w rest) : IsTarget w e rest :=
  ⟨.target (.atomic h), .inr ⟨.atomic h, hsettled⟩⟩

theorem named_reads (h : ReadsPhrase .expression expr) {ts ts' : Input} {name : String} {e : Expr}
    (hname : ts.kind = .name name) (hrun : (named expr name).run ts = .ok (e, ts')) :
    ∃ w, ts.kinds = w ++ ts'.kinds ∧ Derives .atom w e ∧ Settled w ts'.kinds := by
  rw [named, run_advance_bind] at hrun
  have hkinds := Input.kinds_of_kind hname nofun
  rw [run_peek_bind] at hrun
  split at hrun
  · rename_i harrow
    rw [run_advance_bind] at hrun
    obtain ⟨body, hbody, rfl⟩ := run_map_eq_ok.mp hrun
    obtain ⟨w, hw, hderives, hsettled⟩ := h hbody
    refine ⟨_, ?_, .lambda hderives, hsettled.of_append_mark (v := [.name name])⟩
    rw [hkinds, Input.kinds_of_mark harrow, hw]
    rfl
  · rename_i hparen
    obtain ⟨args, hargs, rfl⟩ := run_map_eq_ok.mp hrun
    obtain ⟨_, hw, parts, w, hparts, hlisted, rfl, rfl⟩ := list_reads h.phrases hparen hargs
    refine ⟨_, ?_, .call hparts hlisted, .of_last (w := .name name :: .mark .openParen :: w) rfl⟩
    rw [hkinds, hw]
    simp
  · obtain ⟨rfl, rfl⟩ := run_pure_eq_ok.mp hrun
    exact ⟨[.name name], hkinds, .name, .of_last (w := []) rfl⟩

theorem parenthesised_reads (h : ReadsPhrase .expression expr) {ts ts' : Input} {e : Expr}
    (hopen : ts.kind = .mark .openParen) (hrun : (parenthesised expr).run ts = .ok (e, ts')) :
    ∃ w, ts.kinds = w ++ ts'.kinds ∧ Derives .atom w e ∧ Settled w ts'.kinds := by
  rw [parenthesised, run_advance_bind] at hrun
  have hkinds := Input.kinds_of_mark hopen
  rw [run_get_bind] at hrun
  split at hrun
  · rename_i params rest hhead
    rw [run_set_bind] at hrun
    obtain ⟨body, hbody, rfl⟩ := run_map_eq_ok.mp hrun
    obtain ⟨w, hw, hderives, hsettled⟩ := h hbody
    obtain ⟨taken, htaken, hparams⟩ := head?_eq_some_iff.mp hhead
    refine ⟨_, ?_, .lambdaOf hderives, ?_⟩
    · have htail : ts.tail.kinds = kindsOf taken ++ kindsOf rest := by
        rw [Input.kinds, htaken, List.map_append]
      rw [hkinds, htail, hparams, show kindsOf rest = w ++ ts'.kinds from hw]
      simp
    · exact (hsettled.of_append_mark (v := [])).of_append_mark
  · obtain ⟨a, ts₁, ha, hrun⟩ := run_bind_eq_ok.mp hrun
    obtain ⟨hclose, hrun⟩ := run_expect_bind_eq_ok.mp hrun
    obtain ⟨rfl, rfl⟩ := run_pure_eq_ok.mp hrun
    obtain ⟨w, hw, hderives, -⟩ := h ha
    refine ⟨_, ?_, .group hderives, .of_last (w := .mark .openParen :: w) rfl⟩
    rw [hkinds, hw, Input.kinds_of_mark hclose]
    simp

theorem Numeral.isTarget {w rest : Word} {e : Expr} (h : Numeral w e rest) : IsTarget w e rest := by
  cases h with
  | literal h hrest => exact .atom (.number h) fun _ => hrest
  | range hfirst hlast hsuffix => exact ⟨.literalRange hfirst hlast, .inl hsuffix⟩

theorem atom_reads (h : ReadsPhrase .expression expr) : Reads (atom expr) IsTarget := by
  intro ts e ts' hrun
  rw [atom, run_get_bind] at hrun
  split at hrun
  · rename_i a rest hnumeral
    rw [run_set_bind] at hrun
    obtain ⟨rfl, rfl⟩ := run_pure_eq_ok.mp hrun
    obtain ⟨taken, htokens, hnumber⟩ := numeral?_eq_some_iff.mp hnumeral
    exact ⟨kindsOf taken, (congrArg kindsOf htokens).trans List.map_append, hnumber.isTarget⟩
  · split at hrun
    case h_1 s hs =>
      rw [run_advance_bind] at hrun
      obtain ⟨rfl, rfl⟩ := run_pure_eq_ok.mp hrun
      exact ⟨[.string s], Input.kinds_of_kind hs nofun, .atom .string (.of_last (w := []) rfl)⟩
    case h_2 b hb =>
      rw [run_advance_bind] at hrun
      obtain ⟨rfl, rfl⟩ := run_pure_eq_ok.mp hrun
      exact ⟨[.boolean b], Input.kinds_of_kind hb nofun, .atom .boolean (.of_last (w := []) rfl)⟩
    case h_3 hnull =>
      rw [run_advance_bind] at hrun
      obtain ⟨rfl, rfl⟩ := run_pure_eq_ok.mp hrun
      exact ⟨[.null], Input.kinds_of_kind hnull nofun, .atom .null (.of_last (w := []) rfl)⟩
    case h_4 name hname =>
      obtain ⟨w, hw, hderives, hsettled⟩ := named_reads h hname hrun
      exact ⟨w, hw, .atom hderives hsettled⟩
    case h_5 hopen =>
      obtain ⟨w, hw, hderives, hsettled⟩ := parenthesised_reads h hopen hrun
      exact ⟨w, hw, .atom hderives hsettled⟩
    case h_6 hopen =>
      obtain ⟨as, hlist, rfl⟩ := run_map_eq_ok.mp hrun
      obtain ⟨_, hw, parts, w, hparts, hlisted, rfl, rfl⟩ := list_reads h.phrases hopen hlist
      exact ⟨_, hw, .atom (.array hparts hlisted) (.of_last (w := .mark .openBracket :: w) rfl)⟩
    case h_7 hopen =>
      obtain ⟨as, hlist, rfl⟩ := run_map_eq_ok.mp hrun
      obtain ⟨_, hw, parts, w, hparts, hlisted, rfl, rfl⟩ :=
        list_reads (objectMember_reads h) hopen hlist
      exact ⟨_, hw, .atom (.object hparts hlisted) (.of_last (w := .mark .openBrace :: w) rfl)⟩
    case h_8 => exact absurd hrun (run_fail_ne_ok _)

theorem suffixes_reads (h : ReadsPhrase .expression expr) {fuel : List Token} {e e' : Expr}
    {ts ts' : Input} {v : Word} (htarget : Derives .target v e)
    (hend : fuel = [] ∨ ¬ StartsInSuffix ts.kinds → Derives .postfixed v e ∧ Settled v ts.kinds)
    (hrun : (suffixes expr fuel e).run ts = .ok (e', ts')) :
    ∃ w, ts.kinds = w ++ ts'.kinds ∧ Derives .postfixed (v ++ w) e' ∧
      Settled (v ++ w) ts'.kinds := by
  induction fuel generalizing e ts v with
  | nil =>
    obtain ⟨rfl, rfl⟩ := run_pure_eq_ok.mp hrun
    exact ⟨[], rfl, by simpa using hend (.inl rfl)⟩
  | cons t fuel ih =>
    -- behind a suffix there is no need for another one
    have hnext {e₁ : Expr} {ts₁ : Input} {u : Word} {k : Token.Kind}
        (hkinds : ts.kinds = u ++ k :: ts₁.kinds) (hk : isNumber k = false)
        (hderives : Derives .postfixed (v ++ (u ++ [k])) e₁)
        (hrun : (suffixes expr fuel e₁).run ts₁ = .ok (e', ts')) :
        ∃ w, ts.kinds = w ++ ts'.kinds ∧ Derives .postfixed (v ++ w) e' ∧
          Settled (v ++ w) ts'.kinds := by
      have hsettled : Settled (v ++ (u ++ [k])) ts₁.kinds :=
        List.append_assoc v u [k] ▸ .of_last hk
      obtain ⟨w, hw, hrest⟩ := ih (.target hderives) (fun _ => ⟨hderives, hsettled⟩) hrun
      exact ⟨u ++ [k] ++ w, by simp [hkinds, hw], by rwa [← List.append_assoc]⟩
    rw [suffixes, run_peek_bind] at hrun
    split at hrun
    · rename_i hdot
      rw [run_advance_bind] at hrun
      obtain ⟨name, hname, hrun⟩ := run_expectName_bind_eq_ok.mp hrun
      rw [run_atMark_bind] at hrun
      have hkinds : ts.kinds = .mark .dot :: .name name :: ts.tail.tail.kinds := by
        rw [Input.kinds_of_mark hdot, Input.kinds_of_kind hname nofun]
      split at hrun
      · rename_i hparen
        obtain ⟨args, ts₁, hargs, hrun⟩ := run_bind_eq_ok.mp hrun
        obtain ⟨_, hw, parts, w, hparts, hlisted, rfl, rfl⟩ :=
          list_reads h.phrases (isMark_iff.mp hparen) hargs
        refine hnext (u := .mark .dot :: .name name :: .mark .openParen :: w) ?_ rfl
          (by simpa using Derives.method htarget hparts hlisted) hrun
        rw [hkinds, hw]
        simp
      · exact hnext (u := [.mark .dot]) hkinds rfl (.member htarget) hrun
    · rename_i hbracket
      rw [run_advance_bind] at hrun
      obtain ⟨i, ts₁, hi, hrun⟩ := run_bind_eq_ok.mp hrun
      obtain ⟨hclose, hrun⟩ := run_expect_bind_eq_ok.mp hrun
      obtain ⟨w, hw, hderives, -⟩ := h hi
      refine hnext (u := .mark .openBracket :: w) ?_ rfl
        (by simpa using Derives.index htarget hderives) hrun
      rw [Input.kinds_of_mark hbracket, hw, Input.kinds_of_mark hclose]
      rfl
    · rename_i hdot hbracket
      obtain ⟨rfl, rfl⟩ := run_pure_eq_ok.mp hrun
      have hstop : ¬ StartsInSuffix ts.kinds := fun hsuffix =>
        (startsInSuffix_kinds hsuffix).elim hdot hbracket
      exact ⟨[], rfl, by simpa using hend (.inr hstop)⟩

theorem postfixed_reads (h : ReadsPhrase .expression expr) :
    ReadsPhrase .postfixed (postfixed expr) := by
  intro ts e ts' hrun
  obtain ⟨a, ts₁, ha, hrun⟩ := run_bind_eq_ok.mp hrun
  rw [run_get_bind] at hrun
  obtain ⟨v, hv, htarget, hahead⟩ := atom_reads h ha
  have hend : ts₁.tokens = [] ∨ ¬ StartsInSuffix ts₁.kinds →
      Derives .postfixed v a ∧ Settled v ts₁.kinds := by
    rintro (hnil | hno)
    · refine hahead.resolve_left ?_
      simp [StartsInSuffix, Input.kinds, hnil]
    · exact hahead.resolve_left hno
  obtain ⟨w, hw, hrest⟩ := suffixes_reads h htarget hend hrun
  exact ⟨v ++ w, by rw [hv, hw, List.append_assoc], hrest⟩

theorem prefixed_reads {operand : Rule Expr} (hexpr : ReadsPhrase .expression expr)
    (hoperand : ReadsPhrase .prefixed operand) : ReadsPhrase .prefixed (prefixed expr operand) := by
  intro ts e ts' hrun
  rw [prefixed, run_get_bind] at hrun
  split at hrun
  · rename_i op hop
    rw [run_advance_bind] at hrun
    obtain ⟨a, ha, rfl⟩ := run_map_eq_ok.mp hrun
    obtain ⟨w, hw, hderives, hsettled⟩ := hoperand ha
    rcases prefixOp?_eq_some_iff.mp hop with ⟨rfl, hnot⟩ | ⟨rfl, hminus, hnumber⟩
    · refine ⟨.mark .not :: w, ?_, .not hderives, hsettled.of_append_mark (v := [])⟩
      rw [Input.kinds_of_mark hnot, hw]
      rfl
    · refine ⟨.mark .minus :: w, ?_, .negate hderives ?_, hsettled.of_append_mark (v := [])⟩
      · rw [Input.kinds_of_mark hminus, hw]
        rfl
      · exact fun hw' => hnumber (hw ▸ hw'.append _)
  · obtain ⟨w, hw, hderives, hsettled⟩ := postfixed_reads hexpr hrun
    exact ⟨w, hw, .bare hderives, hsettled⟩

theorem expression_reads (limit depth : Nat) :
    ReadsPhrase .expression (expression limit depth) ∧
      ReadsPhrase .prefixed (operand limit depth) := by
  induction depth with
  | zero => exact ⟨fun _ _ _ h => absurd h (run_tooDeep_ne_ok _),
      fun _ _ _ h => absurd h (run_tooDeep_ne_ok _)⟩
  | succ depth ih =>
    have hprefixed := prefixed_reads ih.1 ih.2
    exact ⟨choice_reads hprefixed ih.1, hprefixed⟩

end Parser

/-- What is parsed is derived by the grammar, with the tree that comes out, from all the kinds in
front of the first end. -/
theorem derives_of_parse {tokens : List Token} {limit : Nat} {e : Expr}
    (h : parse tokens limit = .ok e) :
    Grammar.Derives .expression (kindsBeforeEnd tokens) e := by
  have hkinds := Parser.Input.kinds_ofTokens tokens
  obtain ⟨⟨e, ts⟩, hrun, rfl⟩ := map_eq_ok.mp h
  obtain ⟨e, ts₁, he, hrun⟩ := Parser.run_bind_eq_ok.mp hrun
  obtain ⟨w, hw, hderives, -⟩ := (Parser.expression_reads limit limit).1 he
  rw [Parser.run_peek_bind] at hrun
  split at hrun
  · rename_i hend
    obtain ⟨rfl, rfl⟩ := Parser.run_pure_eq_ok.mp hrun
    rw [hw] at hkinds
    cases hrest : ts₁.kinds with
    | nil => rwa [← hkinds, hrest, List.append_nil]
    | cons k rest =>
      obtain rfl : k = .eof := (Parser.Input.kind_of_kinds hrest).1.symm.trans hend
      have hmem : Token.Kind.eof ∈ kindsBeforeEnd tokens := by
        simp [← hkinds, hrest]
      exact absurd (isEnd_of_mem_kindsBeforeEnd hmem) nofun
  · exact absurd hrun (Parser.run_fail_ne_ok _)

/-- The tokens of `-1..2.x - y..[3,]`, an end, and one more token. -/
def crowdedTokens : List Token :=
  [.mark .minus, .integer 1, .mark .range, .integer 2, .mark .dot, .name "x", .mark .minus,
    .name "y", .mark .range, .mark .openBracket, .integer 3, .mark .comma, .mark .closeBracket,
    .eof, .mark .comma].map fun k => ⟨k, "", 0⟩

def crowdedTree : Expr :=
  .range (.binary (.arith .sub) (.member (.range (.integer (-1)) (.integer 2)) "x") (.name "y"))
    (.array [.integer 3])

theorem derives_of_crowdedTokens :
    parse crowdedTokens 2 = .ok crowdedTree ∧
      Grammar.Derives .expression (kindsBeforeEnd crowdedTokens) crowdedTree :=
  ⟨rfl, derives_of_parse (show parse crowdedTokens 2 = _ from rfl)⟩

end Stencil

import Stencil.Proofs.Expr.Threshold
import Stencil.Proofs.Expr.Twins

/-!
# Exchanging an operand

The parser goes through two sources that differ in an operand side by side. In front of the operand
it does the same in both, and behind it again: if it reads the same from the two operands, it reads
the same from the two sources.
-/

namespace Stencil

namespace Parser

open Grammar

variable {hole hole' : Word} {e : Expr}

variable {α β : Type}

/-- What a rule returns from the first input, the other returns from the second one. What is ahead
then is related by `S`, and neither has put a token back. -/
def Mirrors (S : Input → Input → Prop) (rule rule' : Rule α) (ts ts' : Input) : Prop :=
  ∀ a us, rule.run ts = .ok (a, us) → ∃ us', rule'.run ts' = .ok (a, us') ∧ S us us' ∧
    us.length ≤ ts.length ∧ us'.length ≤ ts'.length

namespace Mirrors

variable {S T : Input → Input → Prop} {ts ts' us us' : Input}

theorem pure {a : α} (h : S ts ts') : Mirrors S (Pure.pure a) (Pure.pure a) ts ts' := by
  intro b us hrun
  obtain ⟨rfl, rfl⟩ := run_pure_eq_ok.mp hrun
  exact ⟨ts', rfl, h, Nat.le_refl _, Nat.le_refl _⟩

theorem of_run_eq {rule rule' : Rule α} {a : α} (h : rule.run ts = .ok (a, ts))
    (h' : rule'.run ts' = .ok (a, ts')) (hS : S ts ts') : Mirrors S rule rule' ts ts' := by
  intro b us hrun
  rw [h] at hrun
  cases hrun
  exact ⟨ts', h', hS, Nat.le_refl _, Nat.le_refl _⟩

theorem fail {rule' : Rule α} (expected : String) :
    Mirrors S (Parser.fail expected) rule' ts ts' :=
  fun _ _ hrun => absurd hrun (run_fail_ne_ok expected)

theorem bind {x x' : Rule α} {f f' : α → Rule β} (hx : Mirrors S x x' ts ts')
    (hf : ∀ a us us', S us us' → us.length ≤ ts.length → us'.length ≤ ts'.length →
      Mirrors T (f a) (f' a) us us') : Mirrors T (x >>= f) (x' >>= f') ts ts' := by
  intro b vs hrun
  obtain ⟨a, us, ha, hb⟩ := run_bind_eq_ok.mp hrun
  obtain ⟨us', ha', hS, hle, hle'⟩ := hx a us ha
  obtain ⟨vs', hb', hT, hle₁, hle₁'⟩ := hf a us us' hS hle hle' b vs hb
  exact ⟨vs', run_bind_eq_ok.mpr ⟨a, us', ha', hb'⟩, hT, by omega, by omega⟩

theorem map {x x' : Rule α} (f : α → β) (hx : Mirrors S x x' ts ts') :
    Mirrors S (do return f (← x)) (do return f (← x')) ts ts' :=
  .bind hx fun _ _ _ hS _ _ => .pure hS

theorem get {f f' : Input → Rule β} (h : Mirrors S (f ts) (f' ts') ts ts') :
    Mirrors S (MonadState.get >>= f) (MonadState.get >>= f') ts ts' :=
  h

theorem set {f f' : PUnit → Rule β} (hus : us.length ≤ ts.length) (hus' : us'.length ≤ ts'.length)
    (h : Mirrors S (f ⟨⟩) (f' ⟨⟩) us us') :
    Mirrors S (MonadStateOf.set us >>= f) (MonadStateOf.set us' >>= f') ts ts' := by
  intro a vs hrun
  obtain ⟨vs', hrun', hS, hle, hle'⟩ := h a vs hrun
  exact ⟨vs', hrun', hS, by omega, by omega⟩

theorem peek {f f' : Token.Kind → Rule β} (hkind : ts.kind = ts'.kind)
    (h : Mirrors S (f ts.kind) (f' ts.kind) ts ts') :
    Mirrors S (Parser.peek >>= f) (Parser.peek >>= f') ts ts' := by
  intro a us hrun
  rw [run_peek_bind, ← hkind]
  exact h a us hrun

theorem atMark {m : Mark} {f f' : Bool → Rule β} (hmark : ts.kind.isMark m = ts'.kind.isMark m)
    (h : Mirrors S (f (ts.kind.isMark m)) (f' (ts.kind.isMark m)) ts ts') :
    Mirrors S (Parser.atMark m >>= f) (Parser.atMark m >>= f') ts ts' := by
  intro a us hrun
  rw [run_atMark_bind, ← hmark]
  exact h a us hrun

theorem advance {f f' : Unit → Rule β} (h : Mirrors S (f ()) (f' ()) ts.tail ts'.tail) :
    Mirrors S (Parser.advance >>= f) (Parser.advance >>= f') ts ts' := by
  intro a us hrun
  obtain ⟨us', hrun', hS, hle, hle'⟩ := h a us hrun
  have htail := ts.length_tail_le
  have htail' := ts'.length_tail_le
  exact ⟨us', hrun', hS, by omega, by omega⟩

theorem expect {m : Mark} {expected : String} {f f' : Unit → Rule β} (hkind : ts.kind = ts'.kind)
    (h : ts.kind = .mark m → Mirrors S (f ()) (f' ()) ts.tail ts'.tail) :
    Mirrors S (Parser.expect m expected >>= f) (Parser.expect m expected >>= f') ts ts' := by
  intro a us hrun
  obtain ⟨hm, hrun⟩ := run_expect_bind_eq_ok.mp hrun
  obtain ⟨us', hrun', hS, hle, hle'⟩ := h hm a us hrun
  have htail := ts.length_tail_le
  have htail' := ts'.length_tail_le
  exact ⟨us', run_expect_bind_eq_ok.mpr ⟨hkind ▸ hm, hrun'⟩, hS, by omega, by omega⟩

theorem expectName {expected : String} {f f' : String → Rule β} (hkind : ts.kind = ts'.kind)
    (h : ∀ s, ts.kind = .name s → Mirrors S (f s) (f' s) ts.tail ts'.tail) :
    Mirrors S (Parser.expectName expected >>= f) (Parser.expectName expected >>= f') ts ts' := by
  intro a us hrun
  obtain ⟨s, hs, hrun⟩ := run_expectName_bind_eq_ok.mp hrun
  obtain ⟨us', hrun', hS, hle, hle'⟩ := h s hs a us hrun
  have htail := ts.length_tail_le
  have htail' := ts'.length_tail_le
  exact ⟨us', run_expectName_bind_eq_ok.mpr ⟨s, hkind ▸ hs, hrun'⟩, hS, by omega, by omega⟩

end Mirrors

/-- A rule does the same in front of both operands, which it may come to. -/
abbrev Exchanges (hole hole' : Word) (rule rule' : Rule α) : Prop :=
  ∀ ts ts', BeforeOperand hole hole' ts ts' →
    Mirrors (BehindOperand hole hole') rule rule' ts ts'

section

variable {expr expr' operand operand' branch branch' : Rule Expr} {ts ts' : Input}

theorem exists_cons_of_ne_eof {fuel : List Token} (h : ts.kind ≠ .eof)
    (hfuel : ts.length ≤ fuel.length) :
    ∃ t fuel₁, fuel = t :: fuel₁ ∧ ts.tail.length ≤ fuel₁.length := by
  have hlt := Input.length_tail_lt h
  cases fuel with
  | nil =>
    rw [List.length_nil] at hfuel
    omega
  | cons t fuel =>
    rw [List.length_cons] at hfuel
    exact ⟨t, fuel, rfl, by omega⟩

theorem chain_ends {l : Layer} (hts : BehindOperand hole hole' ts ts')
    (h : ∀ op : BinaryOp, op.layer = l → ts.kind ≠ .mark op.mark) (fuel fuel' : List Token) :
    Mirrors (BehindOperand hole hole') (chain (levelOf l) operand fuel e)
      (chain (levelOf l) operand' fuel' e) ts ts' := by
  have hpass {us : Input} (hus : ts.kind = us.kind) : Passes l us.kinds := by
    rw [Passes, ← us.kind_eq, ← hus]
    exact h
  exact .of_run_eq (run_chain_of_passes (hpass rfl) fuel)
    (run_chain_of_passes (hpass hts.kind_eq) fuel') hts

theorem ne_eof_of_startsSuffix (h : startsSuffix ts.kind) : ts.kind ≠ .eof := by
  intro heof
  rw [heof] at h
  cases h

theorem suffixes_end (hts : BehindOperand hole hole' ts ts')
    (h : ¬ startsSuffix ts.kind) (fuel fuel' : List Token) :
    Mirrors (BehindOperand hole hole') (suffixes expr fuel e) (suffixes expr' fuel' e) ts ts' := by
  rw [Bool.not_eq_true] at h
  exact .of_run_eq (run_suffixes_of_startsSuffix_eq h fuel)
    (run_suffixes_of_startsSuffix_eq (hts.kind_eq ▸ h) fuel') hts

theorem opens_mark (op : BinaryOp) : opens (.mark op.mark) := by
  cases op with
  | order c => cases c <;> rfl
  | arith a => cases a <;> rfl
  | _ => rfl

theorem Mirrors.operator? {S : Input → Input → Prop} {op : BinaryOp}
    {f f' : Option BinaryOp → Rule β} (hkind : ts.kind = ts'.kind) (hop : ts.kind = .mark op.mark)
    (h : Mirrors S (f (some op)) (f' (some op)) ts ts') :
    Mirrors S (Parser.operator? (levelOf op.layer) >>= f)
      (Parser.operator? (levelOf op.layer) >>= f') ts ts' := by
  have hsome {us : Input} {g : Option BinaryOp → Rule β} (hus : us.kind = .mark op.mark) :
      (Parser.operator? (levelOf op.layer) >>= g).run us = (g (some op)).run us := by
    rw [StateT.run_bind, run_operator?_of_mark hus]
    rfl
  intro a us hrun
  rw [hsome (hkind ▸ hop)]
  exact h a us ((hsome hop).symm.trans hrun)

theorem chain_exchanges {l : Layer} (h : Exchanges hole hole' operand operand')
    {fuel fuel' : List Token} (hts : BehindOperand hole hole' ts ts')
    (hfuel : ts.length ≤ fuel.length) (hfuel' : ts'.length ≤ fuel'.length) :
    Mirrors (BehindOperand hole hole') (chain (levelOf l) operand fuel e)
      (chain (levelOf l) operand' fuel' e) ts ts' := by
  induction fuel generalizing fuel' e ts ts' with
  | nil =>
    refine chain_ends hts (fun op _ hop => ?_) [] fuel'
    obtain ⟨_, _, hcons, -⟩ := exists_cons_of_ne_eof (hop ▸ nofun) hfuel
    cases hcons
  | cons t fuel ih =>
    by_cases hop : ∃ op : BinaryOp, op.layer = l ∧ ts.kind = .mark op.mark
    · obtain ⟨op, rfl, hop⟩ := hop
      have hne : ts.kind ≠ .eof := hop ▸ nofun
      have htail := Input.length_tail_lt hne
      obtain ⟨t', fuel', rfl, hfuel'⟩ := exists_cons_of_ne_eof (hts.kind_eq ▸ hne) hfuel'
      rw [List.length_cons] at hfuel
      have hbehind := hts.tail_before (hop ▸ opens_mark op)
      refine .operator? hts.kind_eq hop (.advance (.bind (h _ _ hbehind) ?_))
      exact fun right us us' hus hle hle' => ih hus (by omega) (by omega)
    · exact chain_ends hts (fun op hl hmark => hop ⟨op, hl, hmark⟩) (t :: fuel) fuel'

theorem leftAssoc_exchanges {l : Layer} (h : Exchanges hole hole' operand operand') :
    Exchanges hole hole' (leftAssoc (levelOf l) operand) (leftAssoc (levelOf l) operand') :=
  fun ts ts' hts => .bind (h ts ts' hts) fun _ _ _ hus _ _ =>
    .get (chain_exchanges h hus (Nat.le_refl _) (Nat.le_refl _))

theorem rangeOf_exchanges (h : Exchanges hole hole' operand operand') :
    Exchanges hole hole' (rangeOf operand) (rangeOf operand') := by
  intro ts ts' hts
  refine .bind (h ts ts' hts) fun first us us' hus _ _ => .atMark (by rw [hus.kind_eq]) ?_
  split
  · rename_i hrange
    have hbefore := hus.tail_before (isMark_iff.mp hrange ▸ rfl)
    exact .advance (.map _ (h _ _ hbefore))
  · exact .pure hus

theorem operation_exchanges (h : Exchanges hole hole' operand operand') :
    Exchanges hole hole' (operation operand) (operation operand') :=
  leftAssoc_exchanges (l := .disjunction) <| leftAssoc_exchanges (l := .conjunction) <|
    leftAssoc_exchanges (l := .equality) <| leftAssoc_exchanges (l := .relation) <|
    rangeOf_exchanges <| leftAssoc_exchanges (l := .sum) <| leftAssoc_exchanges (l := .product) h

theorem choice_exchanges (hoperand : Exchanges hole hole' operand operand')
    (hbranch : Exchanges hole hole' branch branch') :
    Exchanges hole hole' (choice operand branch) (choice operand' branch') := by
  intro ts ts' hts
  refine .bind (operation_exchanges hoperand ts ts' hts) fun test us us' hus _ _ => ?_
  refine .atMark (by rw [hus.kind_eq]) ?_
  split
  · rename_i hquestion
    have hyes := hus.tail_before (isMark_iff.mp hquestion ▸ rfl)
    refine .advance (.bind (hbranch _ _ hyes) fun yes vs vs' hvs _ _ => ?_)
    refine .expect hvs.kind_eq fun hcolon => .map _ (hbranch _ _ ?_)
    exact hvs.tail_before (hcolon ▸ rfl)
  · exact .pure hus

section

variable (hhole : StartsOperand hole) (hhole' : StartsOperand hole')

include hhole hhole'

theorem items_exchanges {item item' : Rule α} (h : Exchanges hole hole' item item')
    {closing : Mark} (hclosing : opens (.mark closing) = false) (orClosing : String)
    {fuel fuel' : List Token} (hts : BeforeOperand hole hole' ts ts')
    (hfuel' : ts'.length < fuel'.length) :
    Mirrors (BehindOperand hole hole') (items closing orClosing item fuel)
      (items closing orClosing item' fuel') ts ts' := by
  induction fuel generalizing fuel' ts ts' with
  | nil => exact .fail orClosing
  | cons t fuel ih =>
    obtain ⟨t', fuel', rfl⟩ := List.exists_cons_of_length_pos (Nat.zero_lt_of_lt hfuel')
    rw [List.length_cons] at hfuel'
    refine .atMark (hts.isMark_eq hhole hhole' hclosing) ?_
    split
    · rename_i hmark
      rw [isMark_iff] at hmark
      have hbehind := (hts.apart_of_mark hhole hclosing hmark).behind
      exact .advance (.pure (hbehind.tail_behind (hmark ▸ hclosing)))
    · refine .bind (h ts ts' hts) fun a us us' hus _ hle' => .atMark (by rw [hus.kind_eq]) ?_
      split
      · rename_i hmark
        exact .advance (.pure (hus.tail_behind (isMark_iff.mp hmark ▸ hclosing)))
      · refine .expect hus.kind_eq fun hcomma => .map _ ?_
        have hlt : us'.tail.length < us'.length :=
          Input.length_tail_lt (hus.kind_eq ▸ hcomma ▸ nofun)
        exact ih (hus.tail_before (hcomma ▸ rfl)) (by omega)

theorem list_exchanges {item item' : Rule α} (h : Exchanges hole hole' item item')
    {closing : Mark} (hclosing : opens (.mark closing) = false) (orClosing : String)
    (hts : BehindOperand hole hole' ts ts') (hopen : opens ts.kind) :
    Mirrors (BehindOperand hole hole') (list closing orClosing item)
      (list closing orClosing item') ts ts' := by
  refine .get (.advance (items_exchanges hhole hhole' h hclosing orClosing
    (hts.tail_before hopen) (Input.length_tail_lt ?_)))
  rw [← hts.kind_eq]
  intro heof
  rw [heof] at hopen
  cases hopen

omit hhole' in
theorem objectMember_exchanges (h : Exchanges hole hole' expr expr') :
    Exchanges hole hole' (objectMember expr) (objectMember expr') := by
  intro ts ts' hts
  have hvalue (name : String) {us us' : Input} (hus : BehindOperand hole hole' us us') :
      Mirrors (BehindOperand hole hole') (do expect .colon "':'"; return (name, ← expr))
        (do expect .colon "':'"; return (name, ← expr')) us us' :=
    .expect hus.kind_eq fun hcolon => .map _ (h _ _ (hus.tail_before (hcolon ▸ rfl)))
  rcases hts.apart_or with ⟨hts, -⟩ | hts
  · -- no name starts with an operand
    intro a us hrun
    have hfirst := hhole.first
    rw [objectMember, run_peek_bind, ts.kind_eq, hts] at hrun
    split at hrun
    case h_1 hstring => simp [hstring, isNumber] at hfirst
    case h_2 hname => simp [hname, isNumber] at hfirst
    case h_3 =>
      obtain ⟨_, _, hfail, -⟩ := run_bind_eq_ok.mp hrun
      exact absurd hfail (run_fail_ne_ok _)
  · refine .peek hts.behind.kind_eq ?_
    dsimp only
    split
    case h_1 hstring => exact .advance (hvalue _ (hts.behind.tail_behind (hstring ▸ rfl)))
    case h_2 hname => exact .advance (hvalue _ (hts.behind.tail_behind (hname ▸ rfl)))
    case h_3 => exact .bind (.fail _) fun _ _ _ hus _ _ => hvalue _ hus

theorem named_exchanges (h : Exchanges hole hole' expr expr') {name : String}
    (hts : BehindOperand hole hole' ts ts') (hname : opens ts.kind = false) :
    Mirrors (BehindOperand hole hole') (named expr name) (named expr' name) ts ts' := by
  have htail := hts.tail_behind hname
  refine .advance (.peek htail.kind_eq ?_)
  split
  · rename_i harrow
    exact .advance (.map _ (h _ _ (htail.tail_before (harrow ▸ rfl))))
  · rename_i hopen
    exact .map _ (list_exchanges hhole hhole' h rfl _ htail (hopen ▸ rfl))
  · exact .pure htail

theorem parenthesised_exchanges (h : Exchanges hole hole' expr expr')
    (hts : BehindOperand hole hole' ts ts') (hopen : opens ts.kind) :
    Mirrors (BehindOperand hole hole') (parenthesised expr) (parenthesised expr') ts ts' := by
  have htail := hts.tail_before hopen
  refine .advance (.get ?_)
  cases hhead : head? ts.tail.tokens with
  | some p =>
    obtain ⟨params, rest⟩ := p
    obtain ⟨rest', hhead', hrest⟩ := head?_exchanges hhole htail hhead
    rw [hhead']
    exact .set (length_le_of_head? hhead) (length_le_of_head? hhead') (.map _ (h _ _ hrest))
  | none =>
    have hhead' : head? ts'.tail.tokens = none := by
      rw [Option.eq_none_iff_forall_ne_some]
      rintro ⟨params, rest'⟩ hhead'
      obtain ⟨rest, hsome, -⟩ := head?_exchanges hhole' htail.symm hhead'
      cases hhead.symm.trans hsome
    rw [hhead']
    refine .bind (h _ _ htail) fun e us us' hus _ _ => .expect hus.kind_eq fun hclose => .pure ?_
    exact hus.tail_behind (hclose ▸ rfl)

theorem atom_exchanges (h : Exchanges hole hole' expr expr') (hts : Apart hole hole' ts ts') :
    Mirrors (BehindOperand hole hole') (atom expr) (atom expr') ts ts' := by
  refine .get ?_
  cases hnumeral : numeral? ts.tokens with
  | some p =>
    obtain ⟨e, rest⟩ := p
    obtain ⟨rest', hnumeral', hrest⟩ := numeral?_exchanges hhole hhole' hts hnumeral
    rw [hnumeral']
    exact .set (length_le_of_numeral? hnumeral) (length_le_of_numeral? hnumeral') (.pure hrest)
  | none =>
    have hnumeral' : numeral? ts'.tokens = none := by
      rw [Option.eq_none_iff_forall_ne_some]
      rintro ⟨e, rest'⟩ hnumeral'
      obtain ⟨rest, hsome, -⟩ := numeral?_exchanges hhole' hhole hts.symm hnumeral'
      cases hnumeral.symm.trans hsome
    have hbehind := hts.behind
    rw [hnumeral', ← hbehind.kind_eq]
    dsimp only
    split
    case h_1 hstring => exact .advance (.pure (hbehind.tail_behind (hstring ▸ rfl)))
    case h_2 hboolean => exact .advance (.pure (hbehind.tail_behind (hboolean ▸ rfl)))
    case h_3 hnull => exact .advance (.pure (hbehind.tail_behind (hnull ▸ rfl)))
    case h_4 hname => exact named_exchanges hhole hhole' h hbehind (hname ▸ rfl)
    case h_5 hopen => exact parenthesised_exchanges hhole hhole' h hbehind (hopen ▸ rfl)
    case h_6 hopen => exact .map _ (list_exchanges hhole hhole' h rfl _ hbehind (hopen ▸ rfl))
    case h_7 hopen =>
      have hmember := objectMember_exchanges hhole h
      exact .map _ (list_exchanges hhole hhole' hmember rfl _ hbehind (hopen ▸ rfl))
    case h_8 => exact .fail _

theorem suffixes_exchanges (h : Exchanges hole hole' expr expr') {fuel fuel' : List Token}
    (hts : BehindOperand hole hole' ts ts') (hfuel : ts.length ≤ fuel.length)
    (hfuel' : ts'.length ≤ fuel'.length) :
    Mirrors (BehindOperand hole hole') (suffixes expr fuel e) (suffixes expr' fuel' e) ts ts' := by
  induction fuel generalizing fuel' e ts ts' with
  | nil =>
    refine suffixes_end hts (fun hsuffix => ?_) [] fuel'
    obtain ⟨_, _, hcons, -⟩ := exists_cons_of_ne_eof (ne_eof_of_startsSuffix hsuffix) hfuel
    cases hcons
  | cons t fuel ih =>
    by_cases hsuffix : startsSuffix ts.kind
    · have hne := ne_eof_of_startsSuffix hsuffix
      have hlt := Input.length_tail_lt hne
      obtain ⟨t', fuel', rfl, hfuel'⟩ := exists_cons_of_ne_eof (hts.kind_eq ▸ hne) hfuel'
      rw [List.length_cons] at hfuel
      refine .peek hts.kind_eq ?_
      split
      · rename_i hdot
        have hts₁ := hts.tail_behind (hdot ▸ rfl)
        refine .advance (.expectName hts₁.kind_eq fun name hname => ?_)
        have hts₂ := hts₁.tail_behind (hname ▸ rfl)
        have hle := ts.tail.length_tail_le
        have hle' := ts'.tail.length_tail_le
        refine .atMark (by rw [hts₂.kind_eq]) ?_
        split
        · rename_i hopen
          have hopen := isMark_iff.mp hopen
          exact .bind (list_exchanges hhole hhole' h rfl _ hts₂ (hopen ▸ rfl))
            fun args us us' hus _ _ => ih hus (by omega) (by omega)
        · exact ih hts₂ (by omega) (by omega)
      · rename_i hbracket
        have hts₁ := hts.tail_before (hbracket ▸ rfl)
        refine .advance (.bind (h _ _ hts₁) fun i us us' hus _ _ => ?_)
        have hle := us.length_tail_le
        have hle' := us'.length_tail_le
        refine .expect hus.kind_eq fun hclose => ih ?_ (by omega) (by omega)
        exact hus.tail_behind (hclose ▸ rfl)
      · exact .pure hts
    · exact suffixes_end hts hsuffix (t :: fuel) fuel'

/-- The atoms that start at the place come out the same. -/
abbrev ReadsAlike (hole hole' : Word) (expr expr' : Rule Expr) : Prop :=
  ∀ ts ts' : Input, ts.kinds = hole → ts'.kinds = hole' →
    Mirrors (BehindOperand hole hole') (atom expr) (atom expr') ts ts'

theorem postfixed_exchanges (hatom : ReadsAlike hole hole' expr expr')
    (hexpr : Exchanges hole hole' expr expr') :
    Exchanges hole hole' (postfixed expr) (postfixed expr') := by
  intro ts ts' hts
  have hatom : Mirrors (BehindOperand hole hole') (atom expr) (atom expr') ts ts' := by
    rcases hts.apart_or with ⟨hts, hts'⟩ | hts
    · exact hatom ts ts' hts hts'
    · exact atom_exchanges hhole hhole' hexpr hts
  exact .bind hatom fun e us us' hus _ _ => .get
    (suffixes_exchanges hhole hhole' hexpr hus (Nat.le_refl _) (Nat.le_refl _))

theorem prefixed_exchanges (hatom : ReadsAlike hole hole' expr expr')
    (hexpr : Exchanges hole hole' expr expr') (hoperand : Exchanges hole hole' operand operand') :
    Exchanges hole hole' (prefixed expr operand) (prefixed expr' operand') := by
  intro ts ts' hts
  refine .get ?_
  rw [← prefixOp?_eq hhole hhole' hts]
  cases hop : prefixOp? ts with
  | some op =>
    have hts : Apart hole hole' ts ts' := by
      rcases hts.apart_or with ⟨hts, -⟩ | hts
      · cases (prefixOp?_eq_none hhole hts).symm.trans hop
      · exact hts
    refine .advance (.map _ (hoperand _ _ (hts.behind.tail_before ?_)))
    rcases prefixOp?_eq_some_iff.mp hop with ⟨-, hkind⟩ | ⟨-, hkind, -⟩ <;> rw [hkind] <;> rfl
  | none => exact postfixed_exchanges hhole hhole' hatom hexpr ts ts' hts

end

end

section

variable (hhole : StartsOperand hole) (hhole' : StartsOperand hole')

include hhole hhole'

theorem expression_exchanges {limit limit' gap : Nat}
    (h : ∀ depth, ReadsAlike hole hole' (expression limit depth) (expression limit' (depth + gap)))
    (depth : Nat) :
    Exchanges hole hole' (expression limit depth) (expression limit' (depth + gap)) ∧
      Exchanges hole hole' (operand limit depth) (operand limit' (depth + gap)) := by
  induction depth with
  | zero =>
    exact ⟨fun _ _ _ _ _ hrun => absurd hrun (run_tooDeep_ne_ok limit),
      fun _ _ _ _ _ hrun => absurd hrun (run_tooDeep_ne_ok limit)⟩
  | succ depth ih =>
    rw [Nat.add_right_comm]
    have hprefixed := prefixed_exchanges hhole hhole' (h depth) ih.1 ih.2
    exact ⟨choice_exchanges hprefixed ih.1, hprefixed⟩

theorem whole_exchanges {limit gap : Nat}
    (h : ∀ depth,
      ReadsAlike hole hole' (expression limit depth) (expression (limit + gap) (depth + gap))) :
    Exchanges hole hole' (whole limit) (whole (limit + gap)) := by
  intro ts ts' hts
  have hexpr := (expression_exchanges hhole hhole' h limit).1 ts ts' hts
  refine .bind hexpr fun e us us' hus _ _ => .peek hus.kind_eq ?_
  split
  · exact .pure hus
  · exact .fail _

end

end Parser

/-- Two sources that differ in an operand are parsed the same, if the operand is. -/
theorem parse_exchange {hole hole' front : Grammar.Word} {tokens tokens' : List Token}
    {limit : Nat} (gap : Nat) {e : Expr} (hhole : Grammar.StartsOperand hole)
    (hhole' : Grammar.StartsOperand hole')
    (h : ∀ depth, Parser.ReadsAlike hole hole' (Parser.expression limit depth)
      (Parser.expression (limit + gap) (depth + gap)))
    (hopen : Grammar.endsOpen front) (hminus : front ≠ [.mark .minus])
    (htokens : kindsBeforeEnd tokens = front ++ hole)
    (htokens' : kindsBeforeEnd tokens' = front ++ hole') (hparse : parse tokens limit = .ok e) :
    parse tokens' (limit + gap) = .ok e := by
  obtain ⟨⟨_, ts⟩, hrun, rfl⟩ := map_eq_ok.mp hparse
  have hts : Parser.BeforeOperand hole hole' (.ofTokens tokens) (.ofTokens tokens') :=
    .inr ⟨front, hopen, hminus, (Parser.Input.kinds_ofTokens tokens).trans htokens,
      (Parser.Input.kinds_ofTokens tokens').trans htokens'⟩
  obtain ⟨ts', hrun', -⟩ := Parser.whole_exchanges hhole hhole' h _ _ hts _ _ hrun
  exact map_eq_ok.mpr ⟨_, hrun', rfl⟩

end Stencil

import Stencil.Proofs.Expr.Grammar
import Stencil.Proofs.Expr.Reading

/-!
# Looking ahead

Numbers, ranges of numbers and the heads of lambdas are found in the tokens ahead before any of
these is taken. What is found is exactly what the grammar says.
-/

namespace Stencil.Parser

open Grammar

/-- The kinds of tokens in a row. -/
abbrev kindsOf (ts : List Token) : Word :=
  ts.map Token.kind

variable {ts rest : List Token} {e : Expr}

/-- The operators of a layer. -/
def levelOf : Layer → Level
  | .disjunction => disjunction
  | .conjunction => conjunction
  | .equality => equality
  | .relation => relation
  | .sum => sum
  | .product => product

theorem levelOf_eq_some_iff {l : Layer} {m : Mark} {op : BinaryOp} :
    levelOf l m = some op ↔ op.layer = l ∧ op.mark = m := by
  constructor
  · intro h
    cases l <;> cases m <;> cases h <;> exact ⟨rfl, rfl⟩
  · rintro ⟨rfl, rfl⟩
    cases op with
    | order c => cases c <;> rfl
    | arith a => cases a <;> rfl
    | _ => rfl

theorem run_operator?_eq_ok {l : Layer} {ts ts' : Input} {o : Option BinaryOp} :
    (operator? (levelOf l)).run ts = .ok (o, ts') ↔
      (∀ op, o = some op ↔ op.layer = l ∧ ts.kind = .mark op.mark) ∧ ts = ts' := by
  rw [operator?, run_peek_bind]
  constructor
  · intro h
    split at h
    · rename_i m hm
      obtain ⟨rfl, rfl⟩ := run_pure_eq_ok.mp h
      refine ⟨fun op => ?_, rfl⟩
      rw [levelOf_eq_some_iff, hm, Token.Kind.mark.injEq, eq_comm (a := m)]
    · rename_i hm
      obtain ⟨rfl, rfl⟩ := run_pure_eq_ok.mp h
      exact ⟨fun op => ⟨nofun, fun hop => absurd hop.2 (hm _)⟩, rfl⟩
  · rintro ⟨ho, rfl⟩
    split
    · rename_i m hm
      refine run_pure_eq_ok.mpr ⟨Option.ext fun op => ?_, rfl⟩
      rw [levelOf_eq_some_iff, ho, hm, Token.Kind.mark.injEq, eq_comm (a := m)]
    · rename_i hm
      refine run_pure_eq_ok.mpr ⟨Option.ext fun op => ?_, rfl⟩
      rw [ho]
      exact ⟨nofun, fun hop => absurd hop.2 (hm _)⟩

theorem number?_isSome (k : Token.Kind) : (number? k).isSome = isNumber k := by
  cases k <;> rfl

theorem number?_eq_some_iff {k : Token.Kind} : number? k = some e ↔ Literal [k] e := by
  constructor
  · intro h
    cases k <;> cases h
    · exact .float _
    · exact .integer _
  · intro h
    cases h <;> rfl

theorem negated_number?_eq_some_iff {k : Token.Kind} :
    (number? k).map negated = some e ↔ Literal [.mark .minus, k] e := by
  constructor
  · intro h
    cases k <;> cases h
    · exact .negativeFloat _
    · exact .negativeInteger _
  · intro h
    cases h <;> rfl

theorem literal?_minus {t u : Token} (ht : t.kind = .mark .minus) :
    literal? (t :: u :: rest) = (number? u.kind).map fun e => (negated e, rest) := by
  simp [literal?, ht]

theorem literal?_of_ne_minus {t : Token} (ht : t.kind ≠ .mark .minus) :
    literal? (t :: rest) = (number? t.kind).map fun e => (e, rest) := by
  cases rest <;> simp only [literal?]

theorem literal?_eq_some_iff :
    literal? ts = some (e, rest) ↔ ∃ taken, ts = taken ++ rest ∧ Literal (kindsOf taken) e := by
  constructor
  · intro h
    match ts with
    | t :: ts =>
      by_cases ht : t.kind = .mark .minus
      · match ts with
        | u :: ts =>
          rw [literal?_minus ht] at h
          obtain ⟨a, hu, heq⟩ := Option.map_eq_some_iff.mp h
          obtain ⟨rfl, rfl⟩ := Prod.mk.inj heq
          refine ⟨[t, u], rfl, ?_⟩
          rw [kindsOf, List.map_cons, List.map_singleton, ht, ← negated_number?_eq_some_iff, hu]
          rfl
        | [] => simp [literal?, ht] at h
      · rw [literal?_of_ne_minus ht] at h
        obtain ⟨a, hu, heq⟩ := Option.map_eq_some_iff.mp h
        obtain ⟨rfl, rfl⟩ := Prod.mk.inj heq
        exact ⟨[t], rfl, number?_eq_some_iff.mp hu⟩
  · rintro ⟨taken, rfl, h⟩
    match taken with
    | [] => nomatch h
    | [t] =>
      have hne : t.kind ≠ .mark .minus := by
        intro ht
        rw [kindsOf, List.map_singleton, ht] at h
        nomatch h
      rw [List.singleton_append, literal?_of_ne_minus hne, number?_eq_some_iff.mpr h]
      rfl
    | [t, u] =>
      have ht : t.kind = .mark .minus := by
        generalize hw : kindsOf [t, u] = w at h
        cases h <;> simp_all [kindsOf]
      rw [kindsOf, List.map_cons, List.map_singleton, ht, ← negated_number?_eq_some_iff] at h
      obtain ⟨a, hu, rfl⟩ := Option.map_eq_some_iff.mp h
      rw [List.cons_append, List.singleton_append, literal?_minus ht, hu]
      rfl
    | t :: u :: v :: taken =>
      generalize hw : kindsOf (t :: u :: v :: taken) = w at h
      cases h <;> simp at hw

theorem startsSuffix_eq (k : Token.Kind) :
    startsSuffix k = (k.isMark .dot || k.isMark .openBracket) := by
  cases k with
  | mark m => cases m <;> rfl
  | _ => rfl

theorem startsInSuffix_kinds {ts : Input} (h : StartsInSuffix ts.kinds) :
    ts.kind = .mark .dot ∨ ts.kind = .mark .openBracket := by
  obtain ⟨k, hk, hsuffix⟩ := h
  rw [startsSuffix_eq, Bool.or_eq_true, isMark_iff, isMark_iff, ← Input.kind_of_head? hk] at hsuffix
  exact hsuffix

theorem bound?_eq_some_iff {last : Expr} :
    bound? ts = some (last, rest) ↔ ∃ t taken, ts = t :: taken ++ rest ∧ t.kind = .mark .range ∧
      Literal (kindsOf taken) last ∧ StartsInSuffix (kindsOf rest) := by
  constructor
  · intro h
    unfold bound? at h
    split at h
    · rename_i t us
      split at h
      · rename_i hrange
        split at h
        · rename_i a next us' hliteral
          split at h
          · rename_i hnext
            cases h
            obtain ⟨taken, rfl, htaken⟩ := literal?_eq_some_iff.mp hliteral
            rw [← startsSuffix_eq] at hnext
            exact ⟨t, taken, rfl, isMark_iff.mp hrange, htaken, next.kind, rfl, hnext⟩
          · cases h
        · cases h
      · cases h
    · cases h
  · rintro ⟨t, taken, rfl, ht, hliteral, k, hk, hsuffix⟩
    match rest with
    | next :: rest =>
      obtain rfl : next.kind = k := Option.some.inj hk
      have htaken : literal? (taken ++ next :: rest) = some (last, next :: rest) :=
        literal?_eq_some_iff.mpr ⟨taken, rfl, hliteral⟩
      rw [startsSuffix_eq] at hsuffix
      rw [List.cons_append, bound?, if_pos (isMark_iff.mpr ht), htaken]
      exact if_pos hsuffix
    | [] => cases hk

theorem not_startsInBound_of_bound?_eq_none {w : Word} (h : bound? ts = none)
    (hw : kindsOf ts = .mark .range :: w) : ¬ StartsInBound w := by
  rintro ⟨v, e, after, hliteral, rfl, hsuffix⟩
  obtain ⟨t, us, rfl, ht, hus⟩ := List.map_eq_cons_iff.mp hw
  obtain ⟨taken, us', rfl, rfl, rfl⟩ := List.map_eq_append_iff.mp hus
  cases h.symm.trans (bound?_eq_some_iff.mpr ⟨t, taken, rfl, ht, hliteral, hsuffix⟩)

/-- What is read as a number in front of a word: one alone, or a range of two that a suffix takes as
a whole. -/
inductive Numeral : Word → Expr → Word → Prop
  | literal {w e rest} : Literal w e → (∀ v, rest = .mark .range :: v → ¬ StartsInBound v) →
      Numeral w e rest
  | range {v w first last rest} : Literal v first → Literal w last → StartsInSuffix rest →
      Numeral (v ++ .mark .range :: w) (.range first last) rest

theorem numeral?_eq_some_iff :
    numeral? ts = some (e, rest) ↔ ∃ taken, ts = taken ++ rest ∧
      Numeral (kindsOf taken) e (kindsOf rest) := by
  constructor
  · intro h
    obtain ⟨⟨first, rest₁⟩, hfirst, hlast⟩ := Option.bind_eq_some_iff.mp h
    obtain ⟨taken, rfl, hliteral⟩ := literal?_eq_some_iff.mp hfirst
    dsimp only at hlast
    split at hlast
    · rename_i last rest₂ hbound
      cases hlast
      obtain ⟨t, taken', rfl, ht, hliteral', hsuffix⟩ := bound?_eq_some_iff.mp hbound
      refine ⟨taken ++ t :: taken', by simp, ?_⟩
      rw [kindsOf, List.map_append, List.map_cons, ht]
      exact .range hliteral hliteral' hsuffix
    · rename_i hbound
      cases hlast
      exact ⟨taken, rfl, .literal hliteral fun _ => not_startsInBound_of_bound?_eq_none hbound⟩
  · rintro ⟨taken, rfl, h⟩
    generalize hw : kindsOf taken = w at h
    cases h with
    | literal hliteral hrest =>
      have htaken : literal? (taken ++ rest) = some (e, rest) :=
        literal?_eq_some_iff.mpr ⟨taken, rfl, hw ▸ hliteral⟩
      have hbound : bound? rest = none := by
        rw [Option.eq_none_iff_forall_ne_some]
        rintro ⟨last, rest'⟩ hbound
        obtain ⟨t, taken', rfl, ht, hliteral', hsuffix⟩ := bound?_eq_some_iff.mp hbound
        refine hrest (kindsOf (taken' ++ rest')) ?_ ⟨_, last, kindsOf rest', hliteral', ?_, hsuffix⟩
        · rw [List.cons_append, kindsOf, List.map_cons, ht]
        · exact List.map_append
      simp [numeral?, htaken, hbound]
    | range hfirst hlast hsuffix =>
      obtain ⟨taken, us, rfl, rfl, hus⟩ := List.map_eq_append_iff.mp hw
      obtain ⟨t, taken', rfl, ht, rfl⟩ := List.map_eq_cons_iff.mp hus
      have htaken := literal?_eq_some_iff.mpr
        ⟨taken, List.append_assoc taken (t :: taken') rest, hfirst⟩
      have hbound := bound?_eq_some_iff.mpr ⟨t, taken', rfl, ht, hlast, hsuffix⟩
      rw [numeral?, htaken, Option.bind_eq_bind, Option.bind_some]
      dsimp only
      rw [hbound]

theorem prefixOp?_eq_some_iff {ts : Input} {op : UnaryOp} :
    prefixOp? ts = some op ↔ op = .not ∧ ts.kind = .mark .not ∨
      op = .negate ∧ ts.kind = .mark .minus ∧ ¬ StartsInNumber ts.tail.kinds := by
  obtain ⟨tokens, finish⟩ := ts
  cases tokens with
  | nil => simp [prefixOp?, Input.kind]
  | cons t rest =>
    have hhead : StartsInNumber (Input.tail ⟨t :: rest, finish⟩).kinds ↔
        ∃ u ∈ rest.head?, isNumber u.kind := by
      simp [StartsInNumber, Input.tail, Input.kinds]
    rw [hhead]
    simp only [prefixOp?, Input.kind]
    split
    · rename_i hnot
      cases op <;> simp [hnot]
    · rename_i hminus
      cases rest with
      | nil => cases op <;> simp [hminus]
      | cons u rest => cases op <;> simp [number?_isSome, hminus]
    · rename_i hnot hminus
      constructor
      · intro h
        cases h
      · rintro (⟨-, h⟩ | ⟨-, h, -⟩)
        · exact absurd h hnot
        · exact absurd h hminus

theorem parameters_cons (name : String) {names : List String} (h : names ≠ []) :
    parameters (name :: names) = .name name :: .mark .comma :: parameters names := by
  obtain ⟨next, names, rfl⟩ := List.exists_cons_of_ne_nil h
  rfl

theorem params?_of_kinds {names : List String} {taken : List Token} (hne : names ≠ [])
    (h : kindsOf taken = parameters names ++ [.mark .closeParen, .mark .arrow]) :
    params? (taken ++ rest) = some (names, rest) := by
  induction names generalizing taken with
  | nil => exact absurd rfl hne
  | cons name names ih =>
    cases names with
    | nil =>
      obtain ⟨t, _, rfl, ht, h⟩ := List.map_eq_cons_iff.mp h
      obtain ⟨u, _, rfl, hu, h⟩ := List.map_eq_cons_iff.mp h
      obtain ⟨v, _, rfl, hv, h⟩ := List.map_eq_cons_iff.mp h
      obtain rfl := List.map_eq_nil_iff.mp h
      simp [params?, ht, hu, hv, Token.Kind.isMark]
    | cons next names =>
      rw [parameters_cons name (List.cons_ne_nil _ _)] at h
      obtain ⟨t, _, rfl, ht, h⟩ := List.map_eq_cons_iff.mp h
      obtain ⟨u, taken, rfl, hu, h⟩ := List.map_eq_cons_iff.mp h
      simp [params?, ht, hu, ih (List.cons_ne_nil _ _) h, Token.Kind.isMark]

theorem kinds_of_params? {names : List String} (h : params? ts = some (names, rest)) :
    names ≠ [] ∧ ∃ taken, ts = taken ++ rest ∧
      kindsOf taken = parameters names ++ [.mark .closeParen, .mark .arrow] := by
  fun_induction params? ts generalizing names with
  | case1 t u us name ht hu ih =>
    obtain ⟨⟨names', rest'⟩, hparams, heq⟩ := Option.map_eq_some_iff.mp h
    obtain ⟨rfl, rfl⟩ := Prod.mk.inj heq
    obtain ⟨hne, taken, rfl, htaken⟩ := ih hparams
    refine ⟨nofun, t :: u :: taken, rfl, ?_⟩
    simp only [parameters_cons name hne, List.map_cons, List.cons_append, ← htaken, ht,
      isMark_iff.mp hu]
  | case2 t u name ht _ hu v us hv =>
    cases h
    refine ⟨nofun, [t, u, v], rfl, ?_⟩
    simp [parameters, ht, isMark_iff.mp hu, isMark_iff.mp hv]
  | case3 | case4 | case5 | case6 | case7 => cases h

theorem head?_eq_some_iff {names : List String} :
    head? ts = some (names, rest) ↔ ∃ taken, ts = taken ++ rest ∧
      kindsOf taken = parameters names ++ [.mark .closeParen, .mark .arrow] := by
  constructor
  · intro h
    unfold head? at h
    split at h
    · rename_i t u us
      split at h
      · rename_i ht
        split at h
        · rename_i hu
          cases h
          refine ⟨[t, u], rfl, ?_⟩
          simp [parameters, isMark_iff.mp ht, isMark_iff.mp hu]
        · cases h
      · exact (kinds_of_params? h).2
    · cases h
  · rintro ⟨taken, rfl, h⟩
    cases names with
    | nil =>
      obtain ⟨t, _, rfl, ht, h⟩ := List.map_eq_cons_iff.mp h
      obtain ⟨u, _, rfl, hu, h⟩ := List.map_eq_cons_iff.mp h
      obtain rfl := List.map_eq_nil_iff.mp h
      simp [head?, ht, hu, Token.Kind.isMark]
    | cons name names =>
      have hparams : params? (taken ++ rest) = some (name :: names, rest) :=
        params?_of_kinds (List.cons_ne_nil _ _) h
      -- two tokens are enough to tell that the list is not empty
      obtain ⟨k, w, hw⟩ : ∃ k w, parameters (name :: names) ++ [.mark .closeParen, .mark .arrow] =
          .name name :: k :: w := by
        cases names <;> exact ⟨_, _, rfl⟩
      rw [hw] at h
      obtain ⟨t, _, rfl, ht, h⟩ := List.map_eq_cons_iff.mp h
      obtain ⟨u, taken, rfl, -⟩ := List.map_eq_cons_iff.mp h
      rw [← hparams]
      simp [head?, ht, Token.Kind.isMark]

end Stencil.Parser

import Stencil.Proofs.Expr.Acceptance

/-!
# Looking ahead to an operand

Two sources differ in one place, where an operand starts. However far the parser looks ahead in
front of the place, it sees the same: neither a number nor the head of a lambda reaches into it.
-/

namespace Stencil

namespace Grammar

/-- Whether this stands in front of an operand, or of another item of a list or an object. -/
def opens : Token.Kind → Bool
  | .mark .closeParen | .mark .closeBracket | .mark .closeBrace | .mark .dot => false
  | .mark _ => true
  | _ => false

/-- An operand stands behind the word. A minus at its end has an operand in front of it, if it does
not stand alone. -/
def endsOpen : Word → Bool
  | [] => true
  | [k] => opens k
  | [k, .mark .minus] => !opens k
  | _ :: w => endsOpen w

theorem endsOpen_of_cons {k : Token.Kind} {w : Word} (h : endsOpen (k :: w)) : endsOpen w := by
  cases w with
  | nil => rfl
  | cons j w =>
    unfold endsOpen at h
    split at h
    case h_1 heq => cases heq
    case h_2 heq => cases heq
    case h_3 heq =>
      cases heq
      rfl
    case h_4 heq =>
      cases heq
      exact h

theorem endsOpen_of_append {v w : Word} (h : endsOpen (v ++ w)) : endsOpen w := by
  induction v with
  | nil => exact h
  | cons k v ih => exact ih (endsOpen_of_cons h)

theorem ne_minus_of_opens {k : Token.Kind} {w : Word} (h : endsOpen (k :: w)) (hk : opens k) :
    w ≠ [.mark .minus] := by
  rintro rfl
  simp [endsOpen, hk] at h

theorem ne_nil_of_not_opens {k : Token.Kind} {w : Word} (h : endsOpen (k :: w))
    (hk : opens k = false) : w ≠ [] := by
  rintro rfl
  simp [endsOpen, hk] at h

/-- An operand starts here with a number, with a minus that belongs to one, or with a parenthesis.
It is no bound that a suffix follows. -/
structure StartsOperand (hole : Word) : Prop where
  first : isNumber (ahead hole) ∨ ahead hole = .mark .minus ∨ ahead hole = .mark .openParen
  minus : ahead hole = .mark .minus → StartsInNumber hole.tail
  unbound : ¬ StartsInBound hole

theorem opens_of_isNumber {k : Token.Kind} (h : isNumber k) : opens k = false := by
  cases k with
  | mark m => cases h
  | _ => rfl

section

variable {hole hole' u v w rest : Word} {e : Expr}

/-- A number that starts in front of the place ends in front of it. -/
theorem Literal.exists_append (h : Literal w e) (hword : w ++ rest = u ++ hole)
    (hopen : endsOpen u) (hnil : u ≠ []) (hminus : u ≠ [.mark .minus]) :
    ∃ v, u = w ++ v ∧ v ≠ [] ∧ rest = v ++ hole := by
  obtain ⟨k, u, rfl⟩ := List.exists_cons_of_ne_nil hnil
  have single {n : Token.Kind} {u : Word} (hn : isNumber n) (hopen : endsOpen (n :: u)) : u ≠ [] :=
    ne_nil_of_not_opens hopen (opens_of_isNumber hn)
  cases h with
  | integer n | float x =>
    obtain ⟨rfl, rfl⟩ := List.cons.inj hword
    exact ⟨u, rfl, single rfl hopen, rfl⟩
  | negativeInteger n | negativeFloat x =>
    obtain ⟨rfl, hnumber⟩ := List.cons.inj hword
    have hne : u ≠ [] := fun h => hminus (by rw [h])
    obtain ⟨k, u, rfl⟩ := List.exists_cons_of_ne_nil hne
    obtain ⟨rfl, rfl⟩ := List.cons.inj hnumber
    exact ⟨u, rfl, single rfl (endsOpen_of_cons hopen), rfl⟩

theorem startsInSuffix_append (h : u ≠ []) : StartsInSuffix (u ++ hole) ↔ StartsInSuffix u := by
  obtain ⟨k, u, rfl⟩ := List.exists_cons_of_ne_nil h
  rfl

theorem StartsInBound.exchange (hhole : StartsOperand hole) (hopen : endsOpen u)
    (hminus : u ≠ [.mark .minus]) (h : StartsInBound (u ++ hole)) : StartsInBound (u ++ hole') := by
  by_cases hnil : u = []
  · subst hnil
    exact absurd h hhole.unbound
  · obtain ⟨w, e, rest, hliteral, hword, hsuffix⟩ := h
    obtain ⟨v, rfl, hv, rfl⟩ := hliteral.exists_append hword.symm hopen hnil hminus
    rw [startsInSuffix_append hv] at hsuffix
    exact ⟨w, e, v ++ hole', hliteral, List.append_assoc .., (startsInSuffix_append hv).mpr hsuffix⟩

end

end Grammar

namespace Parser

open Grammar

variable {hole hole' u w rest : Word} {e : Expr}

/-- What is read as a number in front of the place is read so in front of the other operand. -/
theorem Numeral.exchange (hhole : StartsOperand hole) (hhole' : StartsOperand hole')
    (h : Numeral w e rest) (hword : w ++ rest = u ++ hole) (hopen : endsOpen u) (hnil : u ≠ [])
    (hminus : u ≠ [.mark .minus]) :
    ∃ v, u = w ++ v ∧ v ≠ [] ∧ rest = v ++ hole ∧ Numeral w e (v ++ hole') := by
  cases h with
  | literal h hbound =>
    obtain ⟨v, rfl, hv, rfl⟩ := h.exists_append hword hopen hnil hminus
    refine ⟨v, rfl, hv, rfl, .literal h fun x hx hstarts => ?_⟩
    obtain ⟨k, v, rfl⟩ := List.exists_cons_of_ne_nil hv
    obtain ⟨rfl, rfl⟩ := List.cons.inj hx
    have hopen := endsOpen_of_append hopen
    refine hbound (v ++ hole) rfl (hstarts.exchange hhole' (endsOpen_of_cons hopen) ?_)
    exact ne_minus_of_opens hopen rfl
  | range hfirst hlast hsuffix =>
    rw [List.append_assoc, List.cons_append] at hword
    obtain ⟨v, rfl, hv, hrange⟩ := hfirst.exists_append hword hopen hnil hminus
    obtain ⟨k, v, rfl⟩ := List.exists_cons_of_ne_nil hv
    obtain ⟨rfl, hrest⟩ := List.cons.inj hrange
    have hopen := endsOpen_of_append hopen
    -- the second bound ends in front of the place too, since none starts there
    have hne : v ≠ [] := by
      rintro rfl
      exact hhole.unbound ⟨_, _, _, hlast, hrest.symm, hsuffix⟩
    obtain ⟨v, rfl, hv, rfl⟩ := hlast.exists_append hrest (endsOpen_of_cons hopen) hne
      (ne_minus_of_opens hopen rfl)
    rw [startsInSuffix_append hv] at hsuffix
    exact ⟨v, by simp, hv, rfl, .range hfirst hlast ((startsInSuffix_append hv).mpr hsuffix)⟩

theorem mem_parameters {params : List String} {k : Token.Kind} (h : k ∈ parameters params) :
    k = .mark .comma ∨ ∃ s, k = .name s := by
  induction params with
  | nil => cases h
  | cons s params ih =>
    by_cases hnil : params = []
    · subst hnil
      exact .inr ⟨s, List.mem_singleton.mp h⟩
    · rw [parameters_cons s hnil, List.mem_cons, List.mem_cons] at h
      rcases h with h | h | h
      · exact .inr ⟨s, h⟩
      · exact .inl h
      · exact ih h

/-- The head of a lambda ends in front of the place. -/
theorem exists_append_of_head {params : List String} (hhole : StartsOperand hole)
    (hword : parameters params ++ [.mark .closeParen, .mark .arrow] ++ rest = u ++ hole) :
    ∃ v, u = parameters params ++ [.mark .closeParen, .mark .arrow] ++ v ∧ rest = v ++ hole := by
  rcases List.append_eq_append_iff.mp hword with ⟨v, hu, hrest⟩ | ⟨v, hhead, hrest⟩
  · exact ⟨v, hu, hrest⟩
  · cases v with
    | nil => exact ⟨[], by simpa using hhead.symm, by simpa using hrest.symm⟩
    | cons k v =>
      -- no operand starts inside of the head
      have hmem : k ∈ parameters params ++ [.mark .closeParen, .mark .arrow] := by simp [hhead]
      have hfirst := hhole.first
      simp only [List.mem_append, List.mem_cons, List.not_mem_nil, or_false] at hmem
      rw [hrest, List.cons_append, ahead_cons] at hfirst
      rcases hmem with hmem | rfl | rfl
      · rcases mem_parameters hmem with rfl | ⟨s, rfl⟩ <;> simp [isNumber] at hfirst
      · simp [isNumber] at hfirst
      · simp [isNumber] at hfirst

/-- The same kinds are ahead, or the same word with the two operands behind it. -/
def Twins (hole hole' : Word) (P : Word → Prop) (ts ts' : Input) : Prop :=
  ts.kinds = ts'.kinds ∨
    ∃ u, endsOpen u ∧ P u ∧ ts.kinds = u ++ hole ∧ ts'.kinds = u ++ hole'

/-- What comes next is an operand, or an item. -/
abbrev BeforeOperand (hole hole' : Word) : Input → Input → Prop :=
  Twins hole hole' (· ≠ [.mark .minus])

/-- An operand, or a part of one, has been read. -/
abbrev BehindOperand (hole hole' : Word) : Input → Input → Prop :=
  Twins hole hole' (· ≠ [])

/-- The two operands do not come next. -/
abbrev Apart (hole hole' : Word) : Input → Input → Prop :=
  Twins hole hole' fun u => u ≠ [] ∧ u ≠ [.mark .minus]

namespace Twins

variable {P : Word → Prop} {ts ts' : Input}

theorem symm (h : Twins hole hole' P ts ts') : Twins hole' hole P ts' ts := by
  rcases h with h | ⟨u, hopen, hP, hts, hts'⟩
  · exact .inl h.symm
  · exact .inr ⟨u, hopen, hP, hts', hts⟩

theorem mono {Q : Word → Prop} (h : Twins hole hole' P ts ts') (hPQ : ∀ u, P u → Q u) :
    Twins hole hole' Q ts ts' := by
  rcases h with h | ⟨u, hopen, hP, hts, hts'⟩
  · exact .inl h
  · exact .inr ⟨u, hopen, hPQ u hP, hts, hts'⟩

theorem behind (h : Apart hole hole' ts ts') : BehindOperand hole hole' ts ts' :=
  h.mono fun _ hu => hu.1

theorem apart_or (h : BeforeOperand hole hole' ts ts') :
    (ts.kinds = hole ∧ ts'.kinds = hole') ∨ Apart hole hole' ts ts' := by
  rcases h with h | ⟨u, hopen, hP, hts, hts'⟩
  · exact .inr (.inl h)
  · by_cases hu : u = []
    · subst hu
      exact .inl ⟨hts, hts'⟩
    · exact .inr (.inr ⟨u, hopen, ⟨hu, hP⟩, hts, hts'⟩)

theorem kind_eq (h : BehindOperand hole hole' ts ts') : ts.kind = ts'.kind := by
  rw [ts.kind_eq, ts'.kind_eq]
  rcases h with h | ⟨u, -, hu, hts, hts'⟩
  · rw [h]
  · obtain ⟨k, u, rfl⟩ := List.exists_cons_of_ne_nil hu
    rw [hts, hts']
    rfl

theorem tail (h : BehindOperand hole hole' ts ts')
    (hP : ∀ u, endsOpen (ts.kind :: u) → P u) : Twins hole hole' P ts.tail ts'.tail := by
  rw [Twins, ts.kinds_tail, ts'.kinds_tail]
  rcases h with h | ⟨u, hopen, hu, hts, hts'⟩
  · exact .inl (by rw [h])
  · obtain ⟨k, u, rfl⟩ := List.exists_cons_of_ne_nil hu
    have hk : ts.kind = k := by
      rw [ts.kind_eq, hts]
      rfl
    exact .inr ⟨u, endsOpen_of_cons hopen, hP u (hk ▸ hopen), by rw [hts]; rfl, by rw [hts']; rfl⟩

theorem tail_before (h : BehindOperand hole hole' ts ts') (hk : opens ts.kind) :
    BeforeOperand hole hole' ts.tail ts'.tail :=
  h.tail fun _ hopen => ne_minus_of_opens hopen hk

theorem tail_behind (h : BehindOperand hole hole' ts ts') (hk : opens ts.kind = false) :
    BehindOperand hole hole' ts.tail ts'.tail :=
  h.tail fun _ hopen => ne_nil_of_not_opens hopen hk

theorem apart (hhole : StartsOperand hole) (h : BeforeOperand hole hole' ts ts')
    (hnumber : isNumber ts.kind = false) (hminus : ts.kind ≠ .mark .minus)
    (hparen : ts.kind ≠ .mark .openParen) : Apart hole hole' ts ts' := by
  rcases h.apart_or with ⟨hts, -⟩ | h
  · have hfirst := hhole.first
    rw [← hts, ← ts.kind_eq, hnumber] at hfirst
    rcases hfirst with hfirst | hfirst | hfirst
    · cases hfirst
    · exact absurd hfirst hminus
    · exact absurd hfirst hparen
  · exact h

theorem apart_of_mark (hhole : StartsOperand hole) (h : BeforeOperand hole hole' ts ts') {m : Mark}
    (hm : opens (.mark m) = false) (hkind : ts.kind = .mark m) : Apart hole hole' ts ts' := by
  refine h.apart hhole (hkind ▸ rfl) ?_ ?_ <;>
  · rw [hkind]
    rintro ⟨rfl⟩
    cases hm

/-- A mark that closes is ahead in both, or in none. -/
theorem isMark_eq (hhole : StartsOperand hole) (hhole' : StartsOperand hole')
    (h : BeforeOperand hole hole' ts ts') {m : Mark} (hm : opens (.mark m) = false) :
    ts.kind.isMark m = ts'.kind.isMark m := by
  rw [Bool.eq_iff_iff, isMark_iff, isMark_iff]
  constructor
  · intro hkind
    rw [← (h.apart_of_mark hhole hm hkind).behind.kind_eq, hkind]
  · intro hkind
    rw [← (h.symm.apart_of_mark hhole' hm hkind).behind.kind_eq, hkind]

end Twins

section

variable {ts ts' : Input} (hhole : StartsOperand hole) (hhole' : StartsOperand hole')

include hhole

theorem head?_exchanges (hts : BeforeOperand hole hole' ts ts') {params : List String}
    {rest : List Token} (h : head? ts.tokens = some (params, rest)) :
    ∃ rest', head? ts'.tokens = some (params, rest') ∧
      BeforeOperand hole hole' { ts with tokens := rest } { ts' with tokens := rest' } := by
  obtain ⟨taken, htokens, htaken⟩ := head?_eq_some_iff.mp h
  have hkinds : ts.kinds = kindsOf taken ++ kindsOf rest := by
    rw [Input.kinds, htokens, List.map_append]
  rcases hts with hts | ⟨u, hopen, -, hts, hts'⟩
  · obtain ⟨taken', rest', htokens', htaken', hrest'⟩ :=
      List.map_eq_append_iff.mp (hts.symm.trans hkinds)
    exact ⟨rest', head?_eq_some_iff.mpr ⟨taken', htokens', htaken'.trans htaken⟩, .inl hrest'.symm⟩
  · rw [htaken] at hkinds
    obtain ⟨v, rfl, hrest⟩ := exists_append_of_head hhole (hkinds.symm.trans hts)
    rw [List.append_assoc] at hts'
    obtain ⟨taken', rest', htokens', htaken', hrest'⟩ := List.map_eq_append_iff.mp hts'
    refine ⟨rest', head?_eq_some_iff.mpr ⟨taken', htokens', htaken'⟩, .inr ?_⟩
    refine ⟨v, ?_, ?_, hrest, hrest'⟩
    · exact endsOpen_of_append hopen
    · have harrow : endsOpen (.mark .arrow :: v) := by
        refine endsOpen_of_append (v := parameters params ++ [.mark .closeParen]) ?_
        simpa using hopen
      exact ne_minus_of_opens harrow rfl

theorem prefixOp?_eq_none (hts : ts.kinds = hole) : prefixOp? ts = none := by
  have hfirst := hhole.first
  rw [Option.eq_none_iff_forall_ne_some]
  intro op hop
  rw [prefixOp?_eq_some_iff, ts.kind_eq, ts.kinds_tail, hts] at hop
  rcases hop with ⟨-, hnot⟩ | ⟨-, hminus, hnumber⟩
  · simp [hnot, isNumber] at hfirst
  · exact hnumber (hhole.minus hminus)

include hhole'

theorem numeral?_exchanges (hts : Apart hole hole' ts ts') {rest : List Token}
    (h : numeral? ts.tokens = some (e, rest)) :
    ∃ rest', numeral? ts'.tokens = some (e, rest') ∧
      BehindOperand hole hole' { ts with tokens := rest } { ts' with tokens := rest' } := by
  obtain ⟨taken, htokens, hnumeral⟩ := numeral?_eq_some_iff.mp h
  have hkinds : ts.kinds = kindsOf taken ++ kindsOf rest := by
    rw [Input.kinds, htokens, List.map_append]
  rcases hts with hts | ⟨u, hopen, ⟨hnil, hminus⟩, hts, hts'⟩
  · obtain ⟨taken', rest', htokens', htaken', hrest'⟩ :=
      List.map_eq_append_iff.mp (hts.symm.trans hkinds)
    rw [← htaken', ← hrest'] at hnumeral
    exact ⟨rest', numeral?_eq_some_iff.mpr ⟨taken', htokens', hnumeral⟩, .inl hrest'.symm⟩
  · obtain ⟨v, hu, hv, hrest, hnumeral⟩ :=
      hnumeral.exchange hhole hhole' (hkinds.symm.trans hts) hopen hnil hminus
    rw [hu, List.append_assoc] at hts'
    obtain ⟨taken', rest', htokens', htaken', hrest'⟩ := List.map_eq_append_iff.mp hts'
    rw [← htaken', ← hrest'] at hnumeral
    refine ⟨rest', numeral?_eq_some_iff.mpr ⟨taken', htokens', hnumeral⟩, .inr ?_⟩
    exact ⟨v, endsOpen_of_append (hu ▸ hopen), hv, hrest, hrest'⟩

theorem prefixOp?_eq (hts : BeforeOperand hole hole' ts ts') : prefixOp? ts = prefixOp? ts' := by
  rcases hts.apart_or with ⟨hts, hts'⟩ | hts
  · rw [prefixOp?_eq_none hhole hts, prefixOp?_eq_none hhole' hts']
  · -- what is behind a minus is in front of the place
    have hnumber (hkind : ts.kind = .mark .minus) :
        StartsInNumber ts.tail.kinds ↔ StartsInNumber ts'.tail.kinds := by
      rw [ts.kinds_tail, ts'.kinds_tail]
      rcases hts with hts | ⟨u, -, ⟨hnil, hminus⟩, hts, hts'⟩
      · rw [hts]
      · obtain ⟨k, u, rfl⟩ := List.exists_cons_of_ne_nil hnil
        obtain rfl : k = .mark .minus := by
          rw [ts.kind_eq, hts] at hkind
          exact hkind
        obtain ⟨k, u, rfl⟩ := List.exists_cons_of_ne_nil fun h => hminus (h ▸ rfl)
        rw [hts, hts']
        exact Iff.rfl
    refine Option.ext fun op => ?_
    rw [prefixOp?_eq_some_iff, prefixOp?_eq_some_iff, ← hts.behind.kind_eq]
    constructor <;>
    · rintro (h | ⟨hop, hkind, h⟩)
      · exact .inl h
      · simp_all

end

end Parser

end Stencil

import Stencil.Proofs.Eval.Levels

/-!
# The overload for a call

A call can mean the overloads of its name that take so many arguments, and behind a target only
those that may be called there. It means the one of which the most arguments fit as they stand, and
of equally good ones the first. Its arguments are then brought to the declared kinds, and the call
fails at the first one that cannot be.
-/

namespace Stencil

namespace ParamKind

/-- The value is of this kind; every value is of the kind `any`. -/
def Holds (kind : ParamKind) (v : Value) : Prop :=
  kind = any ∨ kind.isExact v = true

theorem coerce?_of_isExact {kind : ParamKind} {v : Value} (h : kind.isExact v = true) :
    kind.coerce? v = some v := by
  cases kind with
  | lambda => exact if_pos h
  | _ => cases v <;> first | rfl | cases h

theorem holds_of_coerce? {kind : ParamKind} {v v' : Value} (h : kind.coerce? v = some v') :
    kind.Holds v' := by
  cases kind with
  | any => exact .inl rfl
  | boolean =>
    obtain rfl := Option.some.inj h
    exact .inr rfl
  | number =>
    obtain ⟨n, -, rfl⟩ := Option.map_eq_some_iff.mp h
    cases n <;> exact .inr rfl
  | string =>
    cases v <;> cases h <;> exact .inr rfl
  | array | object =>
    obtain ⟨hkind, h⟩ := Option.ite_none_right_eq_some.mp h
    obtain rfl := Option.some.inj h
    cases v <;> cases hkind
    exact .inr rfl
  | lambda =>
    obtain ⟨hcallable, h⟩ := Option.ite_none_right_eq_some.mp h
    obtain rfl := Option.some.inj h
    exact .inr hcallable

end ParamKind

/-- Each argument is brought to its kind, and one that is of it already is left as it stands. -/
structure Brought (kinds : List ParamKind) (args args' : List Value) : Prop where
  length_eq : args'.length = args.length
  each : ∀ (i : Nat) (v : Value), args[i]? = some v → ∃ (kind : ParamKind) (v' : Value),
    kinds[i]? = some kind ∧ args'[i]? = some v' ∧ kind.coerce? v = some v' ∧ kind.Holds v' ∧
      (kind.isExact v = true → v' = v)

/-- The argument at this position, counted from zero, is the first one that cannot be brought to its
kind. -/
structure FirstMisfit (kinds : List ParamKind) (args : List Value) (position : Nat)
    (kind : ParamKind) (v : Value) : Prop where
  kind_eq : kinds[position]? = some kind
  argument_eq : args[position]? = some v
  misfit : kind.coerce? v = none
  first : ∀ i k w, i < position → kinds[i]? = some k → args[i]? = some w →
    (k.coerce? w).isSome = true

variable {kind k : ParamKind} {kinds : List ParamKind} {v v' w : Value} {args args' : List Value}
  {position : Nat}

theorem brought_nil (kinds : List ParamKind) : Brought kinds [] [] :=
  ⟨rfl, nofun⟩

theorem brought_cons_iff : Brought (kind :: kinds) (v :: args) (v' :: args') ↔
    kind.coerce? v = some v' ∧ Brought kinds args args' := by
  constructor
  · rintro ⟨hlength, heach⟩
    obtain ⟨_, _, hkind, hv', hcoerce, -⟩ := heach 0 v rfl
    obtain rfl := Option.some.inj hkind
    obtain rfl := Option.some.inj hv'
    exact ⟨hcoerce, Nat.succ.inj hlength, fun i => heach (i + 1)⟩
  · rintro ⟨hcoerce, hlength, heach⟩
    have hexact (h : kind.isExact v = true) : v' = v :=
      Option.some.inj (hcoerce.symm.trans (ParamKind.coerce?_of_isExact h))
    refine ⟨congrArg Nat.succ hlength, fun i w hw => ?_⟩
    cases i with
    | zero =>
      obtain rfl := Option.some.inj hw
      exact ⟨kind, v', rfl, rfl, hcoerce, ParamKind.holds_of_coerce? hcoerce, hexact⟩
    | succ i => exact heach i w hw

theorem firstMisfit_zero (h : kind.coerce? v = none) :
    FirstMisfit (kind :: kinds) (v :: args) 0 kind v :=
  ⟨rfl, rfl, h, fun i _ _ hi => absurd hi i.not_lt_zero⟩

theorem firstMisfit_succ_iff (h : kind.coerce? v = some v') :
    FirstMisfit (kind :: kinds) (v :: args) (position + 1) k w ↔
      FirstMisfit kinds args position k w := by
  constructor
  · rintro ⟨hkind, hargument, hmisfit, hfirst⟩
    exact ⟨hkind, hargument, hmisfit, fun i k w hi => hfirst (i + 1) k w (Nat.succ_lt_succ hi)⟩
  · rintro ⟨hkind, hargument, hmisfit, hfirst⟩
    refine ⟨hkind, hargument, hmisfit, fun i k w hi hk hw => ?_⟩
    cases i with
    | zero =>
      obtain rfl := Option.some.inj hk
      obtain rfl := Option.some.inj hw
      exact Option.isSome_of_eq_some h
    | succ i => exact hfirst i k w (Nat.lt_of_succ_lt_succ hi) hk hw

theorem FirstMisfit.eq_zero (h : FirstMisfit (kind :: kinds) (v :: args) position k w)
    (hmisfit : kind.coerce? v = none) : position = 0 ∧ k = kind ∧ w = v := by
  cases position with
  | zero => exact ⟨rfl, (Option.some.inj h.kind_eq).symm, (Option.some.inj h.argument_eq).symm⟩
  | succ position =>
    have hfits := h.first 0 kind v (Nat.succ_pos position) rfl rfl
    rw [hmisfit] at hfits
    cases hfits

namespace Registry

theorem coerceAll_nil (s : Signature) (position : Nat) (kinds : List ParamKind) :
    coerceAll s position kinds [] = .ok [] := by
  cases kinds <;> rfl

/-- A fault is the one of the first argument that cannot be brought to its kind. -/
theorem coerceAll_eq_error_iff {s : Signature} {fault : ArgumentFault} :
    coerceAll s position kinds args = .error fault ↔
      ∃ i kind v, FirstMisfit kinds args i kind v ∧
        fault = .kind (position + i) s kind v.kind := by
  induction args generalizing position kinds with
  | nil =>
    rw [coerceAll_nil]
    exact ⟨nofun, fun ⟨_, _, _, h, _⟩ => nomatch h.argument_eq⟩
  | cons v args ih =>
    cases kinds with
    | nil => exact ⟨nofun, fun ⟨_, _, _, h, _⟩ => nomatch h.kind_eq⟩
    | cons kind kinds =>
      cases hcoerce : kind.coerce? v with
      | none =>
        simp only [coerceAll, hcoerce, Except.error.injEq]
        constructor
        · rintro rfl
          exact ⟨0, kind, v, firstMisfit_zero hcoerce, rfl⟩
        · rintro ⟨i, k, w, h, rfl⟩
          obtain ⟨rfl, rfl, rfl⟩ := h.eq_zero hcoerce
          rfl
      | some v' =>
        simp only [coerceAll, hcoerce, map_eq_error, ih]
        constructor
        · rintro ⟨i, k, w, h, rfl⟩
          exact ⟨i + 1, k, w, (firstMisfit_succ_iff hcoerce).mpr h, by rw [Nat.add_right_comm]; rfl⟩
        · rintro ⟨i, k, w, h, rfl⟩
          cases i with
          | zero =>
            have hmisfit := h.misfit
            obtain rfl := Option.some.inj h.kind_eq
            obtain rfl := Option.some.inj h.argument_eq
            rw [hcoerce] at hmisfit
            cases hmisfit
          | succ i =>
            exact ⟨i, k, w, (firstMisfit_succ_iff hcoerce).mp h, by rw [Nat.add_right_comm]; rfl⟩

theorem coerceAll_eq_ok_iff {s : Signature} (h : args.length ≤ kinds.length) :
    coerceAll s position kinds args = .ok args' ↔ Brought kinds args args' := by
  induction args generalizing position kinds args' with
  | nil =>
    rw [coerceAll_nil, Except.ok.injEq]
    constructor
    · rintro rfl
      exact brought_nil kinds
    · intro hbrought
      exact (List.length_eq_zero_iff.mp hbrought.length_eq).symm
  | cons v args ih =>
    cases kinds with
    | nil => exact absurd h (Nat.not_succ_le_zero _)
    | cons kind kinds =>
      cases hcoerce : kind.coerce? v with
      | none =>
        simp only [coerceAll, hcoerce, reduceCtorEq, false_iff]
        intro hbrought
        obtain ⟨_, _, hkind, -, hv', -⟩ := hbrought.each 0 v rfl
        obtain rfl := Option.some.inj hkind
        rw [hcoerce] at hv'
        cases hv'
      | some v' =>
        simp only [coerceAll, hcoerce, map_eq_ok, ih (Nat.le_of_succ_le_succ h)]
        constructor
        · rintro ⟨rest, hrest, rfl⟩
          exact brought_cons_iff.mpr ⟨hcoerce, hrest⟩
        · intro hbrought
          cases args' with
          | nil => cases hbrought.length_eq
          | cons w rest =>
            obtain ⟨hw, hrest⟩ := brought_cons_iff.mp hbrought
            rw [hcoerce, Option.some_inj] at hw
            exact ⟨rest, hrest, by rw [hw]⟩

theorem best?_eq_argmax (args : List Value) (os : List Overload) :
    best? args os = os.argmax fun o => o.signature.score args := by
  rw [best?, List.argmax]
  congr 1
  funext best o
  cases best <;> rfl

theorem best?_eq_none_iff (args : List Value) {os : List Overload} :
    best? args os = none ↔ os = [] := by
  rw [best?_eq_argmax, List.argmax_eq_none]

theorem exists_split_of_best? {os : List Overload} {o : Overload} (h : best? args os = some o) :
    ∃ before after, os = before ++ o :: after ∧
      (∀ o' ∈ before, o'.signature.score args < o.signature.score args) ∧
      ∀ o' ∈ after, o'.signature.score args ≤ o.signature.score args := by
  rw [best?_eq_argmax] at h
  exact exists_split_of_argmax h

end Registry

theorem Signature.length_le_of_accepts {s : Signature} {arity : Nat} (h : s.accepts arity = true) :
    arity ≤ s.params.length := by
  simp only [accepts, Bool.or_eq_true, Bool.and_eq_true, decide_eq_true_eq] at h
  omega

/-- A call of this name with so many arguments can mean the overload. -/
structure Overload.IsCandidate (o : Overload) (name : String) (arity : Nat) (onTarget : Bool) :
    Prop where
  name_eq : o.signature.name = name
  accepts : o.signature.accepts arity = true
  instanceCall : onTarget = true → o.signature.instanceCall = true

/-- Of the candidates in a row of overloads, this is the first one with the highest score. -/
structure Selects (os : List Overload) (name : String) (args : List Value) (onTarget : Bool)
    (o : Overload) : Prop where
  candidate : o.IsCandidate name args.length onTarget
  first_best : ∃ before after, os = before ++ o :: after ∧
    (∀ o' ∈ before, o'.IsCandidate name args.length onTarget →
      o'.signature.score args < o.signature.score args) ∧
    ∀ o' ∈ after, o'.IsCandidate name args.length onTarget →
      o'.signature.score args ≤ o.signature.score args

namespace Registry

variable {r : Registry} {name : String} {arity : Nat} {onTarget : Bool} {o : Overload}

theorem candidates_eq_filter (r : Registry) (name : String) (arity : Nat) (onTarget : Bool) :
    ∃ p : Overload → Bool, r.candidates name arity onTarget = r.overloads.filter p ∧
      ∀ o, p o = true ↔ o.IsCandidate name arity onTarget := by
  refine ⟨_, List.filter_filter .., fun o => ?_⟩
  simp only [Bool.and_eq_true, Bool.or_eq_true, Bool.not_eq_true', decide_eq_true_eq]
  constructor
  · rintro ⟨⟨hinstance, haccepts⟩, hname⟩
    exact ⟨hname, haccepts, by rintro rfl; exact hinstance.resolve_left (by decide)⟩
  · rintro ⟨hname, haccepts, hinstance⟩
    refine ⟨⟨?_, haccepts⟩, hname⟩
    cases onTarget with
    | false => exact .inl rfl
    | true => exact .inr (hinstance rfl)

theorem mem_candidates_iff :
    o ∈ r.candidates name arity onTarget ↔ o ∈ r.overloads ∧ o.IsCandidate name arity onTarget := by
  obtain ⟨p, hfilter, hp⟩ := candidates_eq_filter r name arity onTarget
  rw [hfilter, List.mem_filter, hp]

theorem candidates_eq_nil_iff : r.candidates name arity onTarget = [] ↔
    ∀ o ∈ r.overloads, ¬ o.IsCandidate name arity onTarget := by
  simp only [List.eq_nil_iff_forall_not_mem, mem_candidates_iff, not_and]

theorem selects_of_best? (h : best? args (r.candidates name args.length onTarget) = some o) :
    Selects r.overloads name args onTarget o := by
  obtain ⟨p, hfilter, hp⟩ := candidates_eq_filter r name args.length onTarget
  obtain ⟨before, after, hsplit, hbefore, hafter⟩ := exists_split_of_best? h
  rw [hfilter, List.filter_eq_append_iff] at hsplit
  obtain ⟨front, back, hos, rfl, hback⟩ := hsplit
  obtain ⟨skipped, rest, rfl, hskipped, ho, rfl⟩ := List.filter_eq_cons_iff.mp hback
  refine ⟨(hp o).mp ho, front ++ skipped, rest, by rw [hos, List.append_assoc], ?_, ?_⟩
  · intro o' ho' hcandidate
    rcases List.mem_append.mp ho' with hfront | hmem
    · exact hbefore o' (List.mem_filter.mpr ⟨hfront, (hp o').mpr hcandidate⟩)
    · exact absurd ((hp o').mpr hcandidate) (hskipped o' hmem)
  · intro o' ho' hcandidate
    exact hafter o' (List.mem_filter.mpr ⟨ho', (hp o').mpr hcandidate⟩)

theorem acceptsArity_eq_false_iff : r.acceptsArity name arity = false ↔
    ∀ o ∈ r.overloads, ¬ o.IsCandidate name arity false := by
  simp only [acceptsArity, named, List.any_eq_false, List.mem_filter, decide_eq_true_eq]
  constructor
  · exact fun h o ho hcandidate => h o ⟨ho, hcandidate.name_eq⟩ hcandidate.accepts
  · intro h o ho haccepts
    exact h o ho.1 ⟨ho.2, haccepts, fun hfalse => absurd hfalse Bool.false_ne_true⟩

theorem overloads_foldl_register (os : List Overload) (r : Registry) :
    (os.foldl register r).overloads = r.overloads ++ os := by
  induction os generalizing r with
  | nil => rw [List.append_nil]; rfl
  | cons o os ih => rw [List.foldl_cons, ih, register, List.append_assoc]; rfl

theorem resolve_of_selected (h : best? args (r.candidates name args.length onTarget) = some o) :
    (∀ e, r.resolve name args onTarget = .error e ↔
      ∃ position kind v, FirstMisfit o.signature.params args position kind v ∧
        e = .argument name (.kind (position + 1) o.signature kind v.kind)) ∧
    ∀ o' args', r.resolve name args onTarget = .ok (o', args') ↔
      o' = o ∧ Brought o.signature.params args args' := by
  have hlength : args.length ≤ o.signature.params.length :=
    Signature.length_le_of_accepts (selects_of_best? h).candidate.accepts
  simp only [resolve, h]
  constructor
  · intro e
    simp only [map_eq_error, mapError_eq_error, coerceAll_eq_error_iff]
    constructor
    · rintro ⟨_, ⟨i, kind, v, hmisfit, rfl⟩, rfl⟩
      exact ⟨i, kind, v, hmisfit, by rw [Nat.add_comm]⟩
    · rintro ⟨i, kind, v, hmisfit, rfl⟩
      exact ⟨_, ⟨i, kind, v, hmisfit, rfl⟩, by rw [Nat.add_comm]⟩
  · intro o' args'
    simp only [map_eq_ok, mapError_eq_ok, coerceAll_eq_ok_iff hlength, Prod.mk.injEq]
    constructor
    · rintro ⟨_, hbrought, rfl, rfl⟩
      exact ⟨rfl, hbrought⟩
    · rintro ⟨rfl, hbrought⟩
      exact ⟨args', hbrought, rfl, rfl⟩

theorem resolve_eq_unknown_iff :
    r.resolve name args onTarget = .error (.unknownFunction name args.length) ↔
      ∀ o ∈ r.overloads, ¬ o.IsCandidate name args.length onTarget := by
  rw [← candidates_eq_nil_iff, ← best?_eq_none_iff args]
  cases hbest : best? args (r.candidates name args.length onTarget) with
  | none => simp [resolve, hbest]
  | some o =>
    constructor
    · intro h
      obtain ⟨_, _, _, -, he⟩ := ((resolve_of_selected hbest).1 _).mp h
      cases he
    · intro h
      cases h

/-- The registry that these overloads were registered in, one after another. -/
def registered (os : List Overload) : Registry :=
  os.foldl register empty

theorem overloads_registered (os : List Overload) : (registered os).overloads = os :=
  overloads_foldl_register os empty

/-- A call that no overload is a candidate for is unknown. Any other call means the first of the
best candidates: it fails if some argument cannot be brought to its kind, with the first such
argument, and gets all of its arguments, each of its kind, if there is none. -/
theorem resolve_registered (os : List Overload) (name : String) (args : List Value)
    (onTarget : Bool) :
    ((registered os).resolve name args onTarget = .error (.unknownFunction name args.length) ↔
      ¬ ∃ o ∈ os, o.IsCandidate name args.length onTarget) ∧
    ((∃ o ∈ os, o.IsCandidate name args.length onTarget) →
      ∃ o, Selects os name args onTarget o ∧
        (∀ e, (registered os).resolve name args onTarget = .error e ↔
          ∃ position kind v, FirstMisfit o.signature.params args position kind v ∧
            e = .argument name (.kind (position + 1) o.signature kind v.kind)) ∧
        ∀ o' args', (registered os).resolve name args onTarget = .ok (o', args') ↔
          o' = o ∧ Brought o.signature.params args args') ∧
    ((registered os).resolve name args false = .error (.unknownFunction name args.length) ↔
      (registered os).acceptsArity name args.length = false) := by
  refine ⟨?_, fun ⟨o, ho, hcandidate⟩ => ?_, ?_⟩
  · rw [resolve_eq_unknown_iff, overloads_registered]
    simp only [not_exists, not_and]
  · rw [← overloads_registered os] at ho
    cases hbest : best? args ((registered os).candidates name args.length onTarget) with
    | none =>
      rw [best?_eq_none_iff args, candidates_eq_nil_iff] at hbest
      exact absurd hcandidate (hbest o ho)
    | some best =>
      have hselects := selects_of_best? hbest
      rw [overloads_registered] at hselects
      exact ⟨best, hselects, resolve_of_selected hbest⟩
  · rw [resolve_eq_unknown_iff, acceptsArity_eq_false_iff]

/-- A function of an array and a value of this kind. -/
def picking (kind : ParamKind) : Overload where
  signature := (Signature.plain "pick" [.array, kind]).onTarget
  body _ args := .ok (.ofItems args)

/-- Neither overload fits a boolean as it stands: the first one is taken, which makes a text of it. -/
theorem resolve_registered_of_picking :
    (∃ o ∈ [picking .string, picking .number], o.IsCandidate "pick" 2 false) ∧
      Selects [picking .string, picking .number] "pick" [.ofItems [], .boolean true] false
        (picking .string) ∧
      Brought [.array, .string] [.ofItems [], .boolean true] [.ofItems [], .string "true"] := by
  have hcandidate : ∃ o ∈ [picking .string, picking .number], o.IsCandidate "pick" 2 false :=
    ⟨picking .string, List.mem_cons_self, rfl, rfl, nofun⟩
  obtain ⟨-, hselected, -⟩ := resolve_registered [picking .string, picking .number] "pick"
    [.ofItems [], .boolean true] false
  obtain ⟨o, hselects, -, hok⟩ := hselected hcandidate
  obtain ⟨rfl, hbrought⟩ := (hok (picking .string) [.ofItems [], .string "true"]).mp rfl
  exact ⟨hcandidate, hselects, hbrought⟩

end Registry

end Stencil

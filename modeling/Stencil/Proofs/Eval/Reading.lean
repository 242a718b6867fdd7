import Stencil.Proofs.Agreement
import Stencil.Proofs.Eval.Levels
import Stencil.Proofs.Value.Captures

/-!
# What operators and functions read

The operators and the built-in functions come to similar results for similar values, or fail alike:
none of them reads what a lambda has captured.
-/

namespace Stencil

variable {root : Trail}

namespace Value

variable {v v' w w' : Value}

/-- A function that does not read what is captured gives the same for similar values. -/
theorem Similar.congr {γ : Type} {f : Value → γ} (hf : ∀ v, f v.bare = f v)
    (h : Similar root v w) : f v = f w := by
  rw [← hf v, h.bare_eq, hf]

theorem Similar.congr₂ {γ : Type} {f : Value → Value → γ} (hf : ∀ v w, f v.bare w.bare = f v w)
    (h : Similar root v w) (h' : Similar root v' w') : f v v' = f w w' := by
  rw [← hf v, h.bare_eq, h'.bare_eq, hf]

/-- The same failure, or similar results. -/
abbrev SimilarOutcome (root : Trail) : Outcome → Outcome → Prop :=
  SameUpTo (Similar root)

/-- Two cases that are told apart by whether there is a value. -/
theorem similarOutcome_option {o o' : Option Value} {f g : Value → Outcome} {x y : Outcome}
    (hsome : ∀ u u', Similar root u u' → SimilarOutcome root (f u) (g u'))
    (hnone : SimilarOutcome root x y) : Option.Rel (Similar root) o o' →
    SimilarOutcome root (match o with | some u => f u | none => x)
      (match o' with | some u => g u | none => y) := by
  intro h
  cases h with
  | some h => exact hsome _ _ h
  | none => exact hnone

theorem range_bare (v w : Value) : v.bare.range w.bare = v.range w := by
  simp [range, bound]

theorem unary_bare (op : UnaryOp) (v : Value) : v.bare.unary op = v.unary op := by
  cases op <;> simp [unary]

theorem binary_bare (op : BinaryOp) (v w : Value) : binary op v.bare w.bare = binary op v w := by
  cases op with
  | or | and | equal | notEqual => simp [binary]
  | order op => simp [binary, order]
  | arith op => cases op <;> simp [binary, arith, add]

theorem position_bare (target i : Value) (length : Nat) :
    position target.bare i.bare length = position target i length := by
  simp [position]

theorem index_object_of_not_string {node : Node} {members : Fields Value} {i : Value}
    (h : i.isString = false) :
    index (object node members) i = (do
      let p ← position (object node members) i members.length
      return (members[p]?).elim null fun m => string m.1) := by
  cases i <;> first | rfl | cases h

theorem similarOutcome_index (h : Similar root v v') (hw : Similar root w w') :
    SimilarOutcome root (v.index w) (v'.index w') := by
  have hkind : w.kind = w'.kind := hw.congr kind_bare
  have hposition (length : Nat) : position v w length = position v' w' length :=
    h.congr₂ (f := fun v w => position v w length) (position_bare · · length) hw
  cases h with
  | @array node items items' hitems =>
    have hlength := hitems.length_eq
    simp only [index]
    rw [hposition, hlength]
    refine .bind (.of_eq (R := Eq) (fun _ => rfl) rfl) fun p _ hp => ?_
    subst hp
    have hitem := rel_getElem? hitems p
    generalize items[p]? = o, items'[p]? = o' at hitem
    cases hitem with
    | some hv => exact .ok hv
    | none => exact .ok (.refl _)
  | @object node members members' hnames hmembers =>
    have hsimilar := forall₂_similarMember_iff.mpr ⟨hnames, hmembers⟩
    cases hstring : w.isString with
    | true =>
      obtain ⟨s, rfl⟩ : ∃ s, w = string s := by cases w <;> simp [isString] at hstring ⊢
      cases hw
      have hmember := rel_get? hsimilar s
      simp only [index]
      generalize Fields.get? members s = o, Fields.get? members' s = o' at hmember
      cases hmember with
      | some hv => exact .ok hv
      | none => exact .ok (.refl _)
    | false =>
      have hstring' : w'.isString = false := by rwa [hw.congr isString_bare] at hstring
      rw [index_object_of_not_string hstring, index_object_of_not_string hstring', hposition,
        hsimilar.length_eq]
      refine .bind (.of_eq (R := Eq) (fun _ => rfl) rfl) fun p _ hp => ?_
      subst hp
      have hmember := rel_getElem? hsimilar p
      generalize members[p]? = o, members'[p]? = o' at hmember
      cases hmember with
      | some hm => exact .of_eq .refl (by simp [hm.1])
      | none => exact .of_eq .refl rfl
  | lambda =>
    simp only [index, hkind]
    exact .error _
  | leaf harray hobject =>
    apply SameUpTo.of_eq Similar.refl
    cases v with
    | array | object => simp [kind] at harray hobject
    | string s => simp only [index, hposition]
    | _ => simp only [index, hkind]

end Value

open Value (Similar SimilarOutcome)

theorem ParamKind.isExact_bare (kind : ParamKind) (v : Value) :
    kind.isExact v.bare = kind.isExact v := by
  cases kind <;> cases v <;> rfl

theorem ParamKind.rel_coerce? (kind : ParamKind) {v w : Value} (h : Similar root v w) :
    Option.Rel (Similar root) (kind.coerce? v) (kind.coerce? w) := by
  have hkind := h.congr Value.kind_bare
  cases kind with
  | any => exact .some h
  | boolean =>
    rw [coerce?, coerce?, h.congr Value.truthy_bare]
    exact Value.rel_refl _
  | number =>
    rw [coerce?, coerce?, h.congr Value.number?_bare]
    exact Value.rel_refl _
  | string =>
    cases h with
    | array | object | lambda => exact .none
    | leaf => exact Value.rel_refl _
  | array | object =>
    simp only [coerce?, hkind]
    split
    · exact .some h
    · exact .none
  | lambda =>
    simp only [coerce?, h.congr Value.isCallable_bare]
    split
    · exact .some h
    · exact .none

namespace Registry

variable {args args' : List Value}

theorem score_eq (s : Signature) (hargs : List.Forall₂ (Similar root) args args') :
    s.score args = s.score args' := by
  have hbare (args : List Value) : s.score (args.map Value.bare) = s.score args := by
    rw [Signature.score, Signature.score, List.zip_map_right, List.filter_map, List.length_map]
    congr 2
    funext p
    exact ParamKind.isExact_bare _ _
  rw [← hbare, Value.map_eq_map_of_forall₂ hargs fun _ _ _ h => h.bare_eq, hbare]

theorem best?_eq (os : List Overload) (hargs : List.Forall₂ (Similar root) args args') :
    best? args os = best? args' os := by
  simp only [best?, fun o : Overload => score_eq o.signature hargs]

theorem same_coerceAll (s : Signature) (position : Nat) (kinds : List ParamKind)
    (hargs : List.Forall₂ (Similar root) args args') :
    SameUpTo (List.Forall₂ (Similar root)) (coerceAll s position kinds args)
      (coerceAll s position kinds args') := by
  induction hargs generalizing position kinds with
  | nil => cases kinds <;> exact .ok .nil
  | @cons v w _ _ hv _ ih =>
    cases kinds with
    | nil => exact .ok .nil
    | cons kind kinds =>
      have hkind := hv.congr Value.kind_bare
      have hcoerced := kind.rel_coerce? hv
      rw [coerceAll, coerceAll]
      generalize kind.coerce? v = o, kind.coerce? w = o' at hcoerced
      cases hcoerced with
      | none =>
        rw [hkind]
        exact .error _
      | some hv => exact (ih (position + 1) kinds).map fun _ _ hvs => .cons hv hvs

/-- Calls with similar arguments mean the same overload, or fail alike. -/
theorem same_resolve (r : Registry) (name : String) (onTarget : Bool)
    (hargs : List.Forall₂ (Similar root) args args') :
    SameUpTo (fun p p' => p.1 ∈ r.overloads ∧ p.1 = p'.1 ∧ List.Forall₂ (Similar root) p.2 p'.2)
      (r.resolve name args onTarget) (r.resolve name args' onTarget) := by
  rw [resolve, resolve, best?_eq _ hargs, hargs.length_eq]
  split
  · exact .error _
  · rename_i o hbest
    have hmem := mem_of_mem_candidates (mem_of_best? hbest)
    have hcoerced := same_coerceAll o.signature 1 o.signature.params hargs
    generalize coerceAll o.signature 1 o.signature.params args = x,
      coerceAll o.signature 1 o.signature.params args' = y at hcoerced
    cases hcoerced with
    | ok hvs => exact .ok ⟨hmem, rfl, hvs⟩
    | error e => exact .error _

end Registry

/-- Callbacks that come to similar outcomes for similar callables and arguments. -/
def SimilarCallbacks (root : Trail) (callback callback' : Callback) : Prop :=
  ∀ (i : Nat) {f f' : Value} {args args' : List Value}, Similar root f f' →
    List.Forall₂ (Similar root) args args' →
    SimilarOutcome root (callback i f args) (callback' i f' args')

/-- Similar arguments and callbacks lead the function to similar outcomes. -/
def Overload.Respects (root : Trail) (o : Overload) : Prop :=
  ∀ ⦃callback callback' : Callback⦄ ⦃args args' : List Value⦄,
    SimilarCallbacks root callback callback' → List.Forall₂ (Similar root) args args' →
    SimilarOutcome root (o.body callback args) (o.body callback' args')

namespace Builtin

open Value

section

variable {items items' : List Value} (hitems : List.Forall₂ (Similar root) items items')
include hitems

theorem any_eq {p : Value → Bool} (hp : ∀ v, p v.bare = p v) : items.any p = items'.any p := by
  have hbare (items : List Value) : (items.map bare).any p = items.any p := by
    simp only [List.any_map, Function.comp_def, hp]
  rw [← hbare items, map_eq_map_of_forall₂ hitems fun _ _ _ h => h.bare_eq, hbare]

theorem findIdx?_eq {p : Value → Bool} (hp : ∀ v, p v.bare = p v) :
    items.findIdx? p = items'.findIdx? p := by
  have hbare (items : List Value) : (items.map bare).findIdx? p = items.findIdx? p := by
    simp only [List.findIdx?_map, Function.comp_def, hp]
  rw [← hbare items, map_eq_map_of_forall₂ hitems fun _ _ _ h => h.bare_eq, hbare]

theorem same_each {α β : Type} {R : α → β → Prop} {f : Nat → Value → Except EvalError α}
    {f' : Nat → Value → Except EvalError β}
    (hf : ∀ i {v v' : Value}, Similar root v v' → SameUpTo R (f i v) (f' i v')) (i : Nat) :
    SameUpTo (List.Forall₂ R) (each f i items) (each f' i items') := by
  induction hitems generalizing i with
  | nil => exact .ok .nil
  | cons hv _ ih =>
    exact .bind (hf i hv) fun _ _ ha => .bind (ih (i + 1)) fun _ _ has => .ok (.cons ha has)

theorem same_sublistOf (start : Int64) (stop : Option Int64) :
    SimilarOutcome root (sublistOf items start stop) (sublistOf items' start stop) := by
  simp only [sublistOf, hitems.length_eq]
  split
  · exact .error _
  · split
    · exact .ok (.array (List.forall₂_drop _ hitems))
    · split
      · exact .error _
      · exact .ok (.array (List.forall₂_drop _ (List.forall₂_take _ hitems)))

end

/-- An element with what is found for it. -/
def SimilarPair {α : Type} (root : Trail) (p p' : Value × α) : Prop :=
  Similar root p.1 p'.1 ∧ p.2 = p'.2

theorem rel_best? (better : Float → Float → Bool) {keyed keyed' : List (Value × Float)}
    (h : List.Forall₂ (SimilarPair root) keyed keyed') :
    Option.Rel (SimilarPair root) (best? better keyed) (best? better keyed') := by
  refine List.rel_foldl (P := Option.Rel (SimilarPair root)) ?_ .none h
  intro best best' hbest p p' hp
  cases hbest with
  | none => exact .some hp
  | some hb =>
    simp only [hb.2, hp.2]
    split
    · exact .some hp
    · exact .some hb

theorem rel_spliced {v v' : Value} (h : Similar root v v') :
    List.Forall₂ (Similar root) (spliced v) (spliced v') := by
  cases h with
  | array hitems => exact hitems
  | leaf harray hobject =>
    exact List.forall₂_same.mpr fun v _ => .refl v
  | object hnames hmembers => exact .cons (.object hnames hmembers) .nil
  | lambda horigin h => exact .cons (.lambda horigin h) .nil

section

variable {callback callback' : Callback} (hcallback : SimilarCallbacks root callback callback')
include hcallback

theorem same_apply {callee callee' : Option Value}
    (hcallee : Option.Rel (Similar root) callee callee') (i : Nat) {v v' : Value}
    (hv : Similar root v v') :
    SimilarOutcome root (apply callback callee i v) (apply callback' callee' i v') := by
  cases hcallee with
  | none => exact .ok hv
  | some hcallee => exact hcallback i hcallee (.cons hv (.cons (.refl _) .nil))

theorem same_accepts {callee callee' : Value} (hcallee : Similar root callee callee') (i : Nat)
    {v v' : Value} (hv : Similar root v v') :
    SameUpTo Eq (accepts callback callee i v) (accepts callback' callee' i v') :=
  (same_apply hcallback (.some hcallee) i hv).map fun _ _ h => h.congr truthy_bare

theorem same_filterItems {items items' : List Value}
    (hitems : List.Forall₂ (Similar root) items items') {callee callee' : Value}
    (hcallee : Similar root callee callee') :
    SameUpTo (List.Forall₂ (Similar root)) (filterItems callback items callee)
      (filterItems callback' items' callee') := by
  have hpair (i : Nat) {v v' : Value} (hv : Similar root v v') :
      SameUpTo (SimilarPair root) ((accepts callback callee i v).map fun ok => (v, ok))
        ((accepts callback' callee' i v').map fun ok => (v', ok)) :=
    (same_accepts hcallback hcallee i hv).map fun _ _ h => ⟨hv, h⟩
  refine .bind (same_each hitems hpair 0) fun kept kept' h => .ok ?_
  have hfilter := List.rel_filter (p := (·.2)) (q := (·.2))
    (fun p p' (hp : SimilarPair root p p') => by simp [hp.2]) h
  exact List.rel_map (fun _ _ hp => hp.1) hfilter

theorem same_firstAccepted? {items items' : List Value}
    (hitems : List.Forall₂ (Similar root) items items') {callee callee' : Value}
    (hcallee : Similar root callee callee') (i : Nat) :
    SameUpTo (Option.Rel (Similar root)) (firstAccepted? callback callee i items)
      (firstAccepted? callback' callee' i items') := by
  induction hitems generalizing i with
  | nil => exact .ok .none
  | cons hv _ ih =>
    refine .bind (same_accepts hcallback hcallee i hv) fun ok _ h => ?_
    subst h
    cases ok with
    | true => exact .ok (.some hv)
    | false => exact ih (i + 1)

theorem same_fieldOf {callee callee' : Value} (hcallee : Similar root callee callee')
    (space : Int64) (i : Nat) {v v' : Value} (hv : Similar root v v') :
    SameUpTo Eq (fieldOf callback callee space i v) (fieldOf callback' callee' space i v') := by
  refine .bind (same_apply hcallback (.some hcallee) i hv) fun result result' h => ?_
  rw [h.congr number?_bare, h.congr kind_bare]
  exact .of_eq (fun _ => rfl) rfl

theorem same_keyOf (name : String) {callee callee' : Option Value}
    (hcallee : Option.Rel (Similar root) callee callee') (i : Nat) {v v' : Value}
    (hv : Similar root v v') :
    SameUpTo (SimilarPair root) (keyOf name callback callee i v)
      (keyOf name callback' callee' i v') := by
  refine .bind (same_apply hcallback hcallee i hv) fun key key' h => ?_
  rw [h.congr number?_bare, h.congr kind_bare]
  split
  · exact .ok ⟨hv, rfl⟩
  · exact .error _

end

section

variable {name : String} {args args' : List Value}

theorem same_onArray {f f' : List Value → Value → Outcome}
    (h : ∀ {items items' v v'}, List.Forall₂ (Similar root) items items' → Similar root v v' →
      SimilarOutcome root (f items v) (f' items' v')) :
    List.Forall₂ (Similar root) args args' →
    SimilarOutcome root
      (match args with
        | [.array _ items, v] => f items v
        | _ => misshapen name)
      (match args' with
        | [.array _ items, v] => f' items v
        | _ => misshapen name) := by
  intro hargs
  split
  · rcases hargs with _ | ⟨harray, _ | ⟨hv, _ | _⟩⟩
    obtain ⟨items', rfl, hitems⟩ := similar_array_iff.mp harray
    exact h hitems hv
  · rename_i hne
    split
    · rcases hargs with _ | ⟨harray, _ | ⟨hv, _ | _⟩⟩
      obtain ⟨items, rfl, -⟩ := similar_array_right_iff.mp harray
      exact absurd rfl (hne _ _ _)
    · exact .error _

theorem same_onArrayWithTwo {f f' : List Value → Value → Value → Outcome}
    (h : ∀ {items items' v v' w w'}, List.Forall₂ (Similar root) items items' →
      Similar root v v' → Similar root w w' → SimilarOutcome root (f items v w) (f' items' v' w')) :
    List.Forall₂ (Similar root) args args' →
    SimilarOutcome root
      (match args with
        | [.array _ items, v, w] => f items v w
        | _ => misshapen name)
      (match args' with
        | [.array _ items, v, w] => f' items v w
        | _ => misshapen name) := by
  intro hargs
  split
  · rcases hargs with _ | ⟨harray, _ | ⟨hv, _ | ⟨hw, _ | _⟩⟩⟩
    obtain ⟨items', rfl, hitems⟩ := similar_array_iff.mp harray
    exact h hitems hv hw
  · rename_i hne
    split
    · rcases hargs with _ | ⟨harray, _ | ⟨hv, _ | ⟨hw, _ | _⟩⟩⟩
      obtain ⟨items, rfl, -⟩ := similar_array_right_iff.mp harray
      exact absurd rfl (hne _ _ _ _)
    · exact .error _

end

theorem respects_onArray (name : String) {f : Callback → List Value → Value → Outcome}
    (h : ∀ {callback callback' : Callback} {items items' callee callee'},
      SimilarCallbacks root callback callback' → List.Forall₂ (Similar root) items items' →
      Similar root callee callee' →
      SimilarOutcome root (f callback items callee) (f callback' items' callee')) :
    (onArray name f).Respects root :=
  fun _ _ _ _ hcallback hargs => same_onArray (h hcallback) hargs

theorem respects_onArrayWithOption (name : String)
    {f : Callback → List Value → Option Value → Outcome}
    (h : ∀ {callback callback' : Callback} {items items' callee callee'},
      SimilarCallbacks root callback callback' → List.Forall₂ (Similar root) items items' →
      Option.Rel (Similar root) callee callee' →
      SimilarOutcome root (f callback items callee) (f callback' items' callee')) :
    (onArrayWithOption name f).Respects root := by
  intro callback callback' args args' hcallback hargs
  simp only [onArrayWithOption]
  split
  · rcases hargs with _ | ⟨harray, _ | _⟩
    obtain ⟨items', rfl, hitems⟩ := similar_array_iff.mp harray
    exact h hcallback hitems .none
  · rcases hargs with _ | ⟨harray, _ | ⟨hv, _ | _⟩⟩
    obtain ⟨items', rfl, hitems⟩ := similar_array_iff.mp harray
    exact h hcallback hitems (.some hv)
  · rename_i hone htwo
    split
    · rcases hargs with _ | ⟨harray, _ | _⟩
      obtain ⟨items, rfl, -⟩ := similar_array_right_iff.mp harray
      exact absurd rfl (hone _ _)
    · rcases hargs with _ | ⟨harray, _ | ⟨hv, _ | _⟩⟩
      obtain ⟨items, rfl, -⟩ := similar_array_right_iff.mp harray
      exact absurd rfl (htwo _ _ _)
    · exact .error _

theorem respects_onNumber (name : String) (f : Number → Number) :
    (onNumber name f).Respects root := by
  intro callback callback' args args' _ hargs
  rcases hargs with _ | ⟨hv, _ | _⟩
  · exact .error _
  · simp only [onNumber, hv.congr number?_bare]
    exact .of_eq .refl rfl
  · exact .error _

theorem respects_onNumbers (s : Signature) (f : Number → Number → Outcome) :
    (onNumbers s f).Respects root := by
  intro callback callback' args args' _ hargs
  rcases hargs with _ | ⟨hv, _ | ⟨hw, _ | _⟩⟩
  · exact .error _
  · exact .error _
  · simp only [onNumbers, hv.congr number?_bare, hw.congr number?_bare]
    exact .of_eq .refl rfl
  · exact .error _

theorem respects_onObject (name : String) {f : Fields Value → List Value}
    (h : ∀ {members members'}, List.Forall₂ (SimilarMember root) members members' →
      List.Forall₂ (Similar root) (f members) (f members')) :
    (onObject name f).Respects root := by
  intro callback callback' args args' _ hargs
  simp only [onObject]
  split
  · rcases hargs with _ | ⟨hobject, _ | _⟩
    obtain ⟨members', rfl, hmembers⟩ := similar_object_iff.mp hobject
    exact .ok (.array (h hmembers))
  · rename_i hne
    split
    · rcases hargs with _ | ⟨hobject, _ | _⟩
      obtain ⟨members, rfl, -⟩ := similar_object_right_iff.mp hobject
      exact absurd rfl (hne _ _)
    · exact .error _

theorem respects_keys : keys.Respects root := by
  refine respects_onObject _ fun h => ?_
  rw [(forall₂_similarMember_iff.mp h).1]
  exact List.forall₂_same.mpr fun v _ => .refl v

theorem respects_values : values.Respects root :=
  respects_onObject _ fun h => List.rel_map (fun _ _ hm => hm.2) h

theorem respects_asArray : asArray.Respects root := by
  intro callback callback' args args' _ hargs
  simp only [asArray]
  split
  · rcases hargs with _ | ⟨hobject, _ | ⟨hkey, _ | ⟨hvalue, _ | _⟩⟩⟩
    obtain ⟨members', rfl, hmembers⟩ := similar_object_iff.mp hobject
    cases hkey
    cases hvalue
    refine .ok (.array (List.rel_map (fun m m' hm => ?_) hmembers))
    rw [← hm.1]
    exact similar_object_iff.mpr
      ⟨_, rfl, rel_ofList (.cons ⟨rfl, .refl _⟩ (.cons ⟨rfl, hm.2⟩ .nil))⟩
  · rename_i hne
    split
    · rcases hargs with _ | ⟨hobject, _ | ⟨hkey, _ | ⟨hvalue, _ | _⟩⟩⟩
      obtain ⟨members, rfl, -⟩ := similar_object_right_iff.mp hobject
      cases hkey
      cases hvalue
      exact absurd rfl (hne _ _ _ _)
    · exact .error _

theorem respects_reverse : reverse.Respects root := by
  intro callback callback' args args' _ hargs
  simp only [reverse]
  split
  · rcases hargs with _ | ⟨harray, _ | _⟩
    obtain ⟨items', rfl, hitems⟩ := similar_array_iff.mp harray
    exact .ok (.array (List.rel_reverse hitems))
  · rename_i hne
    split
    · rcases hargs with _ | ⟨harray, _ | _⟩
      obtain ⟨items, rfl, -⟩ := similar_array_right_iff.mp harray
      exact absurd rfl (hne _ _)
    · exact .error _

theorem respects_containsString : containsString.Respects root := by
  intro callback callback' args args' _ hargs
  simp only [containsString]
  split
  · rcases hargs with _ | ⟨harray, _ | ⟨hs, _ | _⟩⟩
    obtain ⟨items', rfl, hitems⟩ := similar_array_iff.mp harray
    cases hs
    refine .of_eq .refl (congrArg _ (congrArg _ (any_eq hitems fun v => ?_)))
    cases v <;> rfl
  · rename_i hne
    split
    · rcases hargs with _ | ⟨harray, _ | ⟨hs, _ | _⟩⟩
      obtain ⟨items, rfl, -⟩ := similar_array_right_iff.mp harray
      cases hs
      exact absurd rfl (hne _ _ _)
    · exact .error _

theorem respects_containsNumber : containsNumber.Respects root := by
  intro callback callback' args args' _ hargs
  refine same_onArray (fun hitems hv => ?_) hargs
  rw [hv.congr number?_bare]
  split
  · refine .of_eq .refl (congrArg _ (congrArg _ (any_eq hitems fun v => ?_)))
    cases v <;> rfl
  · exact .error _

theorem respects_indexOf : indexOf.Respects root := by
  intro callback callback' args args' _ hargs
  refine same_onArray (fun hitems hv => ?_) hargs
  rw [hv.congr text_bare, findIdx?_eq hitems fun v => by rw [text_bare]]
  exact .of_eq .refl rfl

theorem respects_sublist : sublist.Respects root := by
  intro callback callback' args args' _ hargs
  refine same_onArray (fun hitems hv => ?_) hargs
  rw [hv.congr number?_bare]
  split
  · exact same_sublistOf hitems _ _
  · exact .error _

theorem respects_sublistUpTo : sublistUpTo.Respects root := by
  intro callback callback' args args' _ hargs
  refine same_onArrayWithTwo (fun hitems hv hw => ?_) hargs
  rw [hv.congr number?_bare, hw.congr number?_bare]
  split
  · exact same_sublistOf hitems _ _
  · exact .error _

theorem respects_filter : filter.Respects root :=
  respects_onArray _ fun hcallback hitems hcallee =>
    (same_filterItems hcallback hitems hcallee).map fun _ _ => .array

theorem respects_map : map.Respects root :=
  respects_onArray _ fun hcallback hitems hcallee =>
    (same_each hitems (same_apply hcallback (.some hcallee)) 0).map fun _ _ => .array

theorem respects_flatMap : flatMap.Respects root :=
  respects_onArrayWithOption _ fun hcallback hitems hcallee => by
    rw [splicedResults_eq, splicedResults_eq]
    have hresults := same_each hitems (same_apply hcallback hcallee) 0
    refine (hresults.map fun _ _ h => ?_).map fun _ _ => .array
    exact List.rel_flatMap h fun _ _ => rel_spliced

theorem respects_count : count.Respects root := by
  have hcount {n n' : Nat} (h : n = n') :
      SimilarOutcome root (.ok (.integer (Int64.ofNat n))) (.ok (.integer (Int64.ofNat n'))) := by
    rw [h]
    exact .ok (.refl _)
  refine respects_onArrayWithOption _ fun hcallback hitems hcallee => ?_
  cases hcallee with
  | none => exact hcount hitems.length_eq
  | some hcallee =>
    simp only [countItems_eq]
    exact .bind ((same_filterItems hcallback hitems hcallee).map fun _ _ h => h.length_eq)
      fun _ _ => hcount

theorem respects_findFirst : findFirst.Respects root := by
  refine respects_onArray _ fun hcallback hitems hcallee => ?_
  refine .bind (same_firstAccepted? hcallback hitems hcallee 0) fun _ _ h => ?_
  cases h with
  | some hv => exact .ok hv
  | none => exact .error _

theorem respects_encode : encode.Respects root := by
  intro callback callback' args args' hcallback hargs
  refine same_onArrayWithTwo (fun hitems hv hcallee => ?_) hargs
  rw [hv.congr number?_bare]
  split
  · simp only
    split
    · refine .bind (same_each (List.forall₂_take _ hitems)
        (same_fieldOf hcallback hcallee _) 0) fun _ _ h => ?_
      rw [List.forall₂_eq_eq_eq] at h
      exact .of_eq .refl (by rw [h])
    · exact .error _
  · exact .error _

theorem respects_extreme (name : String) (better : Float → Float → Bool) :
    (extreme name better).Respects root := by
  have helim {o o' : Option (Value × Float)} (h : Option.Rel (SimilarPair root) o o') :
      Similar root (o.elim .null (·.1)) (o'.elim .null (·.1)) := by
    cases h with
    | some hp => exact hp.1
    | none => exact .refl _
  refine respects_onArrayWithOption _ fun hcallback hitems hcallee => ?_
  refine .bind (same_each hitems (same_keyOf hcallback name hcallee) 0) fun _ _ h => ?_
  exact .ok (helim (rel_best? better h))

end Builtin

open Builtin in
theorem Registry.respects_builtins : ∀ o ∈ Registry.builtins.overloads, o.Respects root := by
  simp only [builtins, onLists, onNumbersAlone, List.cons_append, List.nil_append,
    List.forall_mem_cons, List.not_mem_nil, false_imp_iff, implies_true, and_true]
  exact ⟨respects_asArray, respects_keys, respects_values, respects_reverse,
    respects_containsString, respects_containsNumber, respects_filter, respects_map,
    respects_flatMap, respects_count, respects_findFirst, respects_indexOf, respects_encode,
    respects_sublistUpTo, respects_sublist, respects_extreme _ _, respects_extreme _ _,
    respects_onNumbers _ _, respects_onNumber _ _, respects_onNumber _ _, respects_onNumber _ _,
    respects_onNumber _ _, respects_onNumbers _ _⟩

end Stencil

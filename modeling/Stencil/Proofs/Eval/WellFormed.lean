import Stencil.Builtin
import Stencil.Proofs.Eval.Levels
import Stencil.Proofs.Value.WellFormed

/-!
# Evaluation keeps values well-formed

What an expression comes to in a well-formed scope is well-formed, if the functions keep to that;
the built-in functions do.
-/

namespace Stencil

open Value (ofItems ofMembers)

namespace Value

theorem wellFormed_of_range {first last v : Value} (h : range first last = .ok v) :
    v.WellFormed := by
  simp only [range, bind_eq_ok] at h
  obtain ⟨m, -, n, -, h⟩ := h
  split at h
  · cases h
    rw [rangeItems]
    split <;> simp
  · cases h

theorem wellFormed_of_unary {op : UnaryOp} {v w : Value} (h : unary op v = .ok w) :
    w.WellFormed := by
  cases op with
  | not =>
    cases h
    simp
  | negate =>
    rw [unary] at h
    split at h <;> cases h
    simp

theorem wellFormed_of_arith {op : Arith} {v w u : Value} (h : arith op v w = .ok u) :
    u.WellFormed := by
  unfold arith at h
  split at h
  · split at h <;> cases h
    simp
  · cases h

theorem wellFormed_of_add {v w u : Value} (h : add v w = .ok u) : u.WellFormed := by
  rw [add] at h
  split at h
  · split at h <;> cases h
    simp
  · exact wellFormed_of_arith h

theorem wellFormed_of_order {op : Comparison} {v w u : Value} (h : order op v w = .ok u) :
    u.WellFormed := by
  rw [order] at h
  split at h <;> cases h
  simp

theorem wellFormed_of_binary {op : BinaryOp} {v w u : Value} (h : binary op v w = .ok u) :
    u.WellFormed := by
  cases op with
  | or | and | equal | notEqual =>
    cases h
    simp
  | order op => exact wellFormed_of_order h
  | arith op =>
    by_cases hadd : op = .add
    · subst hadd
      exact wellFormed_of_add h
    · rw [binary] at h
      · exact wellFormed_of_arith h
      · exact hadd

theorem wellFormed_elim {α : Type} {o : Option α} {f : α → Value} (h : ∀ a ∈ o, (f a).WellFormed) :
    (o.elim null f).WellFormed := by
  cases o with
  | none => simp
  | some a => exact h a rfl

theorem wellFormed_getD {o : Option Value} (h : ∀ v ∈ o, v.WellFormed) :
    (o.getD null).WellFormed := by
  cases o with
  | none => simp
  | some v => exact h v rfl

theorem WellFormed.of_index {target i v : Value} (htarget : target.WellFormed)
    (h : index target i = .ok v) : v.WellFormed := by
  unfold index at h
  split at h
  · cases h
    exact wellFormed_getD fun v hv => htarget.of_get? hv
  · obtain ⟨p, -, h⟩ := bind_eq_ok.mp h
    obtain rfl := pure_eq_ok.mp h
    exact wellFormed_elim fun m _ => .string m.1
  · obtain ⟨p, -, h⟩ := bind_eq_ok.mp h
    obtain rfl := pure_eq_ok.mp h
    exact wellFormed_getD fun v hv =>
      wellFormed_array.mp htarget v (List.mem_of_getElem? hv)
  · obtain ⟨p, -, h⟩ := bind_eq_ok.mp h
    obtain rfl := pure_eq_ok.mp h
    exact wellFormed_elim fun c _ => .string c.toString
  · cases h

end Value

/-- Calls with well-formed arguments come to well-formed values. -/
def KeepsWellFormed (callback : Callback) : Prop :=
  ∀ {i callee args v}, callee.WellFormed → (∀ a ∈ args, a.WellFormed) →
    callback i callee args = .ok v → v.WellFormed

/-- The function makes well-formed values of such arguments if its callbacks do. -/
def Overload.KeepsWellFormed (o : Overload) : Prop :=
  ∀ {callback args v}, Stencil.KeepsWellFormed callback → (∀ a ∈ args, a.WellFormed) →
    o.body callback args = .ok v → v.WellFormed

def Registry.KeepsWellFormed (r : Registry) : Prop :=
  ∀ o ∈ r.overloads, o.KeepsWellFormed

namespace Builtin

theorem keepsWellFormed_onNumber (name : String) (f : Number → Number) :
    (onNumber name f).KeepsWellFormed := by
  intro callback args v _ _ h
  simp only [onNumber] at h
  split at h
  · split at h <;> cases h
    simp
  · cases h

theorem keepsWellFormed_onNumbers (s : Signature) {f : Number → Number → Outcome}
    (hf : ∀ a b v, f a b = .ok v → v.WellFormed) : (onNumbers s f).KeepsWellFormed := by
  intro callback args v _ _ h
  simp only [onNumbers] at h
  split at h
  · split at h
    · exact hf _ _ _ h
    · cases h
  · cases h

theorem keepsWellFormed_modulo : modulo.KeepsWellFormed :=
  keepsWellFormed_onNumbers _ fun a b v h => by
    split at h <;> cases h
    simp

theorem keepsWellFormed_power : power.KeepsWellFormed :=
  keepsWellFormed_onNumbers _ fun a b v h => by
    cases h
    simp

theorem keepsWellFormed_onObject (name : String) {f : Fields Value → List Value}
    (hf : ∀ members : Fields Value, (∀ m ∈ members, m.2.WellFormed) →
      ∀ v ∈ f members, v.WellFormed) : (onObject name f).KeepsWellFormed := by
  intro callback args v _ hargs h
  simp only [onObject] at h
  split at h
  · cases h
    have hmembers := Value.wellFormed_object.mp (List.forall_mem_singleton.mp hargs)
    exact Value.wellFormed_ofItems.mpr (hf _ hmembers.2)
  · cases h

theorem keepsWellFormed_keys : keys.KeepsWellFormed :=
  keepsWellFormed_onObject _ fun _ _ => by simp

theorem keepsWellFormed_values : values.KeepsWellFormed :=
  keepsWellFormed_onObject _ fun _ h => List.forall_mem_map.mpr h

theorem keepsWellFormed_asArray : asArray.KeepsWellFormed := by
  intro callback args v _ hargs h
  simp only [asArray] at h
  split at h
  · cases h
    obtain ⟨hobject, -⟩ := List.forall_mem_cons.mp hargs
    rw [Value.wellFormed_ofItems, List.forall_mem_map]
    intro m hm
    apply Value.wellFormed_ofList
    simpa using (Value.wellFormed_object.mp hobject).2 m hm
  · cases h

/-- A function on an array, whose items are well-formed. -/
theorem keepsWellFormed_onArray (name : String) {f : Callback → List Value → Value → Outcome}
    (hf : ∀ callback items callee v, KeepsWellFormed callback → (∀ v ∈ items, v.WellFormed) →
      callee.WellFormed → f callback items callee = .ok v → v.WellFormed) :
    (onArray name f).KeepsWellFormed := by
  intro callback args v hcallback hargs h
  simp only [onArray] at h
  split at h
  · obtain ⟨hitems, hcallee⟩ := List.forall_mem_cons.mp hargs
    exact hf _ _ _ _ hcallback (Value.wellFormed_array.mp hitems)
      (List.forall_mem_singleton.mp hcallee) h
  · cases h

theorem keepsWellFormed_onArrayWithOption (name : String)
    {f : Callback → List Value → Option Value → Outcome}
    (hf : ∀ callback items callee? v, KeepsWellFormed callback → (∀ v ∈ items, v.WellFormed) →
      (∀ callee ∈ callee?, callee.WellFormed) → f callback items callee? = .ok v → v.WellFormed) :
    (onArrayWithOption name f).KeepsWellFormed := by
  intro callback args v hcallback hargs h
  simp only [onArrayWithOption] at h
  split at h
  · have hitems := Value.wellFormed_array.mp (List.forall_mem_singleton.mp hargs)
    exact hf _ _ _ _ hcallback hitems (by simp) h
  · obtain ⟨hitems, hcallee⟩ := List.forall_mem_cons.mp hargs
    refine hf _ _ _ _ hcallback (Value.wellFormed_array.mp hitems) ?_ h
    simpa using hcallee
  · cases h

section

variable {callback : Callback} (hcallback : KeepsWellFormed callback)
include hcallback

theorem wellFormed_of_apply {callee? : Option Value} {i : Nat} {v w : Value}
    (hcallee : ∀ callee ∈ callee?, callee.WellFormed) (hv : v.WellFormed)
    (h : apply callback callee? i v = .ok w) : w.WellFormed := by
  cases callee? with
  | none =>
    cases h
    exact hv
  | some callee =>
    refine hcallback (hcallee callee rfl) ?_ h
    simpa using hv

end

theorem forall_of_each {α : Type} {f : Nat → Value → Except EvalError α} {P : α → Prop} {i : Nat}
    {vs : List Value} {as : List α} (hf : ∀ i, ∀ v ∈ vs, ∀ a, f i v = .ok a → P a)
    (h : each f i vs = .ok as) : ∀ a ∈ as, P a := by
  induction vs generalizing i as with
  | nil =>
    cases h
    simp
  | cons v vs ih =>
    simp only [each, bind_eq_ok, pure_eq_ok] at h
    obtain ⟨a, ha, as, has, rfl⟩ := h
    refine List.forall_mem_cons.mpr ⟨hf i v List.mem_cons_self a ha, ih ?_ has⟩
    exact fun i v hv => hf i v (List.mem_cons_of_mem _ hv)

theorem subset_of_filterItems {callback : Callback} {items kept : List Value} {callee : Value}
    (h : filterItems callback items callee = .ok kept) : kept ⊆ items := by
  simp only [filterItems, bind_eq_ok, pure_eq_ok] at h
  obtain ⟨pairs, hpairs, rfl⟩ := h
  have hmem : ∀ p ∈ pairs, p.1 ∈ items := by
    refine forall_of_each (fun i v hv p hp => ?_) hpairs
    obtain ⟨ok, -, rfl⟩ := map_eq_ok.mp hp
    exact hv
  rw [List.subset_def, List.forall_mem_map]
  exact fun p hp => hmem p (List.mem_filter.mp hp).1

theorem mem_of_firstAccepted? {callback : Callback} {callee v : Value} {i : Nat}
    {items : List Value} (h : firstAccepted? callback callee i items = .ok (some v)) :
    v ∈ items := by
  induction items generalizing i with
  | nil => cases h
  | cons w items ih =>
    obtain ⟨ok, -, h⟩ := bind_eq_ok.mp h
    cases ok with
    | true =>
      cases h
      exact List.mem_cons_self
    | false => exact List.mem_cons_of_mem _ (ih h)

theorem mem_of_best? {better : Float → Float → Bool} {keyed : List (Value × Float)}
    {p : Value × Float} (h : best? better keyed = some p) : p ∈ keyed := by
  refine (eq_or_mem_of_foldl (fun best q => ?_) h).resolve_left nofun
  cases best with
  | none => exact .inr rfl
  | some b => exact (ite_eq_or_eq _ _ _).symm

theorem wellFormed_of_mem_spliced {v u : Value} (h : v.WellFormed) (hu : u ∈ spliced v) :
    u.WellFormed := by
  unfold spliced at hu
  split at hu
  · exact Value.wellFormed_array.mp h u hu
  · obtain rfl := List.mem_singleton.mp hu
    exact h

theorem keepsWellFormed_reverse : reverse.KeepsWellFormed := by
  intro callback args v _ hargs h
  simp only [reverse] at h
  split at h
  · cases h
    have hitems := Value.wellFormed_array.mp (List.forall_mem_singleton.mp hargs)
    simpa using hitems
  · cases h

theorem keepsWellFormed_containsString : containsString.KeepsWellFormed := by
  intro callback args v _ _ h
  simp only [containsString] at h
  split at h <;> cases h
  simp

theorem keepsWellFormed_containsNumber : containsNumber.KeepsWellFormed := by
  intro callback args v _ _ h
  simp only [containsNumber] at h
  split at h
  · split at h <;> cases h
    simp
  · cases h

theorem keepsWellFormed_indexOf : indexOf.KeepsWellFormed := by
  intro callback args v _ _ h
  simp only [indexOf] at h
  split at h <;> cases h
  simp

theorem wellFormed_of_sublistOf {items : List Value} {start : Int64} {stop : Option Int64}
    {v : Value} (hitems : ∀ v ∈ items, v.WellFormed) (h : sublistOf items start stop = .ok v) :
    v.WellFormed := by
  unfold sublistOf at h
  split at h
  · cases h
  split at h
  · cases h
    exact Value.wellFormed_ofItems.mpr fun v hv => hitems v (List.mem_of_mem_drop hv)
  · split at h <;> cases h
    exact Value.wellFormed_ofItems.mpr fun v hv =>
      hitems v (List.mem_of_mem_take (List.mem_of_mem_drop hv))

theorem keepsWellFormed_sublist : sublist.KeepsWellFormed := by
  intro callback args v _ hargs h
  simp only [sublist] at h
  split at h
  · split at h
    · exact wellFormed_of_sublistOf
        (Value.wellFormed_array.mp (List.forall_mem_cons.mp hargs).1) h
    · cases h
  · cases h

theorem keepsWellFormed_sublistUpTo : sublistUpTo.KeepsWellFormed := by
  intro callback args v _ hargs h
  simp only [sublistUpTo] at h
  split at h
  · split at h
    · exact wellFormed_of_sublistOf
        (Value.wellFormed_array.mp (List.forall_mem_cons.mp hargs).1) h
    · cases h
  · cases h

theorem keepsWellFormed_filter : filter.KeepsWellFormed :=
  keepsWellFormed_onArray _ fun callback items callee v _ hitems _ h => by
    obtain ⟨kept, hkept, rfl⟩ := map_eq_ok.mp h
    exact Value.wellFormed_ofItems.mpr fun v hv => hitems v (subset_of_filterItems hkept hv)

theorem keepsWellFormed_map : map.KeepsWellFormed :=
  keepsWellFormed_onArray _ fun callback items callee v hcallback hitems hcallee h => by
    obtain ⟨vs, hvs, rfl⟩ := map_eq_ok.mp h
    refine Value.wellFormed_ofItems.mpr (forall_of_each (fun i v hv w hw => ?_) hvs)
    exact wellFormed_of_apply hcallback (by simpa using hcallee) (hitems v hv) hw

theorem keepsWellFormed_flatMap : flatMap.KeepsWellFormed :=
  keepsWellFormed_onArrayWithOption _ fun callback items callee? v hcallback hitems hcallee h => by
    obtain ⟨spliced, hspliced, rfl⟩ := map_eq_ok.mp h
    rw [splicedResults_eq] at hspliced
    obtain ⟨vs, hvs, rfl⟩ := map_eq_ok.mp hspliced
    have hresults : ∀ v ∈ vs, v.WellFormed := forall_of_each (fun i v hv w hw =>
      wellFormed_of_apply hcallback hcallee (hitems v hv) hw) hvs
    rw [Value.wellFormed_ofItems, List.forall_mem_flatMap]
    exact fun v hv u hu => wellFormed_of_mem_spliced (hresults v hv) hu

theorem keepsWellFormed_count : count.KeepsWellFormed :=
  keepsWellFormed_onArrayWithOption _ fun callback items callee? v _ _ _ h => by
    have hcount (n : Except EvalError Nat)
        (h : (do return .integer (Int64.ofNat (← n))) = Except.ok v) : v.WellFormed := by
      obtain ⟨n, -, h⟩ := bind_eq_ok.mp h
      obtain rfl := pure_eq_ok.mp h
      simp
    cases callee? with
    | none => exact hcount (pure items.length) h
    | some callee => exact hcount (countItems callback callee 0 items) h

theorem keepsWellFormed_findFirst : findFirst.KeepsWellFormed :=
  keepsWellFormed_onArray _ fun callback items callee v _ hitems _ h => by
    obtain ⟨found, hfound, h⟩ := bind_eq_ok.mp h
    cases found with
    | none => cases h
    | some w =>
      obtain rfl := pure_eq_ok.mp h
      exact hitems w (mem_of_firstAccepted? hfound)

theorem keepsWellFormed_encode : encode.KeepsWellFormed := by
  intro callback args v _ _ h
  simp only [encode] at h
  split at h
  · split at h
    · split at h
      · obtain ⟨fields, -, h⟩ := bind_eq_ok.mp h
        obtain rfl := pure_eq_ok.mp h
        simp
      · cases h
    · cases h
  · cases h

theorem keepsWellFormed_extreme (name : String) (better : Float → Float → Bool) :
    (extreme name better).KeepsWellFormed :=
  keepsWellFormed_onArrayWithOption _ fun callback items callee? v _ hitems _ h => by
    obtain ⟨keyed, hkeyed, h⟩ := bind_eq_ok.mp h
    obtain rfl := pure_eq_ok.mp h
    have hmem : ∀ p ∈ keyed, p.1 ∈ items := by
      refine forall_of_each (fun i v hv p hp => ?_) hkeyed
      simp only [keyOf, bind_eq_ok] at hp
      obtain ⟨key, -, hp⟩ := hp
      split at hp <;> cases hp
      exact hv
    exact Value.wellFormed_elim fun p hp => hitems p.1 (hmem p (mem_of_best? hp))

end Builtin

open Builtin in
theorem Registry.keepsWellFormed_builtins : Registry.builtins.KeepsWellFormed := by
  simp only [KeepsWellFormed, builtins, onLists, onNumbersAlone, List.cons_append,
    List.nil_append, List.forall_mem_cons, List.not_mem_nil, false_imp_iff, implies_true, and_true]
  exact ⟨keepsWellFormed_asArray, keepsWellFormed_keys, keepsWellFormed_values,
    keepsWellFormed_reverse, keepsWellFormed_containsString, keepsWellFormed_containsNumber,
    keepsWellFormed_filter, keepsWellFormed_map, keepsWellFormed_flatMap, keepsWellFormed_count,
    keepsWellFormed_findFirst, keepsWellFormed_indexOf, keepsWellFormed_encode,
    keepsWellFormed_sublistUpTo, keepsWellFormed_sublist, keepsWellFormed_extreme _ _,
    keepsWellFormed_extreme _ _, keepsWellFormed_modulo, keepsWellFormed_onNumber _ _,
    keepsWellFormed_onNumber _ _, keepsWellFormed_onNumber _ _, keepsWellFormed_onNumber _ _,
    keepsWellFormed_power⟩

theorem Value.WellFormed.of_coerce? {kind : ParamKind} {v w : Value} (hv : v.WellFormed)
    (h : kind.coerce? v = some w) : w.WellFormed := by
  have hsame {c : Prop} [Decidable c] (h : (if c then some v else none) = some w) :
      w.WellFormed := by
    obtain ⟨-, h⟩ := Option.ite_none_right_eq_some.mp h
    exact Option.some.inj h ▸ hv
  cases kind with
  | any =>
    cases h
    exact hv
  | boolean =>
    cases h
    simp
  | number =>
    obtain ⟨n, -, rfl⟩ := Option.map_eq_some_iff.mp h
    simp
  | string => cases v <;> cases h <;> simp
  | array | object | lambda => exact hsame h

theorem wellFormed_of_coerceAll {s : Signature} {position : Nat} {kinds : List ParamKind}
    {vs ws : List Value} (hvs : ∀ v ∈ vs, v.WellFormed)
    (h : Registry.coerceAll s position kinds vs = .ok ws) : ∀ w ∈ ws, w.WellFormed := by
  induction kinds generalizing position vs ws with
  | nil =>
    cases h
    simp
  | cons kind kinds ih =>
    cases vs with
    | nil =>
      cases h
      simp
    | cons v vs =>
      obtain ⟨hv, hvs⟩ := List.forall_mem_cons.mp hvs
      rw [Registry.coerceAll] at h
      split at h
      · cases h
      · rename_i w hw
        obtain ⟨rest, hrest, rfl⟩ := map_eq_ok.mp h
        exact List.forall_mem_cons.mpr ⟨hv.of_coerce? hw, ih hvs hrest⟩

theorem wellFormed_of_resolve {r : Registry} {name : String} {args args' : List Value}
    {onTarget : Bool} {o : Overload} (hargs : ∀ v ∈ args, v.WellFormed)
    (h : r.resolve name args onTarget = .ok (o, args')) : ∀ v ∈ args', v.WellFormed := by
  rw [Registry.resolve] at h
  split at h
  · cases h
  · obtain ⟨coerced, hcoerced, heq⟩ := map_eq_ok.mp h
    cases heq
    exact wellFormed_of_coerceAll hargs (mapError_eq_ok.mp hcoerced)

namespace Eval

theorem wellFormed_bindings (params : List String) {args : List Value}
    (hargs : ∀ v ∈ args, v.WellFormed) : ∀ m ∈ bindings params args, m.2.WellFormed := by
  intro m hm
  obtain ⟨i, hi, rfl⟩ := List.mem_mapIdx.mp (Fields.mem_of_mem_ofList hm)
  exact Value.wellFormed_getD fun v hv => hargs v (List.mem_of_getElem? hv)

theorem wellFormed_of_lookup {r : Registry} {scope : Scope} {name : String} {v : Value}
    (hscope : scope.WellFormed) (h : lookup r scope name = .ok v) : v.WellFormed := by
  rw [lookup] at h
  split at h
  · rename_i hget
    cases h
    exact hscope.get? hget
  · split at h <;> cases h
    simp

section

variable {level : Level} {r : Registry} {here : Trail} {scope : Scope} {v : Value}

theorem wellFormed_of_rangeOf {first last : Expr}
    (h : level.expression r here scope (.range first last) = .ok v) : v.WellFormed := by
  simp only [Level.expression, bind_eq_ok] at h
  obtain ⟨_, -, _, -, h⟩ := h
  exact Value.wellFormed_of_range h

theorem wellFormed_of_unaryOf {op : UnaryOp} {e : Expr}
    (h : level.expression r here scope (.unary op e) = .ok v) : v.WellFormed := by
  obtain ⟨_, -, h⟩ := bind_eq_ok.mp h
  exact Value.wellFormed_of_unary h

theorem wellFormed_of_truthy {x : Outcome} (h : (do return .boolean (← x).truthy) = Except.ok v) :
    v.WellFormed := by
  obtain ⟨_, -, h⟩ := bind_eq_ok.mp h
  obtain rfl := pure_eq_ok.mp h
  simp

theorem wellFormed_of_binaryOf {op : BinaryOp} {left right : Expr}
    (h : level.expression r here scope (.binary op left right) = .ok v) : v.WellFormed := by
  -- the right operand of `and` and `or` is not always evaluated
  cases op with
  | and =>
    obtain ⟨_, -, h⟩ := bind_eq_ok.mp h
    split at h
    · exact wellFormed_of_truthy h
    · cases h
      simp
  | or =>
    obtain ⟨_, -, h⟩ := bind_eq_ok.mp h
    split at h
    · cases h
      simp
    · exact wellFormed_of_truthy h
  | _ =>
    simp only [Level.expression, bind_eq_ok] at h
    obtain ⟨_, -, _, -, h⟩ := h
    exact Value.wellFormed_of_binary h

end

/-- A level answers with well-formed values in well-formed scopes and for well-formed arguments. -/
structure Level.KeepsWellFormed (level : Level) : Prop where
  evaluate : ∀ {here e scope v}, scope.WellFormed → level.evaluate here e scope = .ok v →
    v.WellFormed
  call : ∀ {here name args onTarget v}, (∀ a ∈ args, a.WellFormed) →
    level.call here name args onTarget = .ok v → v.WellFormed

namespace Level.KeepsWellFormed

variable {level : Level} {r : Registry} {here : Trail} {scope : Scope}
  (hlevel : level.KeepsWellFormed) (hscope : scope.WellFormed)
include hlevel

theorem invoke {callable v : Value} {args : List Value} (hcallable : callable.WellFormed)
    (hargs : ∀ a ∈ args, a.WellFormed) (h : level.invoke r here callable args = .ok v) :
    v.WellFormed := by
  cases callable with
  | lambda origin params body scope =>
    have hscope := Value.wellFormed_lambda.mp hcallable
    exact hlevel.evaluate (hscope.cons (wellFormed_bindings params hargs)) h
  | function name =>
    simp only [Level.invoke] at h
    split at h
    · exact hlevel.call (fun a ha => hargs a (List.mem_of_mem_take ha)) h
    · cases h
  | _ => cases h

theorem member {target v : Value} {name : String} (htarget : target.WellFormed)
    (h : level.member here target name = .ok v) : v.WellFormed := by
  have hcall {v : Value} (h : level.call here name [target] true = .ok v) : v.WellFormed :=
    hlevel.call (List.forall_mem_singleton.mpr htarget) h
  unfold Level.member at h
  split at h
  · split at h
    · rename_i hget
      cases h
      exact htarget.of_get? hget
    · split at h
      · cases h
        simp
      · cases h
        simp
      · exact hcall h
  · split at h
    · cases h
    · exact hcall h

include hscope

theorem all {i : Nat} {es : List Expr} {vs : List Value}
    (h : level.all here scope i es = .ok vs) : ∀ v ∈ vs, v.WellFormed := by
  induction es generalizing i vs with
  | nil =>
    cases h
    simp
  | cons e es ih =>
    simp only [Level.all, bind_eq_ok, pure_eq_ok] at h
    obtain ⟨v, hv, vs, hvs, rfl⟩ := h
    exact List.forall_mem_cons.mpr ⟨hlevel.evaluate hscope hv, ih hvs⟩

theorem members {i : Nat} {ms : List (String × Expr)} {members : List (String × Value)}
    (h : level.members here scope i ms = .ok members) : ∀ m ∈ members, m.2.WellFormed := by
  induction ms generalizing i members with
  | nil =>
    cases h
    simp
  | cons m ms ih =>
    simp only [Level.members, bind_eq_ok, pure_eq_ok] at h
    obtain ⟨v, hv, members, hmembers, rfl⟩ := h
    exact List.forall_mem_cons.mpr ⟨hlevel.evaluate hscope hv, ih hmembers⟩

theorem callOn {target v : Value} {name : String} {args : List Expr} (htarget : target.WellFormed)
    (h : level.callOn r here target name args scope = .ok v) : v.WellFormed := by
  obtain ⟨args, hargs, h⟩ := bind_eq_ok.mp h
  have hargs := hlevel.all hscope hargs
  split at h
  · rename_i callee hcallee
    split at h
    · refine hlevel.invoke ?_ hargs h
      split at hcallee
      · exact htarget.of_get? hcallee
      · cases hcallee
    · cases h
  · exact hlevel.call (List.forall_mem_cons.mpr ⟨htarget, hargs⟩) h

theorem callNamed {v : Value} {name : String} {args : List Expr}
    (h : level.callNamed r here name args scope = .ok v) : v.WellFormed := by
  obtain ⟨args, hargs, h⟩ := bind_eq_ok.mp h
  have hargs := hlevel.all hscope hargs
  split at h
  · rename_i callee hcallee
    exact hlevel.invoke (hscope.get? (Option.filter_eq_some_iff.mp hcallee).1) hargs h
  · exact hlevel.call hargs h

theorem array {items : List Expr} {v : Value}
    (h : level.expression r here scope (.array items) = .ok v) : v.WellFormed := by
  obtain ⟨vs, hvs, rfl⟩ := map_eq_ok.mp h
  exact Value.wellFormed_ofItems.mpr (hlevel.all hscope hvs)

theorem object {ms : List (String × Expr)} {v : Value}
    (h : level.expression r here scope (.object ms) = .ok v) : v.WellFormed := by
  obtain ⟨members, hmembers, rfl⟩ := map_eq_ok.mp h
  exact Value.wellFormed_ofList (hlevel.members hscope hmembers)

theorem conditional {test yes no : Expr} {v : Value}
    (h : level.expression r here scope (.conditional test yes no) = .ok v) : v.WellFormed := by
  obtain ⟨_, -, h⟩ := bind_eq_ok.mp h
  split at h
  · exact hlevel.evaluate hscope h
  · exact hlevel.evaluate hscope h

theorem memberOf {e : Expr} {name : String} {v : Value}
    (h : level.expression r here scope (.member e name) = .ok v) : v.WellFormed := by
  obtain ⟨target, htarget, h⟩ := bind_eq_ok.mp h
  exact hlevel.member (hlevel.evaluate hscope htarget) h

theorem index {e i : Expr} {v : Value}
    (h : level.expression r here scope (.index e i) = .ok v) : v.WellFormed := by
  simp only [Level.expression, bind_eq_ok] at h
  obtain ⟨target, htarget, _, -, h⟩ := h
  exact (hlevel.evaluate hscope htarget).of_index h

theorem applied {target : Option Expr} {name : String} {args : List Expr} {v : Value}
    (h : level.expression r here scope (.call target name args) = .ok v) : v.WellFormed := by
  cases target with
  | none => exact hlevel.callNamed hscope h
  | some e =>
    obtain ⟨target, htarget, h⟩ := bind_eq_ok.mp h
    exact hlevel.callOn hscope (hlevel.evaluate hscope htarget) h

theorem expression {e : Expr} {v : Value} (h : level.expression r here scope e = .ok v) :
    v.WellFormed := by
  cases e with
  | float | integer | string | boolean | null =>
    cases h
    simp
  | lambda params body =>
    cases h
    exact Value.wellFormed_lambda.mpr hscope
  | name name => exact wellFormed_of_lookup hscope h
  | array items => exact hlevel.array hscope h
  | object ms => exact hlevel.object hscope h
  | range first last => exact wellFormed_of_rangeOf h
  | unary op e => exact wellFormed_of_unaryOf h
  | binary op left right => exact wellFormed_of_binaryOf h
  | conditional test yes no => exact hlevel.conditional hscope h
  | member e name => exact hlevel.memberOf hscope h
  | index e i => exact hlevel.index hscope h
  | call target name args => exact hlevel.applied hscope h

end Level.KeepsWellFormed

/-- Both at any depth: what one level keeps to, the next one does, if the functions do. -/
theorem keepsWellFormed {r : Registry} (hr : r.KeepsWellFormed) (limit depth : Nat) :
    Level.KeepsWellFormed ⟨evaluate r limit depth, call r limit depth⟩ := by
  induction depth with
  | zero =>
    constructor
    · intro here e scope v _ h
      cases h
    · intro here name args onTarget v _ h
      obtain ⟨_, -, h⟩ := bind_eq_ok.mp h
      cases h
  | succ depth ih =>
    constructor
    · intro here e scope v hscope h
      exact ih.expression hscope h
    · intro here name args onTarget v hargs h
      obtain ⟨⟨o, args'⟩, hresolve, h⟩ := bind_eq_ok.mp h
      refine hr o (Registry.mem_of_resolve hresolve) ?_ (wellFormed_of_resolve hargs hresolve) h
      exact fun hcallee hargs h => ih.invoke hcallee hargs h

end Eval

theorem Engine.wellFormed_of_run {engine : Engine} (hr : engine.registry.KeepsWellFormed)
    {here : Trail} {source : String} {scope : Scope} {v : Value} (hscope : scope.WellFormed)
    (h : engine.run here source scope = .ok v) : v.WellFormed := by
  obtain ⟨e, -, h⟩ := bind_eq_ok.mp h
  exact (Eval.keepsWellFormed hr engine.limit engine.limit).evaluate hscope h

end Stencil

import Stencil.Builtin
import Stencil.Proofs.Depth.Counting

/-!
# Built-in functions in a run that counts

The functions that call back, with callbacks that work on the counters. Each of them returns what
the function without counters comes to, if each callback does; the other functions never get to the
counters.
-/

namespace Stencil.Counted

open Builtin (misshapen)

abbrev CountedCallback := Nat → Value → List Value → Counted EvalError Value

abbrev CountedBody := CountedCallback → List Value → Counted EvalError Value

def each {α : Type} (f : Nat → Value → Counted EvalError α) :
    (i : Nat) → List Value → Counted EvalError (List α)
  | _, [] => pure []
  | i, v :: vs => do
    let a ← f i v
    return a :: (← each f (i + 1) vs)

def apply (callback : CountedCallback) (callee : Option Value) (i : Nat) (v : Value) :
    Counted EvalError Value :=
  match callee with
  | some callee => callback i callee [v, .integer (Int64.ofNat i)]
  | none => pure v

def accepts (callback : CountedCallback) (callee : Value) (i : Nat) (v : Value) :
    Counted EvalError Bool :=
  Value.truthy <$> apply callback (some callee) i v

def filterItems (callback : CountedCallback) (items : List Value) (callee : Value) :
    Counted EvalError (List Value) := do
  let kept ← each (fun i v => (fun ok => (v, ok)) <$> accepts callback callee i v) 0 items
  return (kept.filter (·.2)).map (·.1)

def splicedResults (callback : CountedCallback) (callee : Option Value) :
    (i : Nat) → List Value → Counted EvalError (List Value)
  | _, [] => pure []
  | i, v :: vs => do
    let w ← apply callback callee i v
    return Builtin.spliced w ++ (← splicedResults callback callee (i + 1) vs)

def countItems (callback : CountedCallback) (callee : Value) :
    (i : Nat) → List Value → Counted EvalError Nat
  | _, [] => pure 0
  | i, v :: vs => do
    let ok ← accepts callback callee i v
    let n ← countItems callback callee (i + 1) vs
    return if ok then n + 1 else n

def firstAccepted? (callback : CountedCallback) (callee : Value) :
    (i : Nat) → List Value → Counted EvalError (Option Value)
  | _, [] => pure none
  | i, v :: vs => do
    if ← accepts callback callee i v then return some v
    else firstAccepted? callback callee (i + 1) vs

def fieldOf (callback : CountedCallback) (callee : Value) (space : Int64) (i : Nat) (v : Value) :
    Counted EvalError Nat := do
  let result ← apply callback (some callee) i v
  match result.number? with
  | none => throw (.functionFailed "encode" (.resultNotANumber result.kind))
  | some n =>
    let n := n.toInt64
    if 0 ≤ n.toInt && n.toInt < space.toInt then return n.toInt.toNat
    else throw (.functionFailed "encode" (.outOfRange n space))

def keyOf (name : String) (callback : CountedCallback) (callee : Option Value) (i : Nat)
    (v : Value) : Counted EvalError (Value × Float) := do
  let key ← apply callback callee i v
  match key.number? with
  | some n => return (v, n.toFloat)
  | none => throw (.functionFailed name (.notANumber key.kind))

def onArray (name : String)
    (f : CountedCallback → List Value → Value → Counted EvalError Value) : CountedBody :=
  fun callback args =>
    match args with
    | [.array _ items, callee] => f callback items callee
    | _ => outcome (misshapen name)

def onArrayWithOption (name : String)
    (f : CountedCallback → List Value → Option Value → Counted EvalError Value) : CountedBody :=
  fun callback args =>
    match args with
    | [.array _ items] => f callback items none
    | [.array _ items, callee] => f callback items (some callee)
    | _ => outcome (misshapen name)

def filter : CountedBody :=
  onArray "filter" fun callback items callee => .ofItems <$> filterItems callback items callee

def map : CountedBody :=
  onArray "map" fun callback items callee =>
    .ofItems <$> each (apply callback (some callee)) 0 items

def flatMap : CountedBody :=
  onArrayWithOption "flatMap" fun callback items callee? =>
    .ofItems <$> splicedResults callback callee? 0 items

def count : CountedBody :=
  onArrayWithOption "count" fun callback items callee? => do
    let n ← match callee? with
      | some callee => countItems callback callee 0 items
      | none => pure items.length
    return .integer (Int64.ofNat n)

def findFirst : CountedBody :=
  onArray "findFirst" fun callback items callee => do
    match ← firstAccepted? callback callee 0 items with
    | some v => return v
    | none => throw (.functionFailed "findFirst" .noMatch)

def encode : CountedBody := fun callback args =>
  match args with
  | [.array _ items, v, callee] =>
    match v.number? with
    | some n =>
      let space := n.toInt64
      match Builtin.fieldWidth? space with
      | some width => do
        let fields ← each (fieldOf callback callee space) 0 (items.take (32 / width))
        return .integer (Int64.ofInt (Int.bmod (Builtin.packed width fields) (Nat.pow 2 32)))
      | none => throw (.argument "encode" (.notPowerOfTwo space))
    | none => outcome (misshapen "encode")
  | _ => outcome (misshapen "encode")

def extreme (name : String) (better : Float → Float → Bool) : CountedBody :=
  onArrayWithOption name fun callback items callee? => do
    let keyed ← each (keyOf name callback callee?) 0 items
    return (Builtin.best? better keyed).elim .null (·.1)

/-- The functions that call back, by their signatures. -/
def callers : List (Signature × CountedBody) :=
  [(Builtin.filter.signature, filter), (Builtin.map.signature, map),
    (Builtin.flatMap.signature, flatMap), (Builtin.count.signature, count),
    (Builtin.findFirst.signature, findFirst), (Builtin.encode.signature, encode),
    (Builtin.max.signature, extreme "max" fun x y => y < x),
    (Builtin.min.signature, extreme "min" fun x y => x < y)]

/-- What a function does in a run that counts. One that never calls back does what it does in any
run, whatever the callback is. -/
def body (o : Overload) : CountedBody :=
  match callers.lookup o.signature with
  | some body => body
  | none => fun _ args => outcome (o.body (fun _ _ _ => .ok .null) args)

/-- Two cases that are told apart by whether there is a value. -/
theorem returns_option {c : Counters} {o : Option Value} {f' : Value → Counted EvalError Value}
    {f : Value → Outcome} {x' : Counted EvalError Value} {x : Outcome}
    (hsome : ∀ v, Returns c (f' v) (f v)) (hnone : Returns c x' x) :
    Returns c (match o with | some v => f' v | none => x')
      (match o with | some v => f v | none => x) := by
  cases o with
  | none => exact hnone
  | some v => exact hsome v

section

variable {c : Counters} {callback' : CountedCallback} {callback : Callback}

theorem returns_each {α : Type} {f' : Nat → Value → Counted EvalError α}
    {f : Nat → Value → Except EvalError α} (hf : ∀ i v, Returns c (f' i v) (f i v)) (i : Nat)
    (vs : List Value) : Returns c (each f' i vs) (Builtin.each f i vs) := by
  induction vs generalizing i with
  | nil => exact .pure []
  | cons v vs ih => exact .bind (hf i v) fun a => .bind (ih (i + 1)) fun as => .pure (a :: as)

variable (h : ∀ i callee args, Returns c (callback' i callee args) (callback i callee args))
include h

theorem returns_apply (callee : Option Value) (i : Nat) (v : Value) :
    Returns c (apply callback' callee i v) (Builtin.apply callback callee i v) := by
  cases callee with
  | none => exact .pure v
  | some callee => exact h _ _ _

theorem returns_accepts (callee : Value) (i : Nat) (v : Value) :
    Returns c (accepts callback' callee i v) (Builtin.accepts callback callee i v) :=
  (returns_apply h (some callee) i v).map _

theorem returns_filterItems (items : List Value) (callee : Value) :
    Returns c (filterItems callback' items callee) (Builtin.filterItems callback items callee) :=
  .bind (returns_each (fun i v => (returns_accepts h callee i v).map _) 0 items) fun _ => .pure _

theorem returns_splicedResults (callee : Option Value) (i : Nat) (vs : List Value) :
    Returns c (splicedResults callback' callee i vs)
      (Builtin.splicedResults callback callee i vs) := by
  induction vs generalizing i with
  | nil => exact .pure []
  | cons v vs ih =>
    exact .bind (returns_apply h callee i v) fun w => .bind (ih (i + 1)) fun rest => .pure _

theorem returns_countItems (callee : Value) (i : Nat) (vs : List Value) :
    Returns c (countItems callback' callee i vs) (Builtin.countItems callback callee i vs) := by
  induction vs generalizing i with
  | nil => exact .pure 0
  | cons v vs ih =>
    exact .bind (returns_accepts h callee i v) fun ok => .bind (ih (i + 1)) fun n => .pure _

theorem returns_firstAccepted? (callee : Value) (i : Nat) (vs : List Value) :
    Returns c (firstAccepted? callback' callee i vs)
      (Builtin.firstAccepted? callback callee i vs) := by
  induction vs generalizing i with
  | nil => exact .pure none
  | cons v vs ih =>
    refine .bind (returns_accepts h callee i v) fun ok => ?_
    cases ok with
    | true => exact .pure (some v)
    | false => exact ih (i + 1)

theorem returns_fieldOf (callee : Value) (space : Int64) (i : Nat) (v : Value) :
    Returns c (fieldOf callback' callee space i v) (Builtin.fieldOf callback callee space i v) := by
  refine .bind (returns_apply h (some callee) i v) fun result => ?_
  cases result.number? with
  | none => exact .throw _
  | some n =>
    simp only
    split
    · exact .pure _
    · exact .throw _

theorem returns_keyOf (name : String) (callee : Option Value) (i : Nat) (v : Value) :
    Returns c (keyOf name callback' callee i v) (Builtin.keyOf name callback callee i v) := by
  refine .bind (returns_apply h callee i v) fun key => ?_
  cases key.number? with
  | none => exact .throw _
  | some n => exact .pure _

end

/-- The body returns what the function comes to without counters, if the callback does. -/
def CountsAs (o : Overload) (b : CountedBody) : Prop :=
  ∀ ⦃c : Counters⦄ ⦃callback' : CountedCallback⦄ ⦃callback : Callback⦄,
    (∀ i callee args, Returns c (callback' i callee args) (callback i callee args)) →
    ∀ args, Returns c (b callback' args) (o.body callback args)

theorem countsAs_of_no_callback {o : Overload} (hnone : callers.lookup o.signature = none)
    (hbody : ∀ callback callback', o.body callback = o.body callback') : CountsAs o (body o) := by
  intro c callback' callback _ args
  rw [body, hnone, hbody callback]
  exact .outcome _

section

variable {c : Counters} {callback' : CountedCallback} {callback : Callback}

theorem returns_onArray (name : String)
    {f' : CountedCallback → List Value → Value → Counted EvalError Value}
    {f : Callback → List Value → Value → Outcome}
    (h : ∀ items callee, Returns c (f' callback' items callee) (f callback items callee))
    (args : List Value) :
    Returns c (onArray name f' callback' args) ((Builtin.onArray name f).body callback args) := by
  simp only [onArray]
  split
  · exact h _ _
  · simp only [Builtin.onArray]
    exact .outcome _

theorem returns_onArrayWithOption (name : String)
    {f' : CountedCallback → List Value → Option Value → Counted EvalError Value}
    {f : Callback → List Value → Option Value → Outcome}
    (h : ∀ items callee?, Returns c (f' callback' items callee?) (f callback items callee?))
    (args : List Value) :
    Returns c (onArrayWithOption name f' callback' args)
      ((Builtin.onArrayWithOption name f).body callback args) := by
  simp only [onArrayWithOption]
  split
  · exact h _ none
  · exact h _ (some _)
  · simp only [Builtin.onArrayWithOption]
    exact .outcome _

end

theorem countsAs_filter : CountsAs Builtin.filter filter := fun _ _ _ h =>
  returns_onArray "filter" fun _ _ => (returns_filterItems h _ _).map _

theorem countsAs_map : CountsAs Builtin.map map := fun _ _ _ h =>
  returns_onArray "map" fun _ _ => (returns_each (returns_apply h _) _ _).map _

theorem countsAs_flatMap : CountsAs Builtin.flatMap flatMap := fun _ _ _ h =>
  returns_onArrayWithOption "flatMap" fun _ _ => (returns_splicedResults h _ _ _).map _

theorem countsAs_count : CountsAs Builtin.count count := by
  intro c callback' callback h
  refine returns_onArrayWithOption "count" fun items callee? => ?_
  cases callee? with
  | none => exact .pure _
  | some callee => exact .bind (returns_countItems h _ _ _) fun _ => .pure _

theorem countsAs_findFirst : CountsAs Builtin.findFirst findFirst := by
  intro c callback' callback h
  refine returns_onArray "findFirst" fun items callee => ?_
  refine .bind (returns_firstAccepted? h _ _ _) fun found => ?_
  cases found with
  | some v => exact .pure v
  | none => exact .throw _

theorem countsAs_encode : CountsAs Builtin.encode encode := by
  intro c callback' callback h args
  simp only [encode]
  split
  · rename_i v callee
    simp only [Builtin.encode]
    cases v.number? with
    | none => exact .outcome _
    | some n =>
      simp only
      cases Builtin.fieldWidth? n.toInt64 with
      | none => exact .throw _
      | some width =>
        exact .bind (returns_each (returns_fieldOf h _ _) _ _) fun _ => .pure _
  · simp only [Builtin.encode]
    exact .outcome _

theorem countsAs_extreme (name : String) (better : Float → Float → Bool) :
    CountsAs (Builtin.extreme name better) (extreme name better) := fun _ _ _ h =>
  returns_onArrayWithOption name fun _ _ =>
    .bind (returns_each (returns_keyOf h name _) _ _) fun _ => .pure _

open Builtin in
theorem countsAs_builtins : ∀ o ∈ Registry.builtins.overloads, CountsAs o (body o) := by
  simp only [Registry.builtins, onLists, onNumbersAlone, List.cons_append, List.nil_append,
    List.forall_mem_cons, List.not_mem_nil, false_imp_iff, implies_true, and_true]
  have silent {o : Overload} := @countsAs_of_no_callback o
  exact ⟨silent rfl fun _ _ => rfl, silent rfl fun _ _ => rfl, silent rfl fun _ _ => rfl,
    silent rfl fun _ _ => rfl, silent rfl fun _ _ => rfl, silent rfl fun _ _ => rfl,
    countsAs_filter, countsAs_map, countsAs_flatMap, countsAs_count, countsAs_findFirst,
    silent rfl fun _ _ => rfl, countsAs_encode, silent rfl fun _ _ => rfl,
    silent rfl fun _ _ => rfl, countsAs_extreme _ _, countsAs_extreme _ _,
    silent rfl fun _ _ => rfl, silent rfl fun _ _ => rfl, silent rfl fun _ _ => rfl,
    silent rfl fun _ _ => rfl, silent rfl fun _ _ => rfl, silent rfl fun _ _ => rfl⟩

end Stencil.Counted

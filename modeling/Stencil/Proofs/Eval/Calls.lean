import Stencil.Builtin
import Stencil.Proofs.Calls

/-!
# What evaluation asks for

A level of evaluation asks the level below it finitely often, and it passes on that the levels have
run out, and a merge that failed: no operator, built-in function or member access makes one of these
failures, and none hides it.
-/

namespace Stencil

/-- The levels have run out. -/
def EvalError.IsLimit : EvalError → Prop
  | .recursionLimit _ => True
  | _ => False

/-- Two values could not be merged. -/
def EvalError.IsConflict : EvalError → Prop
  | .mergeConflict _ => True
  | _ => False

/-- What no level fails with unless the one below it does. -/
def EvalError.IsPassedOn : EvalError → Prop
  | .recursionLimit _ | .mergeConflict _ => True
  | _ => False

theorem EvalError.isPassedOn_iff {e : EvalError} : e.IsPassedOn ↔ e.IsLimit ∨ e.IsConflict := by
  cases e <;> simp [IsPassedOn, IsLimit, IsConflict]

/-- What no operator fails with, and no function on arguments that fit it. -/
def EvalError.IsForeign : EvalError → Prop
  | .recursionLimit _ | .mergeConflict _ | .argument _ .shape => True
  | _ => False

theorem EvalError.isForeign_of_isPassedOn (e : EvalError) (h : e.IsPassedOn) : e.IsForeign := by
  cases e <;> first | exact trivial | exact h.elim

/-- A computation that fails with the limit or a conflict only if one of the answers does. -/
abbrev AsksLevels {σ ι γ α : Type} (answer : σ → ι → Except EvalError γ)
    (f : σ → Except EvalError α) : Prop :=
  Asks EvalError.IsPassedOn answer f

variable {σ ι γ : Type} {answer : σ → ι → Except EvalError γ}

namespace Value

theorem avoids_bound (v : Value) : Avoids EvalError.IsForeign (bound v) := by
  unfold bound
  split
  · exact .ok _
  · exact .error id

theorem avoids_range (v w : Value) : Avoids EvalError.IsForeign (range v w) := by
  apply Avoids.bind (avoids_bound v)
  intro first
  apply Avoids.bind (avoids_bound w)
  intro last
  split
  · exact .ok _
  · exact .error id

theorem avoids_unary (op : UnaryOp) (v : Value) : Avoids EvalError.IsForeign (unary op v) := by
  unfold unary
  split
  · exact .ok _
  · split
    · exact .ok _
    · exact .error id

theorem avoids_position (v i : Value) (length : Nat) :
    Avoids EvalError.IsForeign (position v i length) := by
  unfold position
  split
  · split
    · simp only
      split
      · exact .error id
      · exact .ok _
    · exact .error id
  · exact .error id

theorem avoids_index (v i : Value) : Avoids EvalError.IsForeign (index v i) := by
  unfold index
  split
  · exact .ok _
  · exact .bind (avoids_position _ _ _) fun _ => .ok _
  · exact .bind (avoids_position _ _ _) fun _ => .ok _
  · exact .bind (avoids_position _ _ _) fun _ => .ok _
  · exact .error id

theorem avoids_arith (op : Arith) (v w : Value) : Avoids EvalError.IsForeign (arith op v w) := by
  unfold arith
  split
  · split
    · exact .ok _
    · exact .error id
  · exact .error id

theorem avoids_add (v w : Value) : Avoids EvalError.IsForeign (add v w) := by
  unfold add
  split
  · split
    · exact .error id
    · exact .ok _
  · exact avoids_arith _ _ _

theorem avoids_order (op : Comparison) (v w : Value) :
    Avoids EvalError.IsForeign (order op v w) := by
  unfold order
  split
  · exact .ok _
  · exact .error id

theorem avoids_binary (op : BinaryOp) (v w : Value) :
    Avoids EvalError.IsForeign (binary op v w) := by
  unfold binary
  split
  · exact .ok _
  · exact .ok _
  · exact .ok _
  · exact .ok _
  · exact avoids_order _ _ _
  · exact avoids_add _ _
  · exact avoids_arith _ _ _

end Value

/-- The body of a function asks its callback finitely often and passes on its failures. -/
def Overload.AsksCallback (o : Overload) : Prop :=
  ∀ {σ ι γ : Type} {answer : σ → ι → Except EvalError γ} {callback : σ → Callback}
    (_ : ∀ i v args, AsksLevels answer fun s => callback s i v args) (args : List Value),
    AsksLevels answer fun s => o.body (callback s) args

namespace Builtin

variable {callback : σ → Callback}

theorem asks_misshapen (name : String) : AsksLevels answer fun _ => misshapen name :=
  .error id

theorem asks_each {α : Type} {P : EvalError → Prop} {f : σ → Nat → Value → Except EvalError α}
    (hf : ∀ i v, Asks P answer fun s => f s i v) (i : Nat) (vs : List Value) :
    Asks P answer fun s => each (f s) i vs := by
  induction vs generalizing i with
  | nil => exact .ok _
  | cons v vs ih =>
    apply Asks.bind (hf i v)
    intro a
    apply Asks.bind (ih (i + 1))
    intro as
    exact .ok _

section

variable {P : EvalError → Prop} (hcallback : ∀ i v args, Asks P answer fun s => callback s i v args)
include hcallback

theorem asks_apply (callee : Option Value) (i : Nat) (v : Value) :
    Asks P answer fun s => apply (callback s) callee i v := by
  cases callee with
  | none => exact .ok _
  | some callee => exact hcallback _ _ _

theorem asks_accepts (callee : Value) (i : Nat) (v : Value) :
    Asks P answer fun s => accepts (callback s) callee i v :=
  (asks_apply hcallback (some callee) i v).map _

theorem asks_filterItems (items : List Value) (callee : Value) :
    Asks P answer fun s => filterItems (callback s) items callee := by
  apply Asks.bind (asks_each (fun i v => (asks_accepts hcallback callee i v).map _) 0 items)
  intro kept
  exact .ok _

theorem asks_firstAccepted? (callee : Value) (i : Nat) (vs : List Value) :
    Asks P answer fun s => firstAccepted? (callback s) callee i vs := by
  induction vs generalizing i with
  | nil => exact .ok _
  | cons v vs ih =>
    apply Asks.bind (asks_accepts hcallback callee i v)
    intro ok
    cases ok with
    | true => exact .ok _
    | false => exact ih (i + 1)

section

variable (hP : ∀ e, P e → e.IsForeign)
include hP

theorem asks_fieldOf (callee : Value) (space : Int64) (i : Nat) (v : Value) :
    Asks P answer fun s => fieldOf (callback s) callee space i v := by
  apply Asks.bind (asks_apply hcallback (some callee) i v)
  intro result
  split
  · exact .error (hP _)
  · simp only
    split
    · exact .ok _
    · exact .error (hP _)

theorem asks_keyOf (name : String) (callee : Option Value) (i : Nat) (v : Value) :
    Asks P answer fun s => keyOf name (callback s) callee i v := by
  apply Asks.bind (asks_apply hcallback callee i v)
  intro key
  split
  · exact .ok _
  · exact .error (hP _)

end

end

theorem avoids_sublistOf (items : List Value) (start : Int64) (stop : Option Int64) :
    Avoids EvalError.IsForeign (sublistOf items start stop) := by
  unfold sublistOf
  split
  · exact .error id
  · split
    · exact .ok _
    · split
      · exact .error id
      · exact .ok _

/-! A function without a callback asks for nothing. -/

theorem asksCallback_onNumber (name : String) (f : Number → Number) :
    (onNumber name f).AsksCallback := by
  intro _ _ _ _ _ _ args
  simp only [onNumber]
  split
  · split
    · exact .ok _
    · exact asks_misshapen _
  · exact asks_misshapen _

theorem asksCallback_modulo : modulo.AsksCallback := by
  intro _ _ _ _ _ _ args
  simp only [modulo, onNumbers]
  split
  · split
    · split
      · exact .ok _
      · exact .error id
    · exact asks_misshapen _
  · exact asks_misshapen _

theorem asksCallback_power : power.AsksCallback := by
  intro _ _ _ _ _ _ args
  simp only [power, onNumbers]
  split
  · split
    · exact .ok _
    · exact asks_misshapen _
  · exact asks_misshapen _

theorem asksCallback_onObject (name : String) (f : Fields Value → List Value) :
    (onObject name f).AsksCallback := by
  intro _ _ _ _ _ _ args
  simp only [onObject]
  split
  · exact .ok _
  · exact asks_misshapen _

theorem asksCallback_asArray : asArray.AsksCallback := by
  intro _ _ _ _ _ _ args
  simp only [asArray]
  split
  · exact .ok _
  · exact asks_misshapen _

theorem asksCallback_reverse : reverse.AsksCallback := by
  intro _ _ _ _ _ _ args
  simp only [reverse]
  split
  · exact .ok _
  · exact asks_misshapen _

theorem asksCallback_containsString : containsString.AsksCallback := by
  intro _ _ _ _ _ _ args
  simp only [containsString]
  split
  · exact .ok _
  · exact asks_misshapen _

theorem asksCallback_containsNumber : containsNumber.AsksCallback := by
  intro _ _ _ _ _ _ args
  simp only [containsNumber]
  split
  · split
    · exact .ok _
    · exact asks_misshapen _
  · exact asks_misshapen _

theorem asksCallback_indexOf : indexOf.AsksCallback := by
  intro _ _ _ _ _ _ args
  simp only [indexOf]
  split
  · exact .ok _
  · exact asks_misshapen _

theorem asksCallback_sublist : sublist.AsksCallback := by
  intro _ _ _ _ _ _ args
  simp only [sublist]
  split
  · split
    · exact .const ((avoids_sublistOf _ _ _).mono EvalError.isForeign_of_isPassedOn)
    · exact asks_misshapen _
  · exact asks_misshapen _

theorem asksCallback_sublistUpTo : sublistUpTo.AsksCallback := by
  intro _ _ _ _ _ _ args
  simp only [sublistUpTo]
  split
  · split
    · exact .const ((avoids_sublistOf _ _ _).mono EvalError.isForeign_of_isPassedOn)
    · exact asks_misshapen _
  · exact asks_misshapen _

theorem asksCallback_filter : filter.AsksCallback := by
  intro _ _ _ _ _ hcallback args
  simp only [filter, onArray]
  split
  · exact (asks_filterItems hcallback _ _).map _
  · exact asks_misshapen _

theorem asksCallback_map : map.AsksCallback := by
  intro _ _ _ _ _ hcallback args
  simp only [map, onArray]
  split
  · exact (asks_each (asks_apply hcallback _) _ _).map _
  · exact asks_misshapen _

theorem asksCallback_flatMap : flatMap.AsksCallback := by
  intro _ _ _ _ _ hcallback args
  simp only [flatMap, onArrayWithOption, splicedResults_eq]
  split
  · exact ((asks_each (asks_apply hcallback _) _ _).map _).map _
  · exact ((asks_each (asks_apply hcallback _) _ _).map _).map _
  · exact asks_misshapen _

theorem asksCallback_count : count.AsksCallback := by
  intro _ _ _ _ _ hcallback args
  simp only [count, onArrayWithOption, countItems_eq]
  split
  · exact .ok _
  · exact .bind ((asks_filterItems hcallback _ _).map _) fun _ => .ok _
  · exact asks_misshapen _

theorem asksCallback_findFirst : findFirst.AsksCallback := by
  intro _ _ _ _ _ hcallback args
  simp only [findFirst, onArray]
  split
  · apply Asks.bind (asks_firstAccepted? hcallback _ _ _)
    intro found
    cases found with
    | some v => exact .ok _
    | none => exact .error id
  · exact asks_misshapen _

theorem asksCallback_encode : encode.AsksCallback := by
  intro _ _ _ _ _ hcallback args
  have hfield := asks_fieldOf hcallback EvalError.isForeign_of_isPassedOn
  simp only [encode]
  split
  · split
    · split
      · exact .bind (asks_each (hfield _ _) _ _) fun _ => .ok _
      · exact .error id
    · exact asks_misshapen _
  · exact asks_misshapen _

theorem asksCallback_extreme (name : String) (better : Float → Float → Bool) :
    (extreme name better).AsksCallback := by
  intro _ _ _ _ _ hcallback args
  have hkey := asks_keyOf hcallback EvalError.isForeign_of_isPassedOn
  simp only [extreme, onArrayWithOption]
  split
  · exact .bind (asks_each (hkey _ _) _ _) fun _ => .ok _
  · exact .bind (asks_each (hkey _ _) _ _) fun _ => .ok _
  · exact asks_misshapen _

end Builtin

/-- Every function of a registry asks its callback only. -/
def Registry.AsksCallbacks (r : Registry) : Prop :=
  ∀ o ∈ r.overloads, o.AsksCallback

open Builtin in
theorem Registry.asksCallbacks_builtins : Registry.builtins.AsksCallbacks := by
  simp only [AsksCallbacks, builtins, onLists, onNumbersAlone, List.cons_append, List.nil_append,
    List.forall_mem_cons, List.not_mem_nil, false_imp_iff, implies_true, and_true]
  exact ⟨asksCallback_asArray, asksCallback_onObject _ _, asksCallback_onObject _ _,
    asksCallback_reverse, asksCallback_containsString, asksCallback_containsNumber,
    asksCallback_filter, asksCallback_map, asksCallback_flatMap, asksCallback_count,
    asksCallback_findFirst, asksCallback_indexOf, asksCallback_encode,
    asksCallback_sublistUpTo, asksCallback_sublist, asksCallback_extreme _ _,
    asksCallback_extreme _ _, asksCallback_modulo, asksCallback_onNumber _ _,
    asksCallback_onNumber _ _, asksCallback_onNumber _ _, asksCallback_onNumber _ _,
    asksCallback_power⟩

end Stencil

import Stencil.Proofs.Builtin.Faultless
import Stencil.Proofs.Eval.Applications

/-!
# Signatures and bodies

The body of a built-in function refuses arguments that its signature lets nobody pass. No evaluation
ever fails with that: a body that gets what a call resolves to does not make this failure, and the
levels of evaluation only pass it on.
-/

namespace Stencil

/-- A body got arguments that do not fit it. -/
def EvalError.IsMisfit : EvalError → Prop
  | .argument _ .shape => True
  | _ => False

theorem EvalError.isForeign_of_isMisfit (e : EvalError) (h : e.IsMisfit) : e.IsForeign := by
  cases e with
  | argument name fault => cases fault <;> first | exact trivial | exact h.elim
  | _ => exact h.elim

/-- Arguments that cannot be brought to their kinds are another failure. -/
theorem Registry.avoids_resolve (r : Registry) (name : String) (args : List Value)
    (onTarget : Bool) : Avoids EvalError.IsMisfit (r.resolve name args onTarget) := by
  rw [resolve]
  split
  · exact .error id
  · intro e h
    obtain ⟨fault, hfault, rfl⟩ := mapError_eq_error.mp (map_eq_error.mp h)
    obtain ⟨i, kind, v, -, rfl⟩ := coerceAll_eq_error_iff.mp hfault
    exact id

namespace Builtin

section

variable {callback : Callback}
  (hcallback : ∀ i v args, Avoids EvalError.IsMisfit (callback i v args))
include hcallback

theorem asks_callback (i : Nat) (v : Value) (args : List Value) :
    Asks EvalError.IsMisfit silent fun _ => callback i v args :=
  .const (hcallback i v args)

theorem avoids_apply (callee : Option Value) (i : Nat) (v : Value) :
    Avoids EvalError.IsMisfit (apply callback callee i v) :=
  asks_silent_iff.mp (asks_apply (asks_callback hcallback) callee i v)

theorem avoids_filterItems (items : List Value) (callee : Value) :
    Avoids EvalError.IsMisfit (filterItems callback items callee) :=
  asks_silent_iff.mp (asks_filterItems (asks_callback hcallback) items callee)

theorem avoids_firstAccepted? (callee : Value) (i : Nat) (vs : List Value) :
    Avoids EvalError.IsMisfit (firstAccepted? callback callee i vs) :=
  asks_silent_iff.mp (asks_firstAccepted? (asks_callback hcallback) callee i vs)

theorem avoids_fieldOf (callee : Value) (space : Int64) (i : Nat) (v : Value) :
    Avoids EvalError.IsMisfit (fieldOf callback callee space i v) :=
  asks_silent_iff.mp
    (asks_fieldOf (asks_callback hcallback) EvalError.isForeign_of_isMisfit callee space i v)

theorem avoids_keyOf (name : String) (callee : Option Value) (i : Nat) (v : Value) :
    Avoids EvalError.IsMisfit (keyOf name callback callee i v) :=
  asks_silent_iff.mp
    (asks_keyOf (asks_callback hcallback) EvalError.isForeign_of_isMisfit name callee i v)

end

theorem avoids_each {α : Type} {P : EvalError → Prop} {f : Nat → Value → Except EvalError α}
    (hf : ∀ i v, Avoids P (f i v)) (i : Nat) (vs : List Value) : Avoids P (each f i vs) := by
  have hasks (i : Nat) (v : Value) : Asks P silent fun _ => f i v := .const (hf i v)
  exact asks_silent_iff.mp (asks_each hasks i vs)

namespace Checked

/-- The failure among faults and failures. -/
def IsMisfit : Fault ⊕ EvalError → Prop :=
  Sum.elim (fun _ => False) EvalError.IsMisfit

theorem avoids_lift_iff {α : Type} {x : Except EvalError α} :
    Avoids IsMisfit (lift x) ↔ Avoids EvalError.IsMisfit x := by
  cases x <;> simp [Avoids, lift, Except.mapError, IsMisfit]

theorem avoids_check {c : Prop} [Decidable c] {f : Fault} : Avoids IsMisfit (check c f) := by
  unfold check
  split
  · exact .ok _
  · exact .error id

theorem avoids_argument {α : Type} {kind : ParamKind} {read : Value → Option α}
    {function : String} {args : List Value} {i : Nat} :
    Avoids IsMisfit (argument kind read function args i) := by
  unfold argument
  split
  · exact .ok _
  · exact .error id

theorem avoids_remainder {a b : Number} : Avoids IsMisfit (remainder a b) := by
  unfold remainder
  split <;> exact .bind avoids_check fun _ => .ok _

theorem avoids_place {items : List Value} {least : Int} {i : Int64} :
    Avoids IsMisfit (place items least i) := by
  unfold place
  split
  · exact .error id
  · exact .ok _

theorem avoids_sublistBody (callback : Callback) (args : List Value) :
    Avoids IsMisfit (sublistBody callback args) := by
  refine .bind avoids_argument fun items => .bind avoids_argument fun start => ?_
  refine .bind avoids_place fun first => ?_
  have hslice (stop : Nat) :
      Avoids IsMisfit (do return Value.ofItems (← slice items first stop)) :=
    .bind (.bind avoids_check fun _ => .ok _) fun _ => .ok _
  dsimp only
  split
  · exact .bind avoids_argument fun stop => .bind avoids_place hslice
  · exact hslice _

section

variable {callback : Callback}
  (hcallback : ∀ i v args, Avoids EvalError.IsMisfit (callback i v args))
include hcallback

theorem avoids_fieldsFrom {callee : Value} {space : Int64} {width i : Nat} {word : BitVec 32}
    {vs : List Value} : Avoids IsMisfit (fieldsFrom callback callee space width i word vs) := by
  induction vs generalizing i word with
  | nil => exact .ok _
  | cons v vs ih =>
    refine .bind (avoids_lift_iff.mpr (avoids_fieldOf hcallback callee space i v)) fun n => ?_
    refine .bind (.bind avoids_check fun _ => .ok _) fun field => ?_
    exact .bind (.bind avoids_check fun _ => .ok _) fun _ => ih

theorem avoids_encodeItems {items : List Value} {space : Int64} {callee : Value} :
    Avoids IsMisfit (encodeItems callback items space callee) := by
  unfold encodeItems
  split
  · refine .bind (.bind avoids_check fun _ => .ok _) fun room => ?_
    exact .bind (avoids_fieldsFrom hcallback) fun _ => .ok _
  · exact .error id

end

end Checked

/-- The checked body fails with a misfit only if the callback does. -/
def CheckedOverload.PassesMisfits (g : CheckedOverload) : Prop :=
  ∀ callback, (∀ i v args, Avoids EvalError.IsMisfit (callback i v args)) →
    ∀ args, Avoids Checked.IsMisfit (g.checked callback args)

namespace Checked

theorem passesMisfits_onObject (name : String) (f : Fields Value → List Value) :
    (onObject name f).PassesMisfits :=
  fun _ _ _ => .bind avoids_argument fun _ => .ok _

theorem passesMisfits_asArray : asArray.PassesMisfits :=
  fun _ _ _ => .bind avoids_argument fun _ => .bind avoids_argument fun _ =>
    .bind avoids_argument fun _ => .ok _

theorem passesMisfits_reverse : reverse.PassesMisfits :=
  fun _ _ _ => .bind avoids_argument fun _ => .ok _

theorem passesMisfits_containsString : containsString.PassesMisfits :=
  fun _ _ _ => .bind avoids_argument fun _ => .bind avoids_argument fun _ => .ok _

theorem passesMisfits_containsNumber : containsNumber.PassesMisfits :=
  fun _ _ _ => .bind avoids_argument fun _ => .bind avoids_argument fun _ => .ok _

theorem passesMisfits_onArray {name : String} {f : Callback → List Value → Value → Outcome}
    (hf : ∀ callback items callee, (∀ i v args, Avoids EvalError.IsMisfit (callback i v args)) →
      Avoids EvalError.IsMisfit (f callback items callee)) : (onArray name f).PassesMisfits := by
  intro callback hcallback args
  refine .bind avoids_argument fun items => .bind avoids_argument fun callee => ?_
  exact avoids_lift_iff.mpr (hf callback items callee hcallback)

theorem passesMisfits_onArrayWithOption {name : String}
    {f : Callback → List Value → Option Value → Outcome}
    (hf : ∀ callback items callee?, (∀ i v args, Avoids EvalError.IsMisfit (callback i v args)) →
      Avoids EvalError.IsMisfit (f callback items callee?)) :
    (onArrayWithOption name f).PassesMisfits := by
  intro callback hcallback args
  exact .bind avoids_argument fun items => avoids_lift_iff.mpr (hf callback items _ hcallback)

theorem passesMisfits_indexOf : indexOf.PassesMisfits :=
  fun _ _ _ => .bind avoids_argument fun _ => .ok _

theorem passesMisfits_sublist : sublist.PassesMisfits :=
  fun callback _ args => avoids_sublistBody callback args

theorem passesMisfits_sublistUpTo : sublistUpTo.PassesMisfits :=
  fun callback _ args => avoids_sublistBody callback args

theorem passesMisfits_encode : encode.PassesMisfits :=
  fun _ hcallback _ => .bind avoids_argument fun _ => .bind avoids_argument fun _ =>
    .bind avoids_argument fun _ => avoids_encodeItems hcallback

theorem passesMisfits_onNumber (name : String) (f : Number → Number) :
    (onNumber name f).PassesMisfits :=
  fun _ _ _ => .bind avoids_argument fun _ => .ok _

theorem passesMisfits_modulo : modulo.PassesMisfits := by
  intro callback hcallback args
  refine .bind avoids_argument fun a => .bind avoids_argument fun b => ?_
  split
  · exact .error id
  · exact .bind avoids_remainder fun _ => .ok _

theorem passesMisfits_power : power.PassesMisfits :=
  fun _ _ _ => .bind avoids_argument fun _ => .bind avoids_argument fun _ => .ok _

theorem passesMisfits_extreme (name : String) (better : Float → Float → Bool) :
    (extreme name better).PassesMisfits :=
  passesMisfits_onArrayWithOption fun _ items callee? hcallback =>
    .bind (avoids_each (avoids_keyOf hcallback name callee?) 0 items) fun _ => .ok _

theorem passesMisfits_builtins : ∀ g ∈ builtins, g.PassesMisfits := by
  simp only [builtins, List.forall_mem_cons, List.not_mem_nil, false_imp_iff, implies_true,
    and_true]
  refine ⟨passesMisfits_asArray, passesMisfits_onObject _ _, passesMisfits_onObject _ _,
    passesMisfits_reverse, passesMisfits_containsString, passesMisfits_containsNumber,
    passesMisfits_onArray ?filter, passesMisfits_onArray ?map,
    passesMisfits_onArrayWithOption ?flatMap, passesMisfits_onArrayWithOption ?count,
    passesMisfits_onArray ?findFirst, passesMisfits_indexOf, passesMisfits_encode,
    passesMisfits_sublistUpTo, passesMisfits_sublist, passesMisfits_extreme _ _,
    passesMisfits_extreme _ _, passesMisfits_modulo, passesMisfits_onNumber _ _,
    passesMisfits_onNumber _ _, passesMisfits_onNumber _ _, passesMisfits_onNumber _ _,
    passesMisfits_power⟩
  case filter =>
    intro callback items callee hcallback
    exact .map (avoids_filterItems hcallback items callee)
  case map =>
    intro callback items callee hcallback
    exact .map (avoids_each (avoids_apply hcallback (some callee)) 0 items)
  case flatMap =>
    intro callback items callee? hcallback
    rw [splicedResults_eq]
    exact .map (.map (avoids_each (avoids_apply hcallback callee?) 0 items))
  case count =>
    intro callback items callee? hcallback
    cases callee? with
    | none => exact .ok _
    | some callee =>
      simp only [countItems_eq]
      exact .bind (.map (avoids_filterItems hcallback items callee)) fun _ => .ok _
  case findFirst =>
    intro callback items callee hcallback
    refine .bind (avoids_firstAccepted? hcallback callee 0 items) fun found => ?_
    cases found with
    | some v => exact .ok _
    | none => exact .error id

/-- On arguments that fit, the body itself fails with a misfit only if the callback does. -/
theorem avoids_body {g : CheckedOverload} (hg : g ∈ builtins) {args : List Value}
    (h : g.overload.signature.Fits args) (callback : Callback)
    (hcallback : ∀ i v args, Avoids EvalError.IsMisfit (callback i v args)) :
    Avoids EvalError.IsMisfit (g.overload.body callback args) := by
  rw [← avoids_lift_iff, ← faultless_builtins g hg args h callback]
  exact passesMisfits_builtins g hg callback hcallback args

end Checked

end Builtin

namespace Eval

open Builtin (Checked)
open Builtin.Checked (lift)

section

variable {level : Level} (hlevel : ∀ task, Avoids EvalError.IsMisfit (level.answer task))
include hlevel

theorem asks_answer (task : Task) :
    Asks EvalError.IsMisfit silent fun _ => level.answer task :=
  .const (hlevel task)

theorem Level.avoids_invoke (r : Registry) (here : Trail) (callable : Value) (args : List Value) :
    Avoids EvalError.IsMisfit (level.invoke r here callable args) :=
  asks_silent_iff.mp
    (Level.asks_invoke (asks_answer hlevel) EvalError.isForeign_of_isMisfit here callable args)

theorem Level.avoids_member (here : Trail) (target : Value) (name : String) :
    Avoids EvalError.IsMisfit (level.member here target name) := by
  have hcall : Avoids EvalError.IsMisfit (level.call here name [target] true) :=
    hlevel (.call here name [target] true)
  unfold Level.member
  split
  · split
    · exact .ok _
    · split
      · exact .ok _
      · exact .ok _
      · exact hcall
  · split
    · exact .error id
    · exact hcall

theorem Level.avoids_perform (task : Task) :
    Avoids EvalError.IsMisfit (level.perform .builtins task) := by
  cases task with
  | evaluate here e scope =>
    have hmember (target : Value) (name : String) :
        Asks EvalError.IsMisfit silent fun _ => level.member here target name :=
      .const (avoids_member hlevel here target name)
    exact asks_silent_iff.mp (asks_expression_of_member (asks_answer hlevel)
      EvalError.isForeign_of_isMisfit hmember scope e)
  | call here name args onTarget =>
    intro e h
    rcases bind_eq_error.mp h with h | ⟨⟨o, args'⟩, hresolve, h⟩
    · exact Registry.avoids_resolve _ _ _ _ e h
    · have hmem := Registry.mem_of_resolve hresolve
      rw [← Builtin.Checked.overloads_builtins] at hmem
      obtain ⟨g, hg, rfl⟩ := List.mem_map.mp hmem
      exact Builtin.Checked.avoids_body hg (Registry.fits_of_resolve hresolve) _
        (fun i => avoids_invoke hlevel _ (here.round i)) e h

end

theorem avoids_answer (limit depth : Nat) (task : Task) :
    Avoids EvalError.IsMisfit ((levelAt .builtins limit depth).answer task) := by
  induction depth generalizing task with
  | zero =>
    cases task with
    | evaluate here e scope => exact .error id
    | call here name args onTarget =>
      exact .bind (Registry.avoids_resolve _ _ _ _) fun _ => .error id
  | succ depth ih =>
    rw [answer_levelAt_succ]
    exact Level.avoids_perform ih task

/-- What a call resolves to fits the body of the function. No check in the body fails, whatever the
callback does, and checked it does the same. Its failures are never that the arguments do not fit,
if those of the callback are not, and what calls back at any level has no such failures. -/
theorem faultless_of_resolve :
    Checked.builtins.map (·.overload) = Registry.builtins.overloads ∧
    ∀ g ∈ Checked.builtins, ∀ (r : Registry) name args onTarget args',
      r.resolve name args onTarget = .ok (g.overload, args') →
      (∀ callback, (∀ fault, g.checked callback args' ≠ .error (.inl fault)) ∧
        g.checked callback args' = lift (g.overload.body callback args')) ∧
      (∀ callback, (∀ i v vs, Avoids EvalError.IsMisfit (callback i v vs)) →
        Avoids EvalError.IsMisfit (g.overload.body callback args')) ∧
      ∀ limit depth here,
        Avoids EvalError.IsMisfit (g.overload.body (callbackAt .builtins limit depth here) args') := by
  refine ⟨Checked.overloads_builtins, fun g hg r name args onTarget args' hresolve => ?_⟩
  have hfits := Registry.fits_of_resolve hresolve
  have hbody := Checked.avoids_body hg hfits
  refine ⟨fun callback => ?_, hbody, fun limit depth here => hbody _ fun i => ?_⟩
  · have hsame := Checked.faultless_builtins g hg args' hfits callback
    refine ⟨fun fault h => ?_, hsame⟩
    obtain ⟨e, -, he⟩ := mapError_eq_error.mp (hsame.symm.trans h)
    cases he
  · exact Level.avoids_invoke (avoids_answer limit depth) _ (here.round i)

theorem faultless_of_encode :
    Registry.builtins.resolve "encode"
        [.ofItems [.integer 1, .integer 2], .integer 16, echo] true =
      .ok (Builtin.encode, [.ofItems [.integer 1, .integer 2], .integer 16, echo]) ∧
    Checked.encode.checked (callbackAt .builtins 256 254 [])
        [.ofItems [.integer 1, .integer 2], .integer 16, echo] = .ok (.integer 33) := by
  have hresolve : Registry.builtins.resolve "encode"
      [.ofItems [.integer 1, .integer 2], .integer 16, echo] true =
        .ok (Builtin.encode, [.ofItems [.integer 1, .integer 2], .integer 16, echo]) := rfl
  have hfields : Builtin.each (Builtin.fieldOf (callbackAt .builtins 256 254 []) echo 16) 0
      [.integer 1, .integer 2] = .ok [1, 2] := rfl
  have hword : Int64.ofInt (Int.bmod (Builtin.packed 4 [1, 2]) (Nat.pow 2 32)) = 33 := by decide
  have hbody : Builtin.encode.body (callbackAt .builtins 256 254 [])
      [.ofItems [.integer 1, .integer 2], .integer 16, echo] = .ok (.integer 33) := by
    refine (Builtin.body_encode (k := 4) (s := .integer 16) (by decide) (by decide) rfl _ none _
      echo).trans ?_
    rw [← hword]
    exact congrArg (Except.map _) hfields
  have hencode : Checked.encode ∈ Checked.builtins := by simp [Checked.builtins]
  obtain ⟨hchecks, -⟩ := faultless_of_resolve.2 _ hencode _ _ _ _ _ hresolve
  exact ⟨hresolve, (hchecks _).2.trans (congrArg lift hbody)⟩

end Eval

end Stencil

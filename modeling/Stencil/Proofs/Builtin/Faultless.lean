import Mathlib.Data.List.Forall2
import Stencil.Proofs.Builtin.Checks
import Stencil.Proofs.Builtin.Encoding
import Stencil.Proofs.Eval.Arithmetic
import Stencil.Proofs.Eval.Resolution

/-!
# No faults

A call gets arguments of the kinds that its overload declares. On these no check of a checked body
fails, and it does what the body of the function does.
-/

namespace Stencil

/-- The arguments are of the declared kinds, and only an optional lambda is missing. -/
def Signature.Fits (s : Signature) (args : List Value) : Prop :=
  List.Forall₂ ParamKind.Holds s.params args ∨
    s.optionalLambda = true ∧ List.Forall₂ ParamKind.Holds s.params.dropLast args

theorem Signature.Fits.all {s : Signature} {args : List Value} (h : s.Fits args)
    (hs : s.optionalLambda = false) : List.Forall₂ ParamKind.Holds s.params args := by
  rcases h with h | ⟨hoptional, -⟩
  · exact h
  · cases hs.symm.trans hoptional

theorem Brought.holds {kinds : List ParamKind} {args args' : List Value}
    (h : Brought kinds args args') :
    List.Forall₂ ParamKind.Holds (kinds.take args'.length) args' := by
  induction args' generalizing kinds args with
  | nil => exact .nil
  | cons v' args' ih =>
    cases args with
    | nil => cases h.length_eq
    | cons v args =>
      obtain ⟨kind, _, hkind, hv', -, hholds, -⟩ := h.each 0 v rfl
      cases kinds with
      | nil => cases hkind
      | cons kind' kinds =>
        obtain rfl := Option.some.inj hkind
        obtain rfl := Option.some.inj hv'
        exact .cons hholds (ih (brought_cons_iff.mp h).2)

theorem Registry.fits_of_resolve {r : Registry} {name : String} {args args' : List Value}
    {onTarget : Bool} {o : Overload} (h : r.resolve name args onTarget = .ok (o, args')) :
    o.signature.Fits args' := by
  cases hbest : best? args (r.candidates name args.length onTarget) with
  | none => simp [resolve, hbest] at h
  | some o' =>
    obtain ⟨rfl, hbrought⟩ := ((resolve_of_selected hbest).2 o args').mp h
    have haccepts := (selects_of_best? hbest).candidate.accepts
    have hholds := hbrought.holds
    simp only [Signature.accepts, ← hbrought.length_eq, Bool.or_eq_true, decide_eq_true_eq,
      Bool.and_eq_true] at haccepts
    rcases haccepts with hlength | ⟨hoptional, hlength⟩
    · rw [hlength, List.take_length] at hholds
      exact .inl hholds
    · refine .inr ⟨hoptional, ?_⟩
      rwa [List.dropLast_eq_take, ← hlength]

namespace ParamKind.Holds

variable {v : Value}

theorem exists_array (h : array.Holds v) : ∃ node items, v = .array node items := by
  rcases h with h | h
  · cases h
  · cases v <;> cases h
    exact ⟨_, _, rfl⟩

theorem exists_object (h : object.Holds v) : ∃ node members, v = .object node members := by
  rcases h with h | h
  · cases h
  · cases v <;> cases h
    exact ⟨_, _, rfl⟩

theorem exists_string (h : string.Holds v) : ∃ s, v = .string s := by
  rcases h with h | h
  · cases h
  · cases v <;> cases h
    exact ⟨_, rfl⟩

theorem exists_number (h : number.Holds v) : ∃ n, v.number? = some n := by
  rcases h with h | h
  · cases h
  · cases v <;> cases h <;> exact ⟨_, rfl⟩

theorem isCallable (h : lambda.Holds v) : v.isCallable = true :=
  h.resolve_left nofun

end ParamKind.Holds

namespace Builtin

namespace Checked

theorem lift_ok {α : Type} (a : α) : lift (.ok a) = .ok a :=
  rfl

theorem check_then {α : Type} {c : Prop} [Decidable c] (h : c) (f : Fault) (a : α) :
    (do check c f; return a) = .ok a := by
  rw [check, if_pos h]
  rfl

end Checked

/-- Where the arguments fit, no check fails, and the checked body does the same. -/
def CheckedOverload.Faultless (g : CheckedOverload) : Prop :=
  ∀ args, g.overload.signature.Fits args → ∀ callback,
    g.checked callback args = Checked.lift (g.overload.body callback args)

namespace Checked

section

variable {α : Type} {kind : ParamKind} {read : Value → Option α} {function : String}
  {v w u : Value} {args : List Value} {a : α}

theorem argument_zero (h : read v = some a) :
    argument kind read function (v :: args) 0 = .ok a := by
  simp [argument, h]

theorem argument_one (h : read w = some a) :
    argument kind read function (v :: w :: args) 1 = .ok a := by
  simp [argument, h]

theorem argument_two (h : read u = some a) :
    argument kind read function (v :: w :: u :: args) 2 = .ok a := by
  simp [argument, h]

theorem callable?_eq (h : v.isCallable = true) : callable? v = some v :=
  if_pos h

end

theorem faultless_onObject (name : String) (f : Fields Value → List Value) :
    (onObject name f).Faultless := by
  intro args h callback
  match args, h.all rfl with
  | [v], .cons hv .nil =>
    obtain ⟨node, members, rfl⟩ := hv.exists_object
    rfl

theorem faultless_asArray : asArray.Faultless := by
  intro args h callback
  match args, h.all rfl with
  | [v, k, w], .cons hv (.cons hk (.cons hw .nil)) =>
    obtain ⟨node, members, rfl⟩ := hv.exists_object
    obtain ⟨key, rfl⟩ := hk.exists_string
    obtain ⟨value, rfl⟩ := hw.exists_string
    rfl

theorem faultless_reverse : reverse.Faultless := by
  intro args h callback
  match args, h.all rfl with
  | [v], .cons hv .nil =>
    obtain ⟨node, items, rfl⟩ := hv.exists_array
    rfl

theorem faultless_containsString : containsString.Faultless := by
  intro args h callback
  match args, h.all rfl with
  | [v, w], .cons hv (.cons hw .nil) =>
    obtain ⟨node, items, rfl⟩ := hv.exists_array
    obtain ⟨s, rfl⟩ := hw.exists_string
    rfl

theorem faultless_containsNumber : containsNumber.Faultless := by
  intro args h callback
  match args, h.all rfl with
  | [v, w], .cons hv (.cons hw .nil) =>
    obtain ⟨node, items, rfl⟩ := hv.exists_array
    obtain ⟨n, hn⟩ := hw.exists_number
    simp only [containsNumber, Builtin.containsNumber, argument_one hn, hn]
    rfl

theorem faultless_onArray (name : String) (f : Callback → List Value → Value → Outcome) :
    (onArray name f).Faultless := by
  intro args h callback
  match args, h.all rfl with
  | [v, p], .cons hv (.cons hp .nil) =>
    obtain ⟨node, items, rfl⟩ := hv.exists_array
    simp only [onArray, argument_one (callable?_eq hp.isCallable)]
    rfl

theorem faultless_onArrayWithOption (name : String)
    (f : Callback → List Value → Option Value → Outcome) :
    (onArrayWithOption name f).Faultless := by
  intro args h callback
  rcases h with h | ⟨-, h⟩
  · match args, h with
    | [v, p], .cons hv (.cons hp .nil) =>
      obtain ⟨node, items, rfl⟩ := hv.exists_array
      have hcallee : [Value.array node items, p][1]?.bind callable? = some p :=
        callable?_eq hp.isCallable
      simp only [onArrayWithOption, hcallee]
      rfl
  · match args, h with
    | [v], .cons hv .nil =>
      obtain ⟨node, items, rfl⟩ := hv.exists_array
      rfl

theorem faultless_indexOf : indexOf.Faultless := by
  intro args h callback
  match args, h.all rfl with
  | [v, w], .cons hv (.cons _ .nil) =>
    obtain ⟨node, items, rfl⟩ := hv.exists_array
    rfl

theorem faultless_onNumber (name : String) (f : Number → Number) : (onNumber name f).Faultless := by
  intro args h callback
  match args, h.all rfl with
  | [v], .cons hv .nil =>
    obtain ⟨n, hn⟩ := hv.exists_number
    simp only [onNumber, Builtin.onNumber, argument_zero hn, hn]
    rfl

theorem faultless_power : power.Faultless := by
  intro args h callback
  match args, h.all rfl with
  | [v, w], .cons hv (.cons hw .nil) =>
    obtain ⟨a, ha⟩ := hv.exists_number
    obtain ⟨b, hb⟩ := hw.exists_number
    simp only [power, Builtin.power, onNumbers, argument_zero ha, argument_one hb, ha, hb]
    rfl

theorem slice_of_le {items : List Value} {start stop : Nat} (h : start ≤ stop)
    (hstop : stop ≤ items.length) : slice items start stop = .ok ((items.take stop).drop start) :=
  check_then ⟨h, hstop⟩ _ _

/-- Between two places of an array, the first one in front, there is a slice. -/
theorem sublistOf_eq (items : List Value) (start : Int64) (stop? : Option Int64) :
    (do
      let first ← place items 0 start
      let stop ← match stop? with
        | some stop => place items start.toInt stop
        | none => pure items.length
      return .ofItems (← slice items first stop)) = lift (sublistOf items start stop?) := by
  by_cases hstart : start.toInt < 0 || (items.length : Int) ≤ start.toInt
  · rw [place, if_pos hstart, sublistOf.eq_def, if_pos hstart]
    rfl
  · rw [place, if_neg hstart, sublistOf.eq_def, if_neg hstart]
    simp only [Bool.or_eq_true, decide_eq_true_eq, not_or] at hstart
    cases stop? with
    | none =>
      change (slice items start.toInt.toNat items.length).map _ = _
      rw [slice_of_le (by omega) (by omega), List.take_length]
      rfl
    | some stop =>
      by_cases hstop : stop.toInt < start.toInt || (items.length : Int) ≤ stop.toInt
      · simp only [place, if_pos hstop]
        rfl
      · simp only [place, if_neg hstop]
        simp only [Bool.or_eq_true, decide_eq_true_eq, not_or] at hstop
        change (slice items start.toInt.toNat stop.toInt.toNat).map _ = _
        rw [slice_of_le (by omega) (by omega)]
        rfl

theorem faultless_sublist : sublist.Faultless := by
  intro args h callback
  match args, h.all rfl with
  | [v, w], .cons hv (.cons hw .nil) =>
    obtain ⟨node, items, rfl⟩ := hv.exists_array
    obtain ⟨start, hstart⟩ := hw.exists_number
    simp only [sublist, Builtin.sublist, sublistBody, argument_one hstart, hstart]
    exact sublistOf_eq items start.toInt64 none

theorem faultless_sublistUpTo : sublistUpTo.Faultless := by
  intro args h callback
  match args, h.all rfl with
  | [v, w, u], .cons hv (.cons hw (.cons hu .nil)) =>
    obtain ⟨node, items, rfl⟩ := hv.exists_array
    obtain ⟨start, hstart⟩ := hw.exists_number
    obtain ⟨stop, hstop⟩ := hu.exists_number
    simp only [sublistUpTo, Builtin.sublistUpTo, sublistBody, argument_one hstart,
      argument_two hstop, hstart, hstop]
    exact sublistOf_eq items start.toInt64 (some stop.toInt64)

theorem isZero_iff {b : Number} : isZero b = true ↔ b.toFloat == 0.0 := by
  cases b with
  | integer n => exact decide_eq_true_iff.trans Binary.ofInt_beq_zero_iff.symm
  | float x => exact Iff.rfl

theorem modulo?_of_isZero (a : Number) {b : Number} (h : isZero b = true) :
    Number.modulo? a b = none := by
  have hfloat := isZero_iff.mp h
  cases b with
  | integer n =>
    cases a with
    | integer m => exact if_pos (of_decide_eq_true h)
    | float x => exact if_pos hfloat
  | float y => cases a <;> exact if_pos hfloat

/-- What is not refused for a zero has a remainder. -/
theorem remainder_of_not_isZero (a : Number) {b : Number} (h : ¬ isZero b = true) :
    ∃ c, remainder a b = .ok c ∧ Number.modulo? a b = some c := by
  have hfloat := mt isZero_iff.mpr h
  cases b with
  | integer n =>
    cases a with
    | integer m =>
      have hn : ¬ n = 0 := fun hn => h (decide_eq_true hn)
      have hmod : int64? (m.toInt.tmod n.toInt) = some (m % n) :=
        int64?_eq_some_iff.mpr (Int64.toInt_mod m n)
      refine ⟨.integer (m % n), check_then hn _ _, ?_⟩
      rw [Number.modulo?, if_neg hn, hmod]
      rfl
    | float x => exact ⟨_, check_then hfloat _ _, if_neg hfloat⟩
  | float y => cases a <;> exact ⟨_, check_then hfloat _ _, if_neg hfloat⟩

theorem faultless_modulo : modulo.Faultless := by
  intro args h callback
  match args, h.all rfl with
  | [v, w], .cons hv (.cons hw .nil) =>
    obtain ⟨a, ha⟩ := hv.exists_number
    obtain ⟨b, hb⟩ := hw.exists_number
    simp only [modulo, Builtin.modulo, onNumbers, argument_zero ha, argument_one hb, ha, hb]
    by_cases hzero : isZero b = true
    · rw [modulo?_of_isZero a hzero]
      exact if_pos hzero
    · obtain ⟨c, hremainder, hmodulo⟩ := remainder_of_not_isZero a hzero
      rw [hmodulo]
      refine (if_neg hzero).trans ?_
      rw [hremainder]
      rfl

variable {callback : Callback} {callee : Value} {space : Int64} {width : Nat}

theorem lt_of_fieldOf {i n : Nat} {v : Value} (h : fieldOf callback callee space i v = .ok n) :
    (n : Int) < space.toInt := by
  rw [fieldOf] at h
  obtain ⟨result, -, h⟩ := bind_eq_ok.mp h
  split at h
  · cases h
  · dsimp only at h
    split at h
    · rename_i hrange
      simp only [Bool.and_eq_true, decide_eq_true_eq] at hrange
      obtain rfl := pure_eq_ok.mp h
      omega
    · cases h

theorem width_of_fieldWidth? (h : fieldWidth? space = some width) :
    0 < width ∧ space.toInt < 2 ^ 31 := by
  rw [fieldWidth?] at h
  obtain ⟨hspace, hwidth⟩ := Option.ite_none_right_eq_some.mp h
  obtain rfl := Option.some.inj hwidth
  simp only [Bool.and_eq_true, decide_eq_true_eq] at hspace
  obtain ⟨⟨hlow, hhigh⟩, -⟩ := hspace
  exact ⟨(Nat.le_log2 (by omega)).mpr (by omega), hhigh⟩

theorem narrowed_of_lt {n : Nat} (h : n < 2 ^ 31) : narrowed n = .ok (BitVec.ofNat 32 n) := by
  have hlossless : (BitVec.ofInt 32 n).toInt = n := by
    rw [BitVec.toInt_ofInt]
    exact Int.bmod_eq_of_le (by omega) (by omega)
  rw [narrowed, check_then hlossless, BitVec.ofInt_natCast]

theorem shifted_of_lt {word : BitVec 32} {amount : Nat} (h : amount < 32) :
    shifted word amount = .ok (word <<< amount) :=
  check_then h _ _

/-- A field is put at its place by a shift. -/
theorem ofNat_field (word : BitVec 32) (i n rest : Nat) :
    word + BitVec.ofNat 32 n <<< (i * width) + BitVec.ofNat 32 (2 ^ ((i + 1) * width) * rest) =
      word + BitVec.ofNat 32 (2 ^ (i * width) * (n + Nat.pow 2 width * rest)) := by
  have hshift : BitVec.ofNat 32 n <<< (i * width) = BitVec.ofNat 32 (2 ^ (i * width) * n) := by
    apply BitVec.eq_of_toNat_eq
    simp [Nat.shiftLeft_eq, Nat.mul_comm]
  rw [hshift, BitVec.add_assoc, ← BitVec.ofNat_add, Nat.mul_add, Nat.add_one_mul, Nat.pow_add,
    Nat.mul_assoc, Nat.pow_eq]

/-- Fields that there is room for are put into the word. -/
theorem fieldsFrom_eq (callback : Callback) (callee : Value) (hspace : space.toInt ≤ 2 ^ 31)
    (hwidth : 0 < width) {i : Nat} {vs : List Value} (hroom : (i + vs.length) * width ≤ 32)
    (word : BitVec 32) :
    fieldsFrom callback callee space width i word vs =
      lift ((each (fieldOf callback callee space) i vs).map fun ns =>
        word + BitVec.ofNat 32 (2 ^ (i * width) * packed width ns)) := by
  -- With room for all fields, the shift of the next one is less than 32, and room for the others
  -- is left behind it.
  induction vs generalizing i word with
  | nil => simp [fieldsFrom, each, packed, lift, Except.map, Except.mapError]
  | cons v vs ih =>
    have hrest : (i + 1 + vs.length) * width ≤ 32 := by
      rwa [List.length_cons, ← Nat.add_assoc, Nat.add_right_comm] at hroom
    have hshift : i * width < 32 := by
      have : (i + 1) * width ≤ (i + 1 + vs.length) * width :=
        Nat.mul_le_mul_right width (Nat.le_add_right _ _)
      rw [Nat.add_one_mul] at this
      omega
    rw [fieldsFrom, each]
    cases hfield : fieldOf callback callee space i v with
    | error e => rfl
    | ok n =>
      have hn : n < 2 ^ 31 := by
        have := lt_of_fieldOf hfield
        omega
      simp only [lift_ok, bind, Except.bind, narrowed_of_lt hn, shifted_of_lt hshift, ih hrest]
      cases each (fieldOf callback callee space) (i + 1) vs with
      | error e => rfl
      | ok ns =>
        simp only [pure, Except.pure, Except.map, lift_ok, packed, ofNat_field]

theorem encodeItems_eq (callback : Callback) (items : List Value) (space : Int64) (callee : Value) :
    encodeItems callback items space callee = lift (match fieldWidth? space with
      | some width => do
        let fields ← each (fieldOf callback callee space) 0 (items.take (32 / width))
        return .integer (Int64.ofInt (Int.bmod (packed width fields) (Nat.pow 2 32)))
      | none => .error (.argument "encode" (.notPowerOfTwo space))) := by
  rw [encodeItems]
  cases hfield : fieldWidth? space with
  | none => rfl
  | some width =>
    obtain ⟨hwidth, hspace⟩ := width_of_fieldWidth? hfield
    have hroom : (0 + (items.take (32 / width)).length) * width ≤ 32 := by
      rw [Nat.zero_add, List.length_take]
      exact le_trans (Nat.mul_le_mul_right width (Nat.min_le_left _ _))
        (Nat.div_mul_le_self 32 width)
    have hquotient : quotient 32 width = .ok (32 / width) := check_then (by omega) _ _
    dsimp only
    rw [hquotient]
    simp only [bind, Except.bind, fieldsFrom_eq callback callee (le_of_lt hspace) hwidth hroom 0#32]
    cases each (fieldOf callback callee space) 0 (items.take (32 / width)) with
    | error e => rfl
    | ok ns =>
      have hword : (BitVec.ofNat 32 (packed width ns)).toInt =
          Int.bmod (packed width ns) (Nat.pow 2 32) := BitVec.toInt_ofNat _
      simp only [Except.map, lift_ok, Nat.zero_mul, Nat.pow_zero, Nat.one_mul, BitVec.zero_add,
        hword]
      rfl

theorem faultless_encode : encode.Faultless := by
  intro args h callback
  match args, h.all rfl with
  | [v, w, p], .cons hv (.cons hw (.cons hp .nil)) =>
    obtain ⟨node, items, rfl⟩ := hv.exists_array
    obtain ⟨n, hn⟩ := hw.exists_number
    simp only [encode, Builtin.encode, argument_one hn,
      argument_two (callable?_eq hp.isCallable), hn]
    exact encodeItems_eq callback items n.toInt64 p

theorem faultless_builtins : ∀ g ∈ builtins, g.Faultless := by
  simp only [builtins, List.forall_mem_cons, List.not_mem_nil, false_imp_iff, implies_true,
    and_true]
  exact ⟨faultless_asArray, faultless_onObject _ _, faultless_onObject _ _, faultless_reverse,
    faultless_containsString, faultless_containsNumber, faultless_onArray _ _,
    faultless_onArray _ _, faultless_onArrayWithOption _ _, faultless_onArrayWithOption _ _,
    faultless_onArray _ _, faultless_indexOf, faultless_encode, faultless_sublistUpTo,
    faultless_sublist, faultless_onArrayWithOption _ _, faultless_onArrayWithOption _ _,
    faultless_modulo, faultless_onNumber _ _, faultless_onNumber _ _, faultless_onNumber _ _,
    faultless_onNumber _ _, faultless_power⟩

end Checked

end Builtin

end Stencil

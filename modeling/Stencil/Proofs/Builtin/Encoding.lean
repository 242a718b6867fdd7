import Mathlib.Algebra.Ring.Int.Defs
import Mathlib.Algebra.Ring.Nat
import Stencil.Proofs.Builtin.Callables

/-!
# Bit fields

Numbers below a power of two stand side by side in a word of 32 bits, so that each of them can be
read back from its own bits. What the fields hold is told by the results for as many elements as
there is room for. The elements behind these have no part in it.
-/

namespace Stencil

/-- The value is a number, or writes one, that is `n` without its fraction. -/
def Value.ComesTo (v : Value) (n : Int) : Prop :=
  ∃ a, v.number? = some a ∧ a.toInt64.toInt = n

namespace Builtin

/-- In fields of `k` bits a word holds the numbers `v 0` to `v (n - 1)`, and nothing above them. -/
def Packs (k n : Nat) (v : Nat → Nat) (word : BitVec 32) : Prop :=
  (∀ i < n, (word.extractLsb' (i * k) k).toNat = v i) ∧ ∀ j, n * k ≤ j → word.getLsbD j = false

variable {k n : Nat} {v : Nat → Nat}

theorem packed_lt {ns : List Nat} (h : ∀ n ∈ ns, n < 2 ^ k) :
    packed k ns < 2 ^ (ns.length * k) := by
  induction ns with
  | nil => exact Nat.two_pow_pos _
  | cons n ns ih =>
    obtain ⟨hn, hns⟩ := List.forall_mem_cons.mp h
    have hrest := ih hns
    calc n + 2 ^ k * packed k ns
        < 2 ^ k * (packed k ns + 1) := by rw [Nat.mul_add_one]; omega
      _ ≤ 2 ^ k * 2 ^ (ns.length * k) := Nat.mul_le_mul_left _ hrest
      _ = 2 ^ ((ns.length + 1) * k) := by rw [← Nat.pow_add, Nat.add_one_mul, Nat.add_comm]

theorem testBit_packed {ns : List Nat} (h : ∀ n ∈ ns, n < 2 ^ k) {i j : Nat} (hj : j < k) :
    (packed k ns).testBit (i * k + j) = (ns[i]?.getD 0).testBit j := by
  induction ns generalizing i with
  | nil => simp [packed]
  | cons n ns ih =>
    obtain ⟨hn, hns⟩ := List.forall_mem_cons.mp h
    rw [packed, Nat.add_comm, Nat.pow_eq, Nat.testBit_two_pow_mul_add _ hn]
    cases i with
    | zero =>
      rw [Nat.zero_mul, Nat.zero_add, if_pos hj]
      rfl
    | succ i =>
      have hbehind : (i + 1) * k + j - k = i * k + j := by
        rw [Nat.add_one_mul]
        omega
      have hnot : ¬ (i + 1) * k + j < k := by
        rw [Nat.add_one_mul]
        omega
      rw [if_neg hnot, hbehind, ih hns]
      rfl

/-- The numbers in front, each in a field of its own. -/
theorem packs_packed (hv : ∀ i < n, v i < 2 ^ k) (hroom : n * k ≤ 32) :
    Packs k n v (BitVec.ofNat 32 (packed k ((List.range n).map v))) := by
  have hfields : ∀ m ∈ (List.range n).map v, m < 2 ^ k := by
    simpa using hv
  have hlt := packed_lt hfields
  rw [List.length_map, List.length_range] at hlt
  refine ⟨fun i hi => ?_, fun j hj => ?_⟩
  · apply Nat.eq_of_testBit_eq
    intro j
    rw [BitVec.testBit_toNat, BitVec.getLsbD_extractLsb', BitVec.getLsbD_ofNat]
    by_cases hj : j < k
    · have hend : (i + 1) * k ≤ n * k := Nat.mul_le_mul_right k hi
      rw [Nat.add_one_mul] at hend
      have hword : i * k + j < 32 := by omega
      rw [testBit_packed hfields hj]
      simp [hj, hword, hi]
    · have hpow : 2 ^ k ≤ 2 ^ j := Nat.pow_le_pow_right (by decide) (Nat.not_lt.mp hj)
      have hhigh : v i < 2 ^ j := lt_of_lt_of_le (hv i hi) hpow
      simp [hj, Nat.testBit_lt_two_pow hhigh]
  · rw [BitVec.getLsbD_ofNat, Nat.testBit_lt_two_pow]
    · exact Bool.and_false _
    · exact lt_of_lt_of_le hlt (Nat.pow_le_pow_right (by decide) hj)

/-- The integer of a word is the one that its bits stand for with a sign. -/
theorem ofInt_bmod_eq_toInt (x : Nat) :
    (Int64.ofInt (Int.bmod x (Nat.pow 2 32))).toInt = (BitVec.ofNat 32 x).toInt := by
  have hword : Int.bmod x (Nat.pow 2 32) = (BitVec.ofNat 32 x).toInt := (BitVec.toInt_ofNat x).symm
  have hlow := (BitVec.ofNat 32 x).le_toInt
  have hhigh := (BitVec.ofNat 32 x).toInt_lt
  rw [hword]
  exact Int64.toInt_ofInt_of_le (by omega) (by omega)

section

variable {α : Type} {f g : Nat → Value → Except EvalError α} {i : Nat} {items : List Value}

theorem each_of_forall {a : Nat → α}
    (h : ∀ j u, items[j]? = some u → f (i + j) u = .ok (a (i + j))) :
    each f i items = .ok ((List.range' i items.length).map a) := by
  induction items generalizing i with
  | nil => rfl
  | cons u items ih =>
    have hrest : each f (i + 1) items = .ok ((List.range' (i + 1) items.length).map a) := by
      apply ih
      intro j w hw
      rw [Nat.add_right_comm]
      exact h (j + 1) w hw
    have hfirst : f i u = .ok (a i) := h 0 u rfl
    rw [each, hfirst, hrest]
    rfl

/-- A row fails if one element does. The failure is that of an element no further behind. -/
theorem exists_each_eq_error {P : EvalError → Prop} {j : Nat} {u : Value}
    (hu : items[j]? = some u) (hfail : ∀ a, f (i + j) u ≠ .ok a)
    (h : ∀ l w e, l ≤ j → items[l]? = some w → f (i + l) w = .error e → P e) :
    ∃ e, each f i items = .error e ∧ P e := by
  induction items generalizing i j with
  | nil => cases hu
  | cons w items ih =>
    rw [each]
    cases hw : f i w with
    | error e => exact ⟨e, rfl, h 0 w e (Nat.zero_le j) rfl hw⟩
    | ok a =>
      cases j with
      | zero =>
        obtain rfl := Option.some.inj hu
        exact absurd hw (hfail a)
      | succ j =>
        obtain ⟨e, he, hP⟩ := ih (i := i + 1) hu (by rwa [Nat.add_right_comm])
          (fun l w' e hl hw' he => h (l + 1) w' e (Nat.succ_le_succ hl) hw'
            (by rwa [Nat.add_right_comm] at he))
        refine ⟨e, ?_, hP⟩
        rw [he]
        rfl

theorem each_congr (h : ∀ j u, items[j]? = some u → f (i + j) u = g (i + j) u) :
    each f i items = each g i items := by
  induction items generalizing i with
  | nil => rfl
  | cons u items ih =>
    have hrest : each f (i + 1) items = each g (i + 1) items := by
      apply ih
      intro j w hw
      rw [Nat.add_right_comm]
      exact h (j + 1) w hw
    rw [each, each, hrest, show f i u = g i u from h 0 u rfl]

end

variable {callback : Callback} {p : Value} {space : Int64}

/-- A field takes the number that a result comes to, if there are bits for it. -/
theorem fieldOf_eq_ok_iff (hspace : space.toInt = 2 ^ k) {i : Nat} {u w : Value} {m : Nat}
    (hw : visit callback p (u, i) = .ok w) :
    fieldOf callback p space i u = .ok m ↔ w.ComesTo m ∧ m < 2 ^ k := by
  have happly : apply callback (some p) i u = .ok w := hw
  have hcast : space.toInt = ((2 ^ k : Nat) : Int) := by
    rw [hspace, Int.natCast_pow]
    rfl
  simp only [fieldOf, happly, bind, Except.bind, Value.ComesTo]
  cases w.number? with
  | none => simp
  | some n =>
    simp only [Option.some.injEq, exists_eq_left', hcast, Bool.and_eq_true, decide_eq_true_eq]
    split
    · rw [pure_eq_ok]
      omega
    · simp only [reduceCtorEq, false_iff]
      omega

/-- A result for which there is no field is refused. -/
theorem exists_fault_of_fieldOf {i : Nat} {u w : Value} {e : EvalError}
    (hw : visit callback p (u, i) = .ok w) (h : fieldOf callback p space i u = .error e) :
    ∃ fault, e = .functionFailed "encode" fault := by
  have happly : apply callback (some p) i u = .ok w := hw
  simp only [fieldOf, happly, bind, Except.bind] at h
  split at h
  · exact ⟨_, (Except.error.inj h).symm⟩
  · split at h
    · cases h
    · exact ⟨_, (Except.error.inj h).symm⟩

variable {room : Nat} {items : List Value}

theorem getElem?_take_eq_some_iff {i : Nat} {u : Value} :
    (items.take room)[i]? = some u ↔ i < room ∧ items[i]? = some u := by
  rw [List.getElem?_take, Option.ite_none_right_eq_some]

theorem each_fieldOf_of_results (hspace : space.toInt = 2 ^ k)
    (h : ∀ i u, i < room → items[i]? = some u → v i < 2 ^ k ∧
      ∃ w, visit callback p (u, i) = .ok w ∧ w.ComesTo (v i)) :
    each (fieldOf callback p space) 0 (items.take room) =
      .ok ((List.range (items.take room).length).map v) := by
  rw [List.range_eq_range']
  apply each_of_forall
  intro i u hu
  obtain ⟨hi, hu⟩ := getElem?_take_eq_some_iff.mp hu
  obtain ⟨hlt, w, hw, hcomes⟩ := h i u hi hu
  rw [Nat.zero_add]
  exact (fieldOf_eq_ok_iff hspace hw).mpr ⟨hcomes, hlt⟩

theorem exists_fault_of_result (hspace : space.toInt = 2 ^ k) {i : Nat} {u w : Value}
    (hi : i < room) (hu : items[i]? = some u) (hw : visit callback p (u, i) = .ok w)
    (hwide : ∀ n : Nat, w.ComesTo n → 2 ^ k ≤ n)
    (hbefore : ∀ j u', j < i → items[j]? = some u' →
      ∃ w', visit callback p (u', j) = .ok w') :
    ∃ fault, each (fieldOf callback p space) 0 (items.take room) =
      .error (.functionFailed "encode" fault) := by
  have hfail : ∀ n, fieldOf callback p space (0 + i) u ≠ .ok n := by
    intro n hn
    rw [Nat.zero_add, fieldOf_eq_ok_iff hspace hw] at hn
    exact Nat.not_le.mpr hn.2 (hwide n hn.1)
  have hfault : ∀ j u' e, j ≤ i → (items.take room)[j]? = some u' →
      fieldOf callback p space (0 + j) u' = .error e →
      ∃ fault, e = .functionFailed "encode" fault := by
    intro j u' e hj hu' he
    obtain ⟨-, hu'⟩ := getElem?_take_eq_some_iff.mp hu'
    rw [Nat.zero_add] at he
    rcases Nat.lt_or_eq_of_le hj with hlt | rfl
    · obtain ⟨w', hw'⟩ := hbefore j u' hlt hu'
      exact exists_fault_of_fieldOf hw' he
    · obtain rfl : u = u' := Option.some.inj (hu.symm.trans hu')
      exact exists_fault_of_fieldOf hw he
  obtain ⟨e, he, fault, rfl⟩ :=
    exists_each_eq_error (getElem?_take_eq_some_iff.mpr ⟨hi, hu⟩) hfail hfault
  exact ⟨fault, he⟩

theorem each_fieldOf_congr {callback' : Callback}
    (h : ∀ i u, i < room → items[i]? = some u →
      visit callback' p (u, i) = visit callback p (u, i)) :
    each (fieldOf callback' p space) 0 (items.take room) =
      each (fieldOf callback p space) 0 (items.take room) := by
  apply each_congr
  intro i u hu
  obtain ⟨hi, hu⟩ := getElem?_take_eq_some_iff.mp hu
  have happly : apply callback' (some p) i u = apply callback (some p) i u := h i u hi hu
  rw [Nat.zero_add, fieldOf, fieldOf, happly]

theorem fieldWidth?_of_pow (hk : 1 ≤ k) (hk' : k ≤ 30) (hspace : space.toInt = 2 ^ k) :
    fieldWidth? space = some k := by
  have hcast : space.toInt = ((2 ^ k : Nat) : Int) := by
    rw [hspace, Int.natCast_pow]
    rfl
  have hlow : 2 ^ 1 ≤ 2 ^ k := Nat.pow_le_pow_right (by decide) hk
  have hhigh : 2 ^ k ≤ 2 ^ 30 := Nat.pow_le_pow_right (by decide) hk'
  have hbound : Int.pow 2 31 = 2147483648 := rfl
  simp only [fieldWidth?, hcast, Int.toNat_natCast, Nat.log2_two_pow, hbound]
  rw [if_pos]
  simp only [Bool.and_eq_true, decide_eq_true_eq, Nat.pow_eq, and_true]
  omega

/-- The fields of the elements that there is room for, put into a word. -/
theorem body_encode {s : Number} (hk : 1 ≤ k) (hk' : k ≤ 30) (hs : s.toInt64.toInt = 2 ^ k)
    (callback : Callback) (node : Node) (items : List Value) (p : Value) :
    encode.body callback [.array node items, .ofNumber s, p] =
      (each (fieldOf callback p s.toInt64) 0 (items.take (32 / k))).map fun fields =>
        .integer (Int64.ofInt (Int.bmod (packed k fields) (Nat.pow 2 32))) := by
  have hnumber : (Value.ofNumber s).number? = some s := by cases s <;> rfl
  simp only [encode, hnumber, fieldWidth?_of_pow hk hk' hs]
  cases each (fieldOf callback p s.toInt64) 0 (items.take (32 / k)) <;> rfl

end Builtin

namespace Eval

open Builtin (visit Packs)

variable {limit depth : Nat} {here : Trail} {scope : Scope} {e : Expr} {onTarget : Bool}
  {node : Node} {items : List Value} {space p : Value} {k : Nat}

theorem resolve_encode {s : Number} (hspace : space.number? = some s) (hp : p.isCallable = true) :
    Registry.builtins.resolve "encode" [.array node items, space, p] onTarget =
      .ok (Builtin.encode, [.array node items, .ofNumber s, p]) := by
  have hlambda : ParamKind.lambda.coerce? p = some p := if_pos hp
  have hnumber : ParamKind.number.coerce? space = some (.ofNumber s) := by
    rw [ParamKind.coerce?, hspace]
    rfl
  have hcandidates : Registry.builtins.candidates "encode" 3 onTarget = [Builtin.encode] := by
    cases onTarget <;> rfl
  apply Registry.resolve_of_candidate hcandidates
  have hparams : Builtin.encode.signature.params = [.array, .number, .lambda] := rfl
  rw [hparams]
  simp only [Registry.coerceAll, hlambda, hnumber]
  rfl

/-- The value is an integer of 32 bits whose fields hold the results for as many elements as there
is room for. If one of these results has no field, the call fails. The callable is asked for no
other element: one that differs from it in those only makes the same value. -/
theorem evaluate_encode (hk : 1 ≤ k) (hk' : k ≤ 30) (hspace : space.ComesTo (2 ^ k))
    (hp : p.isCallable = true)
    (h : Applies (levelAt .builtins limit (depth + 1)) here scope "encode" e
      [.array node items, space, p] onTarget) :
    (∀ v : Nat → Nat,
      (∀ i u, i < 32 / k → items[i]? = some u → v i < 2 ^ k ∧
        ∃ w, visit (callbackAt .builtins limit depth here) p (u, i) = .ok w ∧ w.ComesTo (v i)) →
      ∃ m : Int64, evaluate .builtins limit (depth + 2) here e scope = .ok (.integer m) ∧
        -2 ^ 31 ≤ m.toInt ∧ m.toInt < 2 ^ 31 ∧
        Packs k (min items.length (32 / k)) v (BitVec.ofInt 32 m.toInt)) ∧
      (∀ i u w, i < 32 / k → items[i]? = some u →
        visit (callbackAt .builtins limit depth here) p (u, i) = .ok w →
        (∀ n : Nat, w.ComesTo n → 2 ^ k ≤ n) →
        (∀ j u', j < i → items[j]? = some u' →
          ∃ w', visit (callbackAt .builtins limit depth here) p (u', j) = .ok w') →
        ∃ fault, evaluate .builtins limit (depth + 2) here e scope =
          .error (.functionFailed "encode" fault)) ∧
      ∃ args, Registry.builtins.resolve "encode" [.array node items, space, p] onTarget =
          .ok (Builtin.encode, args) ∧
        ∀ callback : Callback,
          (∀ i u, i < 32 / k → items[i]? = some u →
            visit callback p (u, i) = visit (callbackAt .builtins limit depth here) p (u, i)) →
          Builtin.encode.body callback args =
            evaluate .builtins limit (depth + 2) here e scope := by
  obtain ⟨s, hnumber, hs⟩ := hspace
  have hresolve : Registry.builtins.resolve "encode" [.array node items, space, p] onTarget =
      .ok (Builtin.encode, _) := resolve_encode hnumber hp
  have hbody (callback : Callback) := Builtin.body_encode hk hk' hs callback node items p
  rw [h.evaluate_eq_body hresolve, hbody]
  refine ⟨fun v hv => ?_, fun i u w hi hu hw hwide hbefore => ?_,
    _, hresolve, fun callback hsame => ?_⟩
  · have hlength : (items.take (32 / k)).length = min items.length (32 / k) := by
      rw [List.length_take, Nat.min_comm]
    have hlt : ∀ i < min items.length (32 / k), v i < 2 ^ k := by
      intro i hi
      rw [Nat.lt_min] at hi
      exact (hv i _ hi.2 (List.getElem?_eq_getElem hi.1)).1
    have hfit : min items.length (32 / k) * k ≤ 32 :=
      le_trans (Nat.mul_le_mul_right k (Nat.min_le_right _ _)) (Nat.div_mul_le_self 32 k)
    rw [Builtin.each_fieldOf_of_results hs hv, hlength]
    refine ⟨_, rfl, ?_⟩
    rw [Builtin.ofInt_bmod_eq_toInt, BitVec.ofInt_toInt]
    exact ⟨BitVec.le_toInt _, BitVec.toInt_lt, Builtin.packs_packed hlt hfit⟩
  · obtain ⟨fault, hfault⟩ := Builtin.exists_fault_of_result hs hi hu hw hwide hbefore
    rw [hfault]
    exact ⟨fault, rfl⟩
  · rw [hbody, Builtin.each_fieldOf_congr hsame]

/-- The lambda `x => x`. -/
def echo : Value :=
  .lambda [.part 2] ["x"] (.name "x") []

def halfWord : Nat → Nat
  | 0 => 5
  | _ => 65535

/-- Two numbers of 16 bits, and a text for which there is no room. -/
def halfWords : List Expr :=
  [.integer 5, .integer 65535, .string "x"]

theorem evaluate_encode_of_halfWords :
    (Value.integer 65536).ComesTo (2 ^ 16) ∧ echo.isCallable = true ∧
      Applies (levelAt .builtins 256 255) [] [] "encode"
        (.call (some (.array halfWords)) "encode" [.integer 65536, .lambda ["x"] (.name "x")])
        [.ofItems [.integer 5, .integer 65535, .string "x"], .integer 65536, echo] true ∧
      (∀ i u, i < 32 / 16 →
        [Value.integer 5, .integer 65535, .string "x"][i]? = some u → halfWord i < 2 ^ 16 ∧
          ∃ w, visit (callbackAt .builtins 256 254 []) echo (u, i) = .ok w ∧
            w.ComesTo (halfWord i)) ∧
      evaluate .builtins 256 256 [] (.call (some (.array halfWords)) "encode"
        [.integer 65536, .lambda ["x"] (.name "x")]) [] = .ok (.integer (-65531)) := by
  have hspace : (Value.integer 65536).ComesTo (2 ^ 16) := ⟨_, rfl, rfl⟩
  have happlies : Applies (levelAt .builtins 256 255) [] [] "encode"
      (.call (some (.array halfWords)) "encode" [.integer 65536, .lambda ["x"] (.name "x")])
      [.ofItems [.integer 5, .integer 65535, .string "x"], .integer 65536, echo] true :=
    .behind rfl rfl rfl
  have hresults : ∀ i u, i < 32 / 16 →
      [Value.integer 5, .integer 65535, .string "x"][i]? = some u → halfWord i < 2 ^ 16 ∧
        ∃ w, visit (callbackAt .builtins 256 254 []) echo (u, i) = .ok w ∧
          w.ComesTo (halfWord i) := by
    intro i u hi hu
    match i, hi with
    | 0, _ =>
      obtain rfl := Option.some.inj hu
      exact ⟨by decide, _, rfl, _, rfl, rfl⟩
    | 1, _ =>
      obtain rfl := Option.some.inj hu
      exact ⟨by decide, _, rfl, _, rfl, rfl⟩
  obtain ⟨hencode, -⟩ := evaluate_encode (by decide) (by decide) hspace rfl happlies
  obtain ⟨m, hvalue, hlow, hhigh, hfields, -⟩ := hencode _ hresults
  have hfirst := hfields 0 (by decide)
  have hsecond := hfields 1 (by decide)
  simp only [BitVec.extractLsb'_toNat, BitVec.toNat_ofInt, Nat.shiftRight_eq_div_pow, halfWord]
    at hfirst hsecond
  obtain rfl : m = -65531 := by
    apply Int64.toInt_inj.mp
    change m.toInt = -65531
    omega
  exact ⟨hspace, rfl, happlies, hresults, hvalue⟩

end Eval

end Stencil

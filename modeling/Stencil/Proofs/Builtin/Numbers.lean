import Stencil.Proofs.Eval.Applications
import Stencil.Proofs.Eval.Arithmetic
import Stencil.Proofs.Number.Rounding

/-!
# Functions on numbers

A float is rounded to the integer for the whole number next to it, and to a float if there is no
such integer; only the number behind the greatest integer is taken for that one. On integers the
functions are those of mathematics, as far as the results fit. The one exception is a power with an
exponent of more than 32 bits, which is a float also where it fits.
-/

namespace Stencil

/-- The name of the function that rounds in this way. -/
def Rounding.functionName : Rounding → String
  | down => "floor"
  | up => "ceil"
  | nearest => "round"

theorem Value.number?_ofNumber (n : Number) : (ofNumber n).number? = some n := by
  cases n <;> rfl

theorem ParamKind.coerce?_ofNumber (n : Number) :
    number.coerce? (.ofNumber n) = some (.ofNumber n) := by
  cases n <;> rfl

namespace Number

theorem getD_eq_integer_iff {found : Option Int64} {x : Float} {n : Int64} :
    (found.map integer).getD (float x) = integer n ↔ found = some n := by
  cases found <;> simp

theorem abs_eq_integer_iff {m n : Int64} :
    (integer m).abs = integer n ↔ n.toInt = m.toInt.natAbs := by
  rw [abs, getD_eq_integer_iff, int64?_eq_some_iff]

/-- A remainder is smaller than the divisor, so that it fits. -/
theorem modulo?_integers {a b : Int64} (hb : b ≠ 0) :
    ∃ n, (integer a).modulo? (integer b) = some (integer n) ∧ n.toInt = a.toInt.tmod b.toInt := by
  have hne : b.toInt ≠ 0 := fun h => hb (Int64.toInt_inj.mp h)
  have hle := b.le_toInt
  have hlt := b.toInt_lt
  have hsmall : (a.toInt.tmod b.toInt).natAbs < b.toInt.natAbs := by
    rw [Int.natAbs_tmod]
    exact Nat.mod_lt _ (by omega)
  rw [modulo?, if_neg hb]
  cases hfound : int64? (a.toInt.tmod b.toInt) with
  | none =>
    rw [int64?_eq_none_iff] at hfound
    omega
  | some n => exact ⟨n, rfl, int64?_eq_some_iff.mp hfound⟩

/-- The powers of 0, 1 and -1 depend on whether the exponent is odd. -/
theorem pow_of_natAbs_le_one {b : Int} {e : Nat} (hb : b.natAbs ≤ 1) (he : e ≠ 0) :
    b ^ e = b ^ (2 - e % 2) := by
  obtain rfl | rfl | rfl : b = 0 ∨ b = 1 ∨ b = -1 := by omega
  · rw [zero_pow he, zero_pow (by omega)]
  · rw [one_pow, one_pow]
  · rcases Nat.mod_two_eq_zero_or_one e with h | h
    · rw [h, (Nat.even_iff.mpr h).neg_one_pow]
      rfl
    · rw [h, (Nat.odd_iff.mpr h).neg_one_pow]
      rfl

theorem int64?_pow_eq_none {b : Int} {e : Nat} (hb : 2 ≤ b.natAbs) (he : 64 ≤ e) :
    int64? (b ^ e) = none := by
  have hle : 2 ^ 64 ≤ (b ^ e).natAbs := by
    rw [Int.natAbs_pow]
    calc 2 ^ 64 ≤ 2 ^ e := Nat.pow_le_pow_right two_pos he
      _ ≤ b.natAbs ^ e := Nat.pow_le_pow_left hb e
  rw [int64?_eq_none_iff]
  omega

/-- Below the 32nd bit of the exponent, the powers that fit are found. -/
theorem integerPower?_eq {b e : Int} (he : 0 ≤ e) (hlt : e < 2 ^ 32) :
    integerPower? b e = int64? (b ^ e.toNat) := by
  have hnarrow : ¬ (e < 0 ∨ Int.pow 2 32 ≤ e) := by
    simp only [Int.pow_eq]
    omega
  rw [integerPower?, if_neg hnarrow]
  split_ifs with hunit hzero hlarge
  · rw [hzero]
    rfl
  · obtain ⟨k, rfl⟩ := Int.eq_ofNat_of_zero_le he
    rw [Int.toNat_natCast, pow_of_natAbs_le_one hunit (by omega)]
    rfl
  · exact (int64?_pow_eq_none (by omega) (by omega)).symm
  · rfl

theorem integerPower?_eq_none {b e : Int} (h : 2 ^ 32 ≤ e) : integerPower? b e = none := by
  rw [integerPower?, if_pos]
  simp only [Int.pow_eq]
  omega

theorem pow_eq_integer_iff {b e n : Int64} (he : 0 ≤ e.toInt) :
    (integer b).pow (integer e) = integer n ↔
      n.toInt = b.toInt ^ e.toInt.toNat ∧ e.toInt < 2 ^ 32 := by
  rw [pow, getD_eq_integer_iff]
  by_cases hlt : e.toInt < 2 ^ 32
  · rw [and_iff_left hlt, integerPower?_eq he hlt, int64?_eq_some_iff]
  · refine iff_of_false ?_ fun h => hlt h.2
    rw [integerPower?_eq_none (by omega)]
    exact nofun

end Number

namespace Eval

open Builtin (onNumber onNumbers modulo power)

variable {limit depth : Nat} {here : Trail} {scope : Scope} {e : Expr} {onTarget : Bool}

/-- The value of a call of a function on one number. -/
theorem evaluate_onNumber {name : String} {f : Number → Number} {n : Number}
    (hcandidates : ∀ onTarget, Registry.builtins.candidates name 1 onTarget = [onNumber name f])
    (h : Applies (levelAt .builtins limit (depth + 1)) here scope name e [.ofNumber n] onTarget) :
    evaluate .builtins limit (depth + 2) here e scope = .ok (.ofNumber (f n)) := by
  have hargs : Registry.coerceAll (onNumber name f).signature 1 [.number] [.ofNumber n] =
      .ok [.ofNumber n] := by
    simp only [Registry.coerceAll, ParamKind.coerce?_ofNumber]
    rfl
  rw [h.evaluate_eq_body (Registry.resolve_of_candidate (hcandidates onTarget) hargs)]
  simp only [onNumber, Value.number?_ofNumber]

/-- The value of a call of a function on two numbers. -/
theorem evaluate_onNumbers {s : Signature} {f : Number → Number → Outcome} {m n : Number}
    (hparams : s.params = [.number, .number])
    (hcandidates : Registry.builtins.candidates s.name 2 onTarget = [onNumbers s f])
    (h : Applies (levelAt .builtins limit (depth + 1)) here scope s.name e
      [.ofNumber m, .ofNumber n] onTarget) :
    evaluate .builtins limit (depth + 2) here e scope = f m n := by
  have hargs : Registry.coerceAll (onNumbers s f).signature 1 (onNumbers s f).signature.params
      [.ofNumber m, .ofNumber n] = .ok [.ofNumber m, .ofNumber n] := by
    simp only [onNumbers, hparams, Registry.coerceAll, ParamKind.coerce?_ofNumber]
    rfl
  rw [h.evaluate_eq_body (Registry.resolve_of_candidate hcandidates hargs)]
  simp only [onNumbers, Value.number?_ofNumber]

theorem candidates_rounding (r : Rounding) (onTarget : Bool) :
    Registry.builtins.candidates r.functionName 1 onTarget =
      [onNumber r.functionName (Number.rounded r)] := by
  cases r <;> cases onTarget <;> rfl

/-- A float is rounded to the whole number that it stands for under the rounding, unless that is
the first one behind the integers. -/
theorem evaluate_rounding (r : Rounding) {x : Float} (hx : x.isFinite)
    (h : Applies (levelAt .builtins limit (depth + 1)) here scope r.functionName e [.float x]
      onTarget) :
    ∃ n : Number, evaluate .builtins limit (depth + 2) here e scope = .ok (.ofNumber n) ∧
      (n.IsWhole (r.exact (Binary.valueOf x)) ↔ r.exact (Binary.valueOf x) ≠ 2 ^ 63) ∧
      (r.exact (Binary.valueOf x) = 2 ^ 63 → n = .integer Int64.maxValue) := by
  refine ⟨_, evaluate_onNumber (n := .float x) (candidates_rounding r) h, ?_⟩
  have hrounded := Number.rounded_float r hx
  split at hrounded
  · rename_i hend
    have hnot : ¬ (Number.integer Int64.maxValue).IsWhole (2 ^ 63) := by
      rw [Number.IsWhole, Int64.toInt_maxValue]
      decide
    rw [hrounded, hend]
    exact ⟨iff_of_false hnot (fun h => h rfl), fun _ => rfl⟩
  · rename_i hend
    exact ⟨iff_of_true hrounded hend, fun h => absurd h hend⟩

/-- The float behind the integers is a whole number, and `floor` takes the greatest integer for
it. -/
theorem evaluate_rounding_behind_integers :
    (9223372036854775808.0 : Float).isFinite ∧
      Applies (levelAt .builtins 256 255) [] [] Rounding.down.functionName
        (.call none "floor" [.float 9223372036854775808.0]) [.float 9223372036854775808.0] false ∧
      Rounding.down.exact (Binary.valueOf 9223372036854775808.0) = 2 ^ 63 ∧
      evaluate .builtins 256 256 [] (.call none "floor" [.float 9223372036854775808.0]) [] =
        .ok (.integer Int64.maxValue) := by
  have hfinite : (9223372036854775808.0 : Float).isFinite := by decide
  have happlies : Applies (levelAt .builtins 256 255) [] [] Rounding.down.functionName
      (.call none "floor" [.float 9223372036854775808.0]) [.float 9223372036854775808.0] false :=
    .named (by simp [Scope.get?]) rfl
  have hparts : Binary.ofFloat? 9223372036854775808.0 = some ⟨false, 2 ^ 52, 11⟩ := by decide
  have hvalue : Binary.valueOf 9223372036854775808.0 = (2 ^ 63 : ℤ) := by
    rw [Binary.valueOf_of_ofFloat? hparts]
    norm_num [Binary.value, Binary.magnitude]
  have hexact : Rounding.down.exact (Binary.valueOf 9223372036854775808.0) = 2 ^ 63 := by
    rw [hvalue, Rounding.exact_intCast]
  obtain ⟨n, hn, -, hend⟩ := evaluate_rounding .down hfinite happlies
  rw [hend hexact] at hn
  exact ⟨hfinite, happlies, hexact, hn⟩

/-- What the functions mean on integers. A remainder has the sign of the dividend. -/
inductive Means : (name : String) → List Int64 → Int → Prop
  | remainder {a b : Int64} : b ≠ 0 → Means "mod" [a, b] (a.toInt.tmod b.toInt)
  | magnitude {n : Int64} : Means "abs" [n] n.toInt.natAbs
  | whole (r : Rounding) {n : Int64} : Means r.functionName [n] n.toInt
  | power {b e : Int64} : 0 ≤ e.toInt → Means "pow" [b, e] (b.toInt ^ e.toInt.toNat)

/-- A power with an exponent of more than 32 bits. -/
def WidePower (name : String) (args : List Int64) : Prop :=
  name = "pow" ∧ ∃ b e : Int64, args = [b, e] ∧ 2 ^ 32 ≤ e.toInt

theorem not_widePower_of_ne {name : String} (h : name ≠ "pow") (args : List Int64) :
    ¬ WidePower name args :=
  fun hwide => h hwide.1

theorem widePower_pow_iff {b e : Int64} : WidePower "pow" [b, e] ↔ ¬ e.toInt < 2 ^ 32 := by
  rw [not_lt]
  constructor
  · rintro ⟨-, _, _, ⟨⟩, h⟩
    exact h
  · exact fun h => ⟨rfl, b, e, rfl, h⟩

/-- The value of a call on integers is the integer that the function means, if it fits, and a float
if not; and a float is the value of any power with an exponent of more than 32 bits. -/
theorem evaluate_on_integers {name : String} {args : List Int64} {result : Int}
    (hmeans : Means name args result) (htarget : name = "mod" → onTarget = false)
    (h : Applies (levelAt .builtins limit (depth + 1)) here scope name e
      (args.map Value.integer) onTarget) :
    ∃ v : Number, evaluate .builtins limit (depth + 2) here e scope = .ok (.ofNumber v) ∧
      ∀ n, v = .integer n ↔ n.toInt = result ∧ ¬ WidePower name args := by
  cases hmeans with
  | @remainder a b hb =>
    obtain rfl := htarget rfl
    obtain ⟨m, hfound, hm⟩ := Number.modulo?_integers (a := a) hb
    have hcandidates : Registry.builtins.candidates "mod" 2 false = [modulo] := rfl
    have hvalue := evaluate_onNumbers (s := modulo.signature) (m := .integer a)
      (n := .integer b) rfl hcandidates h
    rw [hfound] at hvalue
    refine ⟨.integer m, hvalue, fun n => ?_⟩
    rw [and_iff_left (not_widePower_of_ne (by decide) _), ← hm, Number.integer.injEq,
      Int64.toInt_inj, eq_comm]
  | @magnitude m =>
    have hvalue := evaluate_onNumber (n := .integer m) (f := Number.abs)
      (fun onTarget => by cases onTarget <;> rfl) h
    refine ⟨_, hvalue, fun n => ?_⟩
    rw [and_iff_left (not_widePower_of_ne (by decide) _), Number.abs_eq_integer_iff]
  | @whole r m =>
    have hname : r.functionName ≠ "pow" := by cases r <;> decide
    have hvalue := evaluate_onNumber (n := .integer m) (candidates_rounding r) h
    refine ⟨_, hvalue, fun n => ?_⟩
    rw [and_iff_left (not_widePower_of_ne hname _), Number.rounded, Number.integer.injEq,
      Int64.toInt_inj, eq_comm]
  | @power b k hk =>
    have hcandidates : Registry.builtins.candidates "pow" 2 onTarget = [power] := by
      cases onTarget <;> rfl
    have hvalue := evaluate_onNumbers (s := power.signature) (m := .integer b)
      (n := .integer k) rfl hcandidates h
    refine ⟨(Number.integer b).pow (.integer k), hvalue, fun n => ?_⟩
    rw [Number.pow_eq_integer_iff hk, widePower_pow_iff, not_not]

theorem evaluate_on_integers_of_wide_power :
    Means "pow" [1, 4294967296] 1 ∧
      Applies (levelAt .builtins 256 255) [] [] "pow"
        (.call none "pow" [.integer 1, .integer 4294967296])
        (List.map Value.integer [1, 4294967296]) false ∧
      ∃ x, evaluate .builtins 256 256 [] (.call none "pow" [.integer 1, .integer 4294967296]) [] =
        .ok (.float x) := by
  have hmeans : Means "pow" [1, 4294967296] 1 := by
    have hpower := Means.power (b := 1) (e := 4294967296) (by decide)
    rwa [Int64.toInt_one, one_pow] at hpower
  have happlies : Applies (levelAt .builtins 256 255) [] [] "pow"
      (.call none "pow" [.integer 1, .integer 4294967296])
      (List.map Value.integer [1, 4294967296]) false :=
    .named (by simp [Scope.get?]) rfl
  obtain ⟨v, hv, hinteger⟩ := evaluate_on_integers hmeans (by decide) happlies
  refine ⟨hmeans, happlies, ?_⟩
  cases v with
  | integer n =>
    have hnarrow := ((hinteger n).mp rfl).2
    rw [widePower_pow_iff, not_not] at hnarrow
    exact absurd hnarrow (by decide)
  | float x => exact ⟨x, hv⟩

end Eval

end Stencil

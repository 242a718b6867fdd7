import Stencil.Builtin

/-!
# Checked bodies

What the body of a built-in function takes for granted is checked here where it does so: that an
argument is there and of its kind, that a slice lies within its array, that a number fits into the
word it is put in and is shifted by less than the word is wide, and that no divisor is zero. A check
that fails is a fault, which is not among the failures of evaluation.
-/

namespace Stencil

namespace Builtin

/-- What a check finds. -/
inductive Fault where
  /-- The argument at this position, counted from one, is missing or not of its kind. -/
  | argument (function : String) (position : Nat) (kind : ParamKind)
  | slice (start stop length : Nat)
  | narrowing (n : Int)
  | shift (amount : Nat)
  | zeroDivisor

/-- A computation that a check can end, or a failure. -/
abbrev Checked (α : Type) := Except (Fault ⊕ EvalError) α

namespace Checked

/-- A computation without checks. -/
def lift {α : Type} (x : Except EvalError α) : Checked α :=
  x.mapError .inr

def check (c : Prop) [Decidable c] (f : Fault) : Checked Unit :=
  if c then .ok () else .error (.inl f)

def items? : Value → Option (List Value)
  | .array _ items => some items
  | _ => none

def members? : Value → Option (Fields Value)
  | .object _ members => some members
  | _ => none

def string? : Value → Option String
  | .string s => some s
  | _ => none

def callable? (v : Value) : Option Value :=
  if v.isCallable then some v else none

/-- What is read from the argument at the place `i`, which must be of this kind. -/
def argument {α : Type} (kind : ParamKind) (read : Value → Option α) (function : String)
    (args : List Value) (i : Nat) : Checked α :=
  match args[i]?.bind read with
  | some a => .ok a
  | none => .error (.inl (.argument function (i + 1) kind))

def slice (items : List Value) (start stop : Nat) : Checked (List Value) := do
  check (start ≤ stop ∧ stop ≤ items.length) (.slice start stop items.length)
  return (items.take stop).drop start

/-- The number in 32 bits, which must not change it. -/
def narrowed (n : Int) : Checked (BitVec 32) := do
  check ((BitVec.ofInt 32 n).toInt = n) (.narrowing n)
  return BitVec.ofInt 32 n

def shifted (word : BitVec 32) (amount : Nat) : Checked (BitVec 32) := do
  check (amount < 32) (.shift amount)
  return word <<< amount

def quotient (a b : Nat) : Checked Nat := do
  check (b ≠ 0) .zeroDivisor
  return a / b

def remainder (a b : Number) : Checked Number :=
  match a, b with
  | .integer m, .integer n => do
    check (n ≠ 0) .zeroDivisor
    return .integer (m % n)
  | a, b => do
    check (¬ b.toFloat == 0.0) .zeroDivisor
    return .float (Binary.remainder a.toFloat b.toFloat)

end Checked

/-- A function, and its body with checks. -/
structure CheckedOverload where
  overload : Overload
  checked : Callback → List Value → Checked Value

namespace Checked

def onObject (name : String) (f : Fields Value → List Value) : CheckedOverload where
  overload := Builtin.onObject name f
  checked _ args := do
    let members ← argument .object members? name args 0
    return .ofItems (f members)

def asArray : CheckedOverload where
  overload := Builtin.asArray
  checked _ args := do
    let members ← argument .object members? "asArray" args 0
    let key ← argument .string string? "asArray" args 1
    let value ← argument .string string? "asArray" args 2
    return .ofItems (members.map fun (name, v) =>
      .ofMembers (Fields.ofList [(key, .string name), (value, v)]))

def reverse : CheckedOverload where
  overload := Builtin.reverse
  checked _ args := do
    let items ← argument .array items? "reverse" args 0
    return .ofItems items.reverse

def containsString : CheckedOverload where
  overload := Builtin.containsString
  checked _ args := do
    let items ← argument .array items? "contains" args 0
    let s ← argument .string string? "contains" args 1
    return .boolean (items.any fun
      | .string t => t = s
      | _ => false)

def containsNumber : CheckedOverload where
  overload := Builtin.containsNumber
  checked _ args := do
    let items ← argument .array items? "contains" args 0
    let n ← argument .number Value.number? "contains" args 1
    return .boolean (items.any fun
      | .integer m => Binary.ofInt m.toInt == n.toFloat
      | .float x => x == n.toFloat
      | _ => false)

/-- The callable must be there: without it the items would stand for the results. -/
def onArray (name : String) (f : Callback → List Value → Value → Outcome) : CheckedOverload where
  overload := Builtin.onArray name f
  checked callback args := do
    let items ← argument .array items? name args 0
    let callee ← argument .lambda callable? name args 1
    lift (f callback items callee)

def onArrayWithOption (name : String) (f : Callback → List Value → Option Value → Outcome) :
    CheckedOverload where
  overload := Builtin.onArrayWithOption name f
  checked callback args := do
    let items ← argument .array items? name args 0
    lift (f callback items (args[1]?.bind callable?))

/-- The text of an argument that is missing is empty. -/
def indexOf : CheckedOverload where
  overload := Builtin.indexOf
  checked _ args := do
    let items ← argument .array items? "indexOf" args 0
    let text := (args[1]?.map (·.text)).getD ""
    return .integer (match items.findIdx? (·.text = text) with
      | some i => Int64.ofNat i
      | none => -1)

/-- A place of the array, from `least` on. -/
def place (items : List Value) (least : Int) (i : Int64) : Checked Nat :=
  if i.toInt < least || (items.length : Int) ≤ i.toInt then
    .error (.inr (.indexOutOfRange i items.length))
  else .ok i.toInt.toNat

/-- With two numbers or with one. -/
def sublistBody (_ : Callback) (args : List Value) : Checked Value := do
  let items ← argument .array items? "sublist" args 0
  let start ← argument .number Value.number? "sublist" args 1
  let first ← place items 0 start.toInt64
  let stop ← match args[2]? with
    | some _ => do
      let stop ← argument .number Value.number? "sublist" args 2
      place items start.toInt64.toInt stop.toInt64
    | none => pure items.length
  return .ofItems (← slice items first stop)

def sublist : CheckedOverload where
  overload := Builtin.sublist
  checked := sublistBody

def sublistUpTo : CheckedOverload where
  overload := Builtin.sublistUpTo
  checked := sublistBody

/-- Each item's field is added to the word, the field of the item `i` at the place `i`. -/
def fieldsFrom (callback : Callback) (callee : Value) (space : Int64) (width : Nat) :
    (i : Nat) → (word : BitVec 32) → List Value → Checked (BitVec 32)
  | _, word, [] => .ok word
  | i, word, v :: vs => do
    let n ← lift (fieldOf callback callee space i v)
    let field ← shifted (← narrowed n) (i * width)
    fieldsFrom callback callee space width (i + 1) (word + field) vs

/-- The fields of as many items as there is room for, as an integer. -/
def encodeItems (callback : Callback) (items : List Value) (space : Int64) (callee : Value) :
    Checked Value :=
  match fieldWidth? space with
  | some width => do
    let room ← quotient 32 width
    let word ← fieldsFrom callback callee space width 0 0#32 (items.take room)
    return .integer (Int64.ofInt word.toInt)
  | none => .error (.inr (.argument "encode" (.notPowerOfTwo space)))

def encode : CheckedOverload where
  overload := Builtin.encode
  checked callback args := do
    let items ← argument .array items? "encode" args 0
    let n ← argument .number Value.number? "encode" args 1
    let callee ← argument .lambda callable? "encode" args 2
    encodeItems callback items n.toInt64 callee

def onNumber (name : String) (f : Number → Number) : CheckedOverload where
  overload := Builtin.onNumber name f
  checked _ args := do
    let n ← argument .number Value.number? name args 0
    return .ofNumber (f n)

def isZero : Number → Bool
  | .integer n => n = 0
  | .float x => x == 0.0

def modulo : CheckedOverload where
  overload := Builtin.modulo
  checked _ args := do
    let a ← argument .number Value.number? "mod" args 0
    let b ← argument .number Value.number? "mod" args 1
    if isZero b then .error (.inr .divisionByZero)
    else return .ofNumber (← remainder a b)

def power : CheckedOverload where
  overload := Builtin.power
  checked _ args := do
    let a ← argument .number Value.number? "pow" args 0
    let b ← argument .number Value.number? "pow" args 1
    return .ofNumber (a.pow b)

def extreme (name : String) (better : Float → Float → Bool) : CheckedOverload :=
  onArrayWithOption name fun callback items callee? => do
    let keyed ← each (keyOf name callback callee?) 0 items
    return (best? better keyed).elim .null (·.1)

/-- The built-in functions, in their order. -/
def builtins : List CheckedOverload :=
  [asArray,
    onObject "keys" fun members => members.names.map Value.string,
    onObject "values" fun members => members.map (·.2),
    reverse, containsString, containsNumber,
    onArray "filter" fun callback items callee => (filterItems callback items callee).map .ofItems,
    onArray "map" fun callback items callee =>
      (each (apply callback (some callee)) 0 items).map .ofItems,
    onArrayWithOption "flatMap" fun callback items callee? =>
      (splicedResults callback callee? 0 items).map .ofItems,
    onArrayWithOption "count" fun callback items callee? => do
      let n ← match callee? with
        | some callee => countItems callback callee 0 items
        | none => pure items.length
      return .integer (Int64.ofNat n),
    onArray "findFirst" fun callback items callee => do
      match ← firstAccepted? callback callee 0 items with
      | some v => return v
      | none => .error (.functionFailed "findFirst" .noMatch),
    indexOf, encode, sublistUpTo, sublist,
    extreme "max" fun x y => y < x,
    extreme "min" fun x y => x < y,
    modulo,
    onNumber "floor" (Number.rounded .down), onNumber "ceil" (Number.rounded .up),
    onNumber "round" (Number.rounded .nearest), onNumber "abs" Number.abs, power]

theorem overloads_builtins : builtins.map (·.overload) = Registry.builtins.overloads :=
  rfl

end Checked

end Builtin

end Stencil

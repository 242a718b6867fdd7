import Stencil.Builtin.Numbers

/-!
# Functions on arrays and objects

Callbacks get an element and its index. Functions on arrays can be called behind the array.
-/

namespace Stencil.Builtin

/-- What `f` makes of each item and its index, from the index `i` on. -/
def each {α : Type} (f : Nat → Value → Except EvalError α) :
    (i : Nat) → List Value → Except EvalError (List α)
  | _, [] => .ok []
  | i, v :: vs => do
    let a ← f i v
    return a :: (← each f (i + 1) vs)

/-- The result of a callback for an element, or the element itself if there is no callback. -/
def apply (callback : Callback) (callee : Option Value) (i : Nat) (v : Value) : Outcome :=
  match callee with
  | some callee => callback i callee [v, .integer (Int64.ofNat i)]
  | none => .ok v

/-- Whether a callback accepts an element. -/
def accepts (callback : Callback) (callee : Value) (i : Nat) (v : Value) : Except EvalError Bool :=
  (apply callback (some callee) i v).map Value.truthy

def onObject (name : String) (f : Fields Value → List Value) : Overload where
  signature := .plain name [.object]
  body _ args :=
    match args with
    | [.object _ members] => .ok (.ofItems (f members))
    | _ => misshapen name

def keys : Overload :=
  onObject "keys" fun members => members.names.map Value.string

def values : Overload :=
  onObject "values" fun members => members.map (·.2)

/-- An object for each member, with its name and its value. -/
def asArray : Overload where
  signature := .plain "asArray" [.object, .string, .string]
  body _ args :=
    match args with
    | [.object _ members, .string key, .string value] =>
      .ok (.ofItems (members.map fun (name, v) =>
        .ofMembers (Fields.ofList [(key, .string name), (value, v)])))
    | _ => misshapen "asArray"

/-- The signature of a function on an array. -/
def arraySignature (name : String) (params : List ParamKind) : Signature :=
  (Signature.plain name (.array :: params)).onTarget

def reverse : Overload where
  signature := arraySignature "reverse" []
  body _ args :=
    match args with
    | [.array _ items] => .ok (.ofItems items.reverse)
    | _ => misshapen "reverse"

/-- Only strings can match. -/
def containsString : Overload where
  signature := arraySignature "contains" [.string]
  body _ args :=
    match args with
    | [.array _ items, .string s] =>
      .ok (.boolean (items.any fun
        | .string t => t = s
        | _ => false))
    | _ => misshapen "contains"

/-- Only numbers can match, of whatever kind. -/
def containsNumber : Overload where
  signature := arraySignature "contains" [.number]
  body _ args :=
    match args with
    | [.array _ items, v] =>
      match v.number? with
      | some n =>
        .ok (.boolean (items.any fun
          | .integer m => Binary.ofInt m.toInt == n.toFloat
          | .float x => x == n.toFloat
          | _ => false))
      | none => misshapen "contains"
    | _ => misshapen "contains"

/-- A function of an array and a callback. -/
def onArray (name : String) (f : Callback → List Value → Value → Outcome) : Overload where
  signature := arraySignature name [.lambda]
  body callback args :=
    match args with
    | [.array _ items, callee] => f callback items callee
    | _ => misshapen name

/-- A function of an array and a callback that may be missing. -/
def onArrayWithOption (name : String) (f : Callback → List Value → Option Value → Outcome) :
    Overload where
  signature := (arraySignature name [.lambda]).withOptionalLambda
  body callback args :=
    match args with
    | [.array _ items] => f callback items none
    | [.array _ items, callee] => f callback items (some callee)
    | _ => misshapen name

def filterItems (callback : Callback) (items : List Value) (callee : Value) :
    Except EvalError (List Value) := do
  let kept ← each (fun i v => (accepts callback callee i v).map fun ok => (v, ok)) 0 items
  return (kept.filter (·.2)).map (·.1)

def filter : Overload :=
  onArray "filter" fun callback items callee => (filterItems callback items callee).map .ofItems

def map : Overload :=
  onArray "map" fun callback items callee => (each (apply callback (some callee)) 0 items).map .ofItems

/-- An array stands for its items. -/
def spliced : Value → List Value
  | .array _ items => items
  | v => [v]

/-- The results of a callback, an array's items in its place; the first item has the index `i`. -/
def splicedResults (callback : Callback) (callee : Option Value) :
    (i : Nat) → List Value → Except EvalError (List Value)
  | _, [] => .ok []
  | i, v :: vs => do
    let w ← apply callback callee i v
    return spliced w ++ (← splicedResults callback callee (i + 1) vs)

/-- What is put in one after another is what was there after all calls. -/
theorem splicedResults_eq (callback : Callback) (callee : Option Value) (i : Nat)
    (items : List Value) :
    splicedResults callback callee i items =
      (each (apply callback callee) i items).map (·.flatMap spliced) := by
  induction items generalizing i with
  | nil => rfl
  | cons v items ih =>
    rw [splicedResults, each, ih]
    cases apply callback callee i v with
    | error e => rfl
    | ok w => cases each (apply callback callee) (i + 1) items <;> rfl

def flatMap : Overload :=
  onArrayWithOption "flatMap" fun callback items callee? =>
    (splicedResults callback callee? 0 items).map .ofItems

/-- How many items a callback accepts; the first one has the index `i`. -/
def countItems (callback : Callback) (callee : Value) :
    (i : Nat) → List Value → Except EvalError Nat
  | _, [] => .ok 0
  | i, v :: vs => do
    let ok ← accepts callback callee i v
    let n ← countItems callback callee (i + 1) vs
    return if ok then n + 1 else n

theorem countItems_eq_each (callback : Callback) (callee : Value) (i : Nat) (items : List Value) :
    countItems callback callee i items =
      (each (fun i v => (accepts callback callee i v).map fun ok => (v, ok)) i items).map
        fun kept => (kept.filter (·.2)).length := by
  induction items generalizing i with
  | nil => rfl
  | cons v items ih =>
    rw [countItems, each, ih]
    generalize each _ (i + 1) items = rest
    cases accepts callback callee i v with
    | error e => rfl
    | ok accepted =>
      cases rest with
      | error e => rfl
      | ok kept => cases accepted <;> rfl

/-- As many items are counted as are kept. -/
theorem countItems_eq (callback : Callback) (callee : Value) (items : List Value) :
    countItems callback callee 0 items = (filterItems callback items callee).map List.length := by
  rw [countItems_eq_each, filterItems]
  generalize each _ 0 items = kept
  cases kept with
  | error e => rfl
  | ok kept => exact congrArg Except.ok (List.length_map _).symm

def count : Overload :=
  onArrayWithOption "count" fun callback items callee? => do
    let n ← match callee? with
      | some callee => countItems callback callee 0 items
      | none => pure items.length
    return .integer (Int64.ofNat n)

/-- The first item that the callback accepts; it is not called for those behind it. -/
def firstAccepted? (callback : Callback) (callee : Value) :
    (i : Nat) → List Value → Except EvalError (Option Value)
  | _, [] => .ok none
  | i, v :: vs => do
    if ← accepts callback callee i v then return some v
    else firstAccepted? callback callee (i + 1) vs

def findFirst : Overload :=
  onArray "findFirst" fun callback items callee => do
    match ← firstAccepted? callback callee 0 items with
    | some v => return v
    | none => .error (.functionFailed "findFirst" .noMatch)

/-- The place of the first item with the same text, or -1. -/
def indexOf : Overload where
  signature := arraySignature "indexOf" [.any]
  body _ args :=
    match args with
    | [.array _ items, v] =>
      .ok (.integer (match items.findIdx? (·.text = v.text) with
        | some i => Int64.ofNat i
        | none => -1))
    | _ => misshapen "indexOf"

/-- Items from the place `start` up to, and without, the place `stop`, which is one of the array
if it is given. -/
def sublistOf (items : List Value) (start : Int64) (stop : Option Int64) : Outcome :=
  if start.toInt < 0 || (items.length : Int) ≤ start.toInt then
    .error (.indexOutOfRange start items.length)
  else
    match stop with
    | none => .ok (.ofItems (items.drop start.toInt.toNat))
    | some stop =>
      if stop.toInt < start.toInt || (items.length : Int) ≤ stop.toInt then
        .error (.indexOutOfRange stop items.length)
      else .ok (.ofItems ((items.take stop.toInt.toNat).drop start.toInt.toNat))

def sublist : Overload where
  signature := arraySignature "sublist" [.number]
  body _ args :=
    match args with
    | [.array _ items, v] =>
      match v.number? with
      | some start => sublistOf items start.toInt64 none
      | none => misshapen "sublist"
    | _ => misshapen "sublist"

def sublistUpTo : Overload where
  signature := arraySignature "sublist" [.number, .number]
  body _ args :=
    match args with
    | [.array _ items, v, w] =>
      match v.number?, w.number? with
      | some start, some stop => sublistOf items start.toInt64 (some stop.toInt64)
      | _, _ => misshapen "sublist"
    | _ => misshapen "sublist"

/-- The width of the fields that hold the numbers below `space`, a power of two of 31 bits. -/
def fieldWidth? (space : Int64) : Option Nat :=
  let n := space.toInt.toNat
  if 2 ≤ space.toInt && space.toInt < Int.pow 2 31 && Nat.pow 2 n.log2 = n then some n.log2
  else none

/-- The number that a callback gives for an element, which must fit in its field. -/
def fieldOf (callback : Callback) (callee : Value) (space : Int64) (i : Nat) (v : Value) :
    Except EvalError Nat := do
  let result ← apply callback (some callee) i v
  match result.number? with
  | none => .error (.functionFailed "encode" (.resultNotANumber result.kind))
  | some n =>
    let n := n.toInt64
    if 0 ≤ n.toInt && n.toInt < space.toInt then return n.toInt.toNat
    else .error (.functionFailed "encode" (.outOfRange n space))

/-- Fields of `width` bits side by side, the first one lowest. -/
def packed (width : Nat) : List Nat → Nat
  | [] => 0
  | n :: ns => n + Nat.pow 2 width * packed width ns

/-- A callback's results in fields of a signed number of 32 bits, as many as there is room for. -/
def encode : Overload where
  signature := arraySignature "encode" [.number, .lambda]
  body callback args :=
    match args with
    | [.array _ items, v, callee] =>
      match v.number? with
      | some n =>
        let space := n.toInt64
        match fieldWidth? space with
        | some width => do
          let fields ← each (fieldOf callback callee space) 0 (items.take (32 / width))
          return .integer (Int64.ofInt (Int.bmod (packed width fields) (Nat.pow 2 32)))
        | none => .error (.argument "encode" (.notPowerOfTwo space))
      | none => misshapen "encode"
    | _ => misshapen "encode"

/-- The number by which an element is compared. -/
def keyOf (name : String) (callback : Callback) (callee : Option Value) (i : Nat) (v : Value) :
    Except EvalError (Value × Float) := do
  let key ← apply callback callee i v
  match key.number? with
  | some n => return (v, n.toFloat)
  | none => .error (.functionFailed name (.notANumber key.kind))

/-- The first element whose key no later key is better than. -/
def best? (better : Float → Float → Bool) (keyed : List (Value × Float)) : Option (Value × Float) :=
  keyed.foldl (fun best a =>
    match best with
    | none => some a
    | some b => if better a.2 b.2 then some a else some b) none

def extreme (name : String) (better : Float → Float → Bool) : Overload :=
  onArrayWithOption name fun callback items callee? => do
    let keyed ← each (keyOf name callback callee?) 0 items
    return (best? better keyed).elim .null (·.1)

def max : Overload :=
  extreme "max" fun x y => y < x

def min : Overload :=
  extreme "min" fun x y => x < y

def onLists : List Overload :=
  [asArray, keys, values, reverse, containsString, containsNumber, filter, map, flatMap, count,
    findFirst, indexOf, encode, sublistUpTo, sublist, max, min]

end Stencil.Builtin

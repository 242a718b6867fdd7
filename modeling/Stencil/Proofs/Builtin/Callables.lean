import Stencil.Builtin
import Stencil.Proofs.Eval.Applications

/-!
# Functions that take a callable

Such a function goes through an array and calls the callable for one element after another, with the
element and its place. What it makes of the array is told by the results of these calls: all of them
for `map`, `flatMap`, `filter` and `count`, and those up to the first accepted element for
`findFirst`.
-/

namespace Stencil

namespace Builtin

variable {callback : Callback} {p : Value}

/-- The call for an element, which gets the element and its place. -/
def visit (callback : Callback) (p : Value) (element : Value × Nat) : Outcome :=
  callback element.2 p [element.1, .integer (Int64.ofNat element.2)]

/-- The items for which the result counts as true. -/
def accepted (items results : List Value) : List Value :=
  ((items.zip results).filter (·.2.truthy)).map (·.1)

theorem accepted_cons (v w : Value) (items results : List Value) :
    accepted (v :: items) (w :: results) =
      if w.truthy then v :: accepted items results else accepted items results := by
  rw [accepted, List.zip_cons_cons, List.filter_cons]
  split <;> rfl

theorem each_apply (callback : Callback) (p : Value) (i : Nat) (items : List Value) :
    each (apply callback (some p)) i items = (items.zipIdx i).mapM (visit callback p) := by
  induction items generalizing i with
  | nil => rfl
  | cons v items ih =>
    rw [each, ih, List.zipIdx_cons, List.mapM_cons]
    rfl

theorem each_accepts (callback : Callback) (p : Value) (i : Nat) (items : List Value) :
    each (fun i v => (accepts callback p i v).map fun ok => (v, ok)) i items =
      (each (apply callback (some p)) i items).map fun results =>
        (items.zip results).map fun (v, w) => (v, w.truthy) := by
  induction items generalizing i with
  | nil => rfl
  | cons v items ih =>
    rw [each, each, ih, accepts]
    cases apply callback (some p) i v with
    | error e => rfl
    | ok w =>
      cases each (apply callback (some p)) (i + 1) items <;> rfl

theorem filterItems_eq (callback : Callback) (p : Value) (items : List Value) :
    filterItems callback items p =
      (items.zipIdx.mapM (visit callback p)).map (accepted items) := by
  rw [filterItems, each_accepts, each_apply]
  cases items.zipIdx.mapM (visit callback p) with
  | error e => rfl
  | ok results =>
    change Except.ok _ = Except.ok _
    rw [accepted, List.filter_map, List.map_map]
    rfl

theorem firstAccepted?_eq (callback : Callback) (p : Value) (i : Nat) (items : List Value) :
    firstAccepted? callback p i items =
      ((items.zipIdx i).findM? fun element => (visit callback p element).map Value.truthy).map
        (Option.map (·.1)) := by
  induction items generalizing i with
  | nil => rfl
  | cons v items ih =>
    have hvisit : visit callback p (v, i) = apply callback (some p) i v := rfl
    rw [firstAccepted?, ih, List.zipIdx_cons, List.findM?, hvisit, accepts]
    cases apply callback (some p) i v with
    | error e => rfl
    | ok w =>
      simp only [Except.map, bind, Except.bind]
      cases w.truthy <;> rfl

theorem firstAccepted?_of_results {items results : List Value}
    (h : items.zipIdx.mapM (visit callback p) = .ok results) :
    firstAccepted? callback p 0 items = .ok (accepted items results).head? := by
  rw [← each_apply] at h
  generalize 0 = i at h ⊢
  induction items generalizing i results with
  | nil => rfl
  | cons v items ih =>
    rw [each] at h
    obtain ⟨w, hw, h⟩ := bind_eq_ok.mp h
    obtain ⟨rest, hrest, h⟩ := bind_eq_ok.mp h
    obtain rfl := pure_eq_ok.mp h
    rw [firstAccepted?, accepts, hw, accepted_cons]
    simp only [Except.map, bind, Except.bind]
    cases w.truthy with
    | true => rfl
    | false => exact ih _ hrest

section

variable (callback : Callback) (p : Value) (node : Node) (items : List Value)

theorem body_map : map.body callback [.array node items, p] =
    (items.zipIdx.mapM (visit callback p)).map .ofItems :=
  congrArg (Except.map Value.ofItems) (each_apply callback p 0 items)

theorem body_flatMap : flatMap.body callback [.array node items, p] =
    (items.zipIdx.mapM (visit callback p)).map fun vs => .ofItems (vs.flatMap spliced) := by
  change (splicedResults callback (some p) 0 items).map Value.ofItems = _
  rw [splicedResults_eq, each_apply]
  cases items.zipIdx.mapM (visit callback p) <;> rfl

theorem body_filter : filter.body callback [.array node items, p] =
    ((items.zipIdx.mapM (visit callback p)).map (accepted items)).map .ofItems :=
  congrArg (Except.map Value.ofItems) (filterItems_eq callback p items)

theorem body_count : count.body callback [.array node items, p] =
    ((items.zipIdx.mapM (visit callback p)).map (accepted items)).map
      fun vs => .integer (Int64.ofNat vs.length) := by
  change (do return Value.integer (Int64.ofNat (← countItems callback p 0 items))) = _
  rw [countItems_eq, filterItems_eq]
  cases (items.zipIdx.mapM (visit callback p)).map (accepted items) <;> rfl

/-- What is made of the element that was found. -/
def foundFirst : Option Value → Outcome
  | some v => .ok v
  | none => .error (.functionFailed "findFirst" .noMatch)

theorem body_findFirst : findFirst.body callback [.array node items, p] =
    firstAccepted? callback p 0 items >>= foundFirst :=
  rfl

end

/-- The functions that go through an array with a callable. -/
def withCallable : List Overload :=
  [map, flatMap, filter, count, findFirst]

theorem candidates_withCallable {o : Overload} (ho : o ∈ withCallable) (onTarget : Bool) :
    Registry.builtins.candidates o.signature.name 2 onTarget = [o] ∧
      o.signature.params = [.array, .lambda] := by
  simp only [withCallable, List.mem_cons, List.not_mem_nil, or_false] at ho
  rcases ho with rfl | rfl | rfl | rfl | rfl <;> cases onTarget <;> exact ⟨rfl, rfl⟩

theorem resolve_withCallable {o : Overload} (ho : o ∈ withCallable) (onTarget : Bool) (node : Node)
    (items : List Value) (hp : p.isCallable = true) :
    Registry.builtins.resolve o.signature.name [.array node items, p] onTarget =
      .ok (o, [.array node items, p]) := by
  obtain ⟨hcandidates, hparams⟩ := candidates_withCallable ho onTarget
  exact Registry.resolve_arrayWithCallable node items hcandidates hparams hp

end Builtin

namespace Eval

open Builtin (visit accepted withCallable foundFirst)

/-- A call of a built-in function on an array and a callable. -/
def callWith (limit depth : Nat) (here : Trail) (onTarget : Bool) (node : Node)
    (items : List Value) (p : Value) (name : String) : Outcome :=
  call .builtins limit depth here name [.array node items, p] onTarget

section

variable {limit depth : Nat} {here : Trail} {onTarget : Bool} {node : Node} {items : List Value}
  {p : Value} (hp : p.isCallable = true)
include hp

theorem callWith_zero {o : Overload} (ho : o ∈ withCallable) :
    callWith limit 0 here onTarget node items p o.signature.name =
      .error (.recursionLimit limit) := by
  simp only [callWith, call, Builtin.resolve_withCallable ho onTarget node items hp]
  rfl

theorem callWith_succ {o : Overload} (ho : o ∈ withCallable) :
    callWith limit (depth + 1) here onTarget node items p o.signature.name =
      o.body (callbackAt .builtins limit depth here) [.array node items, p] :=
  call_of_resolve (Builtin.resolve_withCallable ho onTarget node items hp)

end

/-- The functions that take a callable make what they give of the same results, one for each element
with its place: `flatMap` splices what `map` lists, `count` counts what `filter` keeps, and
`findFirst` gives the first of these, which it finds without the calls behind it. -/
theorem consistent_callWith (limit depth : Nat) (here : Trail) (onTarget : Bool) (node : Node)
    (items : List Value) {p : Value} (hp : p.isCallable = true) :
    ∃ results kept : Except EvalError (List Value),
      callWith limit depth here onTarget node items p "map" = results.map .ofItems ∧
      callWith limit depth here onTarget node items p "flatMap" =
        results.map (fun vs => .ofItems (vs.flatMap Builtin.spliced)) ∧
      callWith limit depth here onTarget node items p "filter" = kept.map .ofItems ∧
      callWith limit depth here onTarget node items p "count" =
        kept.map (fun vs => .integer (Int64.ofNat vs.length)) ∧
      (∀ vs, kept = .ok vs →
        callWith limit depth here onTarget node items p "findFirst" = foundFirst vs.head?) ∧
      kept = results.map (accepted items) ∧
      ∀ d, depth = d + 1 →
        results = items.zipIdx.mapM (visit (callbackAt .builtins limit d here) p) ∧
        callWith limit depth here onTarget node items p "findFirst" =
          (items.zipIdx.findM? fun element =>
            (visit (callbackAt .builtins limit d here) p element).map Value.truthy).map
              (Option.map (·.1)) >>= foundFirst := by
  cases depth with
  | zero =>
    have hlimit (o : Overload) (ho : o ∈ withCallable) :
        callWith limit 0 here onTarget node items p o.signature.name =
          .error (.recursionLimit limit) :=
      callWith_zero hp ho
    exact ⟨.error (.recursionLimit limit), .error (.recursionLimit limit),
      hlimit Builtin.map (by simp [withCallable]), hlimit Builtin.flatMap (by simp [withCallable]),
      hlimit Builtin.filter (by simp [withCallable]), hlimit Builtin.count (by simp [withCallable]),
      nofun, rfl, nofun⟩
  | succ depth =>
    have hbody (o : Overload) (ho : o ∈ withCallable) :
        callWith limit (depth + 1) here onTarget node items p o.signature.name =
          o.body (callbackAt .builtins limit depth here) [.array node items, p] :=
      callWith_succ hp ho
    have hfind : callWith limit (depth + 1) here onTarget node items p "findFirst" =
        Builtin.firstAccepted? (callbackAt .builtins limit depth here) p 0 items >>= foundFirst :=
      (hbody Builtin.findFirst (by simp [withCallable])).trans (Builtin.body_findFirst _ _ _ _)
    refine ⟨items.zipIdx.mapM (visit (callbackAt .builtins limit depth here) p), _,
      (hbody Builtin.map (by simp [withCallable])).trans (Builtin.body_map _ _ _ _),
      (hbody Builtin.flatMap (by simp [withCallable])).trans (Builtin.body_flatMap _ _ _ _),
      (hbody Builtin.filter (by simp [withCallable])).trans (Builtin.body_filter _ _ _ _),
      (hbody Builtin.count (by simp [withCallable])).trans (Builtin.body_count _ _ _ _),
      fun vs hvs => ?_, rfl, fun d hd => ?_⟩
    · obtain ⟨results, hresults, rfl⟩ := map_eq_ok.mp hvs
      rw [hfind, Builtin.firstAccepted?_of_results hresults]
      rfl
    · obtain rfl := Nat.succ.inj hd
      exact ⟨rfl, hfind.trans (by rw [Builtin.firstAccepted?_eq])⟩

/-- The lambda `(x, i) => x == i ? [x, i] : 0`. -/
def pairAtPlace : Value :=
  .lambda [] ["x", "i"] (.conditional (.binary .equal (.name "x") (.name "i"))
    (.array [.name "x", .name "i"]) (.integer 0)) []

/-- The second of these items is its own place. -/
def placedItems : List Value :=
  [.integer 1, .integer 1, .integer 5]

theorem consistent_callWith_of_pairAtPlace :
    pairAtPlace.isCallable = true ∧
      callWith 8 4 [] true none placedItems pairAtPlace "flatMap" =
        .ok (.ofItems [.integer 0, .integer 1, .integer 1, .integer 0]) ∧
      callWith 8 4 [] true none placedItems pairAtPlace "filter" = .ok (.ofItems [.integer 1]) ∧
      callWith 8 4 [] true none placedItems pairAtPlace "count" = .ok (.integer 1) ∧
      callWith 8 4 [] true none placedItems pairAtPlace "findFirst" = .ok (.integer 1) := by
  have hcallable : pairAtPlace.isCallable = true := rfl
  obtain ⟨results, kept, -, hflatMap, hfilter, hcount, hfind, hkept, hvisit⟩ :=
    consistent_callWith 8 4 [] true none placedItems hcallable
  have hresults : results = .ok [.integer 0, .ofItems [.integer 1, .integer 1], .integer 0] :=
    (hvisit 3 rfl).1.trans rfl
  subst hresults hkept
  exact ⟨hcallable, hflatMap, hfilter, hcount, hfind _ rfl⟩

end Eval

end Stencil

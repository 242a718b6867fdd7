import Stencil.Proofs.Eval.Reading

/-!
# Bindings that an expression does not use

Scopes in which the free names of an expression have the same bindings lead it to the same failure,
or to results that differ in nothing but what lambdas made on the way have captured.
-/

namespace Stencil

open Value (Similar SimilarMember SimilarOutcome)

namespace Value

variable {root : Trail}

theorem rel_member? {target target' : Value} (name : String) : Similar root target target' →
    Option.Rel (Similar root)
      (match target with
        | .object _ members => Fields.get? members name
        | _ => none)
      (match target' with
        | .object _ members => Fields.get? members name
        | _ => none) := by
  intro h
  cases h with
  | object hnames hmembers => exact rel_get? (forall₂_similarMember_iff.mpr ⟨hnames, hmembers⟩) name
  | array | lambda => exact .none
  | leaf => exact rel_refl _

theorem rel_callable? {o o' : Option Value} (h : Option.Rel (Similar root) o o') :
    Option.Rel (Similar root) (o.filter (·.isCallable)) (o'.filter (·.isCallable)) := by
  cases h with
  | none => exact .none
  | some h =>
    simp only [Option.filter_some, h.congr isCallable_bare]
    split
    · exact .some h
    · exact .none

end Value

namespace Eval.Level

/-- What a level does at `root` or in a part of it depends on the free names of an expression and on
nothing that lambdas have captured besides. -/
structure Respects (root : Trail) (level : Level) : Prop where
  evaluate : ∀ {here e scope scope'}, root <:+ here → Scope.Agree root e.free scope scope' →
    SimilarOutcome root (level.evaluate here e scope) (level.evaluate here e scope')
  call : ∀ {here name args args' onTarget}, root <:+ here →
    List.Forall₂ (Similar root) args args' →
    SimilarOutcome root (level.call here name args onTarget) (level.call here name args' onTarget)

namespace Respects

variable {root here : Trail} {level : Level} {r : Registry} {scope scope' : Scope}
  (hlevel : level.Respects root) (hhere : root <:+ here)
include hlevel hhere

theorem part {i : Nat} {e : Expr} (h : Scope.Agree root e.free scope scope') :
    SimilarOutcome root (level.evaluate (here.part i) e scope)
      (level.evaluate (here.part i) e scope') :=
  hlevel.evaluate (hhere.trans (List.suffix_cons _ _)) h

theorem invoke {callable callable' : Value} {args args' : List Value}
    (hcallable : Similar root callable callable')
    (hargs : List.Forall₂ (Similar root) args args') :
    SimilarOutcome root (level.invoke r here callable args)
      (level.invoke r here callable' args') := by
  cases hcallable with
  | array | object => exact .error _
  | lambda _ hscope => exact hlevel.evaluate hhere (Scope.Agree.call hscope hargs)
  | leaf =>
    cases callable with
    | lambda _ params body scope =>
      exact hlevel.evaluate hhere (Scope.Agree.call (.of_eq fun _ _ => rfl) hargs)
    | function name =>
      simp only [Level.invoke, hargs.length_eq]
      split
      · exact hlevel.call hhere (List.forall₂_take _ hargs)
      · exact .error _
    | _ => exact .error _

theorem all {es : List Expr} (h : Scope.Agree root (Expr.freeItems es) scope scope') (i : Nat) :
    SameUpTo (List.Forall₂ (Similar root)) (level.all here scope i es)
      (level.all here scope' i es) := by
  induction es generalizing i with
  | nil => exact .ok .nil
  | cons e es ih =>
    rw [Expr.freeItems] at h
    refine .bind (hlevel.part hhere h.left) fun _ _ hv => ?_
    exact .bind (ih h.right (i + 1)) fun _ _ hvs => .ok (.cons hv hvs)

theorem members {ms : List (String × Expr)}
    (h : Scope.Agree root (Expr.freeMembers ms) scope scope') (i : Nat) :
    SameUpTo (List.Forall₂ (SimilarMember root)) (level.members here scope i ms)
      (level.members here scope' i ms) := by
  induction ms generalizing i with
  | nil => exact .ok .nil
  | cons m ms ih =>
    rw [Expr.freeMembers] at h
    refine .bind (hlevel.part hhere h.left) fun _ _ hv => ?_
    exact .bind (ih h.right (i + 1)) fun _ _ hvs => .ok (.cons ⟨rfl, hv⟩ hvs)

omit hlevel hhere in
theorem lookup {name : String} (h : Scope.Agree root [name] scope scope') :
    SimilarOutcome root (Eval.lookup r scope name) (Eval.lookup r scope' name) := by
  rw [Eval.lookup, Eval.lookup]
  exact Value.similarOutcome_option (fun _ _ => .ok) (.of_eq .refl rfl) (h name List.mem_cons_self)

omit hlevel hhere in
theorem member_of_not_object {target : Value} (h : target.kind ≠ .object) (name : String) :
    level.member here target name =
      match level.call here name [target] true with
      | .error (.unknownFunction ..) => .error (.type (.noMember target.kind name))
      | result => result := by
  cases target with
  | object => exact absurd rfl h
  | _ => rfl

theorem member {target target' : Value} (h : Similar root target target') (name : String) :
    SimilarOutcome root (level.member here target name) (level.member here target' name) := by
  have hcall : SimilarOutcome root (level.call here name [target] true)
      (level.call here name [target'] true) := hlevel.call hhere (.cons h .nil)
  by_cases hobject : target.kind = .object
  · obtain ⟨node, members, rfl⟩ : ∃ node members, target = .object node members := by
      cases target <;> simp [Value.kind] at hobject ⊢
    obtain ⟨members', rfl, hmembers⟩ := Value.similar_object_iff.mp h
    simp only [Level.member]
    refine Value.similarOutcome_option (fun _ _ => .ok) ?_ (Value.rel_get? hmembers name)
    generalize level.call here name [.object node members] true = x,
      level.call here name [.object node members'] true = y at hcall
    cases hcall with
    | ok hv => exact .ok hv
    | error e =>
      cases e with
      | unknownFunction | argument => exact .ok (.refl _)
      | _ => exact .error _
  · have hkind := h.congr Value.kind_bare
    rw [member_of_not_object hobject, member_of_not_object (hkind ▸ hobject), hkind]
    generalize level.call here name [target] true = x, level.call here name [target'] true = y
      at hcall
    cases hcall with
    | ok hv => exact .ok hv
    | error e => cases e <;> exact .error _

theorem callOn {target target' : Value} (h : Similar root target target') (name : String)
    {args : List Expr} (hargs : Scope.Agree root (Expr.freeItems args) scope scope') :
    SimilarOutcome root (level.callOn r here target name args scope)
      (level.callOn r here target' name args scope') := by
  refine .bind (hlevel.all hhere hargs 1) fun args args' hargs => ?_
  refine Value.similarOutcome_option (fun callee callee' hcallee => ?_)
    (hlevel.call hhere (.cons h hargs)) (Value.rel_member? name h)
  rw [hcallee.congr Value.isCallable_bare, hcallee.congr Value.kind_bare]
  split
  · exact hlevel.invoke (hhere.trans (List.suffix_cons _ _)) hcallee hargs
  · exact .error _

theorem callNamed {name : String} {args : List Expr}
    (h : Scope.Agree root (name :: Expr.freeItems args) scope scope') :
    SimilarOutcome root (level.callNamed r here name args scope)
      (level.callNamed r here name args scope') := by
  have hargs : Scope.Agree root (Expr.freeItems args) scope scope' :=
    fun name hname => h name (List.mem_cons_of_mem _ hname)
  refine .bind (hlevel.all hhere hargs 0) fun args args' hargs => ?_
  refine Value.similarOutcome_option (fun callee callee' hcallee => ?_) (hlevel.call hhere hargs)
    (Value.rel_callable? (h name List.mem_cons_self))
  exact hlevel.invoke (hhere.trans (List.suffix_cons _ _)) hcallee hargs

theorem binaryOf {op : BinaryOp} {left right : Expr}
    (h : Scope.Agree root (left.free ++ right.free) scope scope') :
    SimilarOutcome root (level.expression r here scope (.binary op left right))
      (level.expression r here scope' (.binary op left right)) := by
  -- the right operand of `and` and `or` is not always evaluated
  cases op with
  | and =>
    refine .bind (hlevel.part hhere h.left) fun _ _ hv => ?_
    rw [hv.congr Value.truthy_bare]
    split
    · refine .bind (hlevel.part hhere h.right) fun _ _ hw => ?_
      rw [hw.congr Value.truthy_bare]
      exact .ok (.refl _)
    · exact .ok (.refl _)
  | or =>
    refine .bind (hlevel.part hhere h.left) fun _ _ hv => ?_
    rw [hv.congr Value.truthy_bare]
    split
    · exact .ok (.refl _)
    · refine .bind (hlevel.part hhere h.right) fun _ _ hw => ?_
      rw [hw.congr Value.truthy_bare]
      exact .ok (.refl _)
  | _ =>
    refine .bind (hlevel.part hhere h.left) fun _ _ hv => ?_
    refine .bind (hlevel.part hhere h.right) fun _ _ hw => ?_
    exact .of_eq .refl (hv.congr₂ (Value.binary_bare _) hw)

theorem expression {e : Expr} (h : Scope.Agree root e.free scope scope') :
    SimilarOutcome root (level.expression r here scope e) (level.expression r here scope' e) := by
  cases e with
  | float | integer | string | boolean | null => exact .ok (.refl _)
  | name => exact lookup h
  | array items => exact (hlevel.all hhere h 0).map fun _ _ => .array
  | object ms =>
    exact (hlevel.members hhere h 0).map fun _ _ hms =>
      Value.similar_object_iff.mpr ⟨_, rfl, Value.rel_ofList hms⟩
  | range first last =>
    refine .bind (hlevel.part hhere h.left) fun _ _ hv => ?_
    refine .bind (hlevel.part hhere h.right) fun _ _ hw => ?_
    exact .of_eq .refl (hv.congr₂ Value.range_bare hw)
  | unary op e =>
    refine .bind (hlevel.part hhere h) fun _ _ hv => ?_
    exact .of_eq .refl (hv.congr (Value.unary_bare op))
  | binary op left right => exact hlevel.binaryOf hhere h
  | conditional test yes no =>
    refine .bind (hlevel.part hhere h.left.left) fun _ _ hv => ?_
    rw [hv.congr Value.truthy_bare]
    split
    · exact hlevel.part hhere h.left.right
    · exact hlevel.part hhere h.right
  | member e name =>
    exact .bind (hlevel.part hhere h) fun _ _ hv => hlevel.member hhere hv name
  | index e i =>
    refine .bind (hlevel.part hhere h.left) fun _ _ hv => ?_
    exact .bind (hlevel.part hhere h.right) fun _ _ hi => Value.similarOutcome_index hv hi
  | call target? name args =>
    cases target? with
    | none => exact hlevel.callNamed hhere h
    | some e =>
      exact .bind (hlevel.part hhere h.left) fun _ _ hv => hlevel.callOn hhere hv name h.right
  | lambda params body => exact .ok (.lambda hhere h)

end Respects

end Eval.Level

namespace Eval

variable {root : Trail}

theorem respects_levels (root : Trail) (limit depth : Nat) :
    Level.Respects root ⟨evaluate .builtins limit depth, call .builtins limit depth⟩ := by
  induction depth with
  | zero =>
    refine ⟨fun _ _ => .error _, fun {here name args args' onTarget} _ hargs => ?_⟩
    exact .bind (Registry.same_resolve .builtins name onTarget hargs) fun _ _ _ => .error _
  | succ depth ih =>
    refine ⟨fun hhere h => ih.expression hhere h,
      fun {here name args args' onTarget} hhere hargs => ?_⟩
    refine .bind (Registry.same_resolve .builtins name onTarget hargs) ?_
    rintro ⟨overload, args⟩ ⟨_, args'⟩ ⟨hmem, rfl, hargs⟩
    refine Registry.respects_builtins overload hmem (fun i f f' args args' hf hargs => ?_) hargs
    exact ih.invoke (hhere.trans (List.suffix_cons _ _)) hf hargs

/-- Bindings of other names than the free ones count for nothing: the evaluation fails alike in both
scopes, or its results are the same but for what lambdas made by it have captured, and the same
altogether where there is no lambda in them. -/
theorem similar_of_free_names (limit depth : Nat) (here : Trail) (e : Expr) {scope scope' : Scope}
    (h : ∀ name ∈ e.free, scope.get? name = scope'.get? name) :
    SimilarOutcome here (evaluate .builtins limit depth here e scope)
      (evaluate .builtins limit depth here e scope') ∧
    ∀ v, evaluate .builtins limit depth here e scope = .ok v →
      (∀ u ∈ v.parts, u.kind ≠ .lambda) →
      evaluate .builtins limit depth here e scope' = .ok v := by
  have hsimilar : SimilarOutcome here (evaluate .builtins limit depth here e scope)
      (evaluate .builtins limit depth here e scope') :=
    (respects_levels here limit depth).evaluate List.suffix_rfl (.of_eq h)
  refine ⟨hsimilar, fun v hv hlambda => ?_⟩
  rw [hv] at hsimilar
  obtain ⟨w, hw, hvw⟩ := hsimilar.ok_left
  rw [hw, hvw.eq_of_no_lambda hlambda]

/-- The expression `items.map(x => x + a)`. -/
def shifting : Expr :=
  .call (some (.name "items")) "map"
    [.lambda ["x"] (.binary (.arith .add) (.name "x") (.name "a"))]

def narrowScope : Scope :=
  [[("items", .array none [.integer 1, .integer 2]), ("a", .integer 10)]]

/-- The same with bindings that the expression does not use; its `x` is another one. -/
def wideScope : Scope :=
  [("x", .string "outer"), ("b", .null)] :: narrowScope

theorem similar_shifting :
    (∀ name ∈ shifting.free, narrowScope.get? name = wideScope.get? name) ∧
    evaluate .builtins 8 8 [] shifting narrowScope = .ok (.array none [.integer 11, .integer 12]) ∧
    evaluate .builtins 8 8 [] shifting wideScope = .ok (.array none [.integer 11, .integer 12]) := by
  have hfree : ∀ name ∈ shifting.free, narrowScope.get? name = wideScope.get? name := by
    have hnames : shifting.free = ["items", "a"] := by decide +kernel
    rw [hnames]
    simp only [List.forall_mem_cons]
    exact ⟨rfl, rfl, nofun⟩
  have hnarrow : evaluate .builtins 8 8 [] shifting narrowScope =
      .ok (.array none [.integer 11, .integer 12]) := by
    rfl
  exact ⟨hfree, hnarrow, (similar_of_free_names 8 8 [] shifting hfree).2 _ hnarrow (by decide)⟩

end Eval

end Stencil

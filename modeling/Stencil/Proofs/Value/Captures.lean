import Mathlib.Data.Option.Defs
import Stencil.Eval.Basic
import Stencil.Proofs.Value.Parts

/-!
# What lambdas capture

An expression looks up only some of the names of the scope around it: the free ones. Values are
similar if they differ in nothing but scopes that lambdas have captured, and these only by bindings
that the lambdas never look up. Nothing that is read of a value tells it from a similar one.
-/

namespace Stencil

namespace Expr

mutual

/-- The names that an expression looks up in the scope around it: what it names or calls by name
alone, unless a lambda in it has a parameter of that name there. -/
def free : Expr → List String
  | .name s => [s]
  | .array items => freeItems items
  | .object members => freeMembers members
  | .range first last => first.free ++ last.free
  | .unary _ e => e.free
  | .binary _ left right => left.free ++ right.free
  | .conditional test yes no => test.free ++ yes.free ++ no.free
  | .member e _ => e.free
  | .index e i => e.free ++ i.free
  | .call none s args => s :: freeItems args
  | .call (some e) _ args => e.free ++ freeItems args
  | .lambda params body => body.free.filter (· ∉ params)
  | _ => []

def freeItems : List Expr → List String
  | [] => []
  | e :: es => e.free ++ freeItems es

def freeMembers : List (String × Expr) → List String
  | [] => []
  | (_, e) :: ms => e.free ++ freeMembers ms

end

end Expr

namespace Value

/-- The same value but for the scopes captured by lambdas that were made at `root` or in a part of
it: in these the free names of the lambda have similar bindings, or none in both. -/
inductive Similar (root : Trail) : Value → Value → Prop
  | array {node items items'} : List.Forall₂ (Similar root) items items' →
      Similar root (array node items) (array node items')
  | object {node members members'} : Fields.names members = Fields.names members' →
      List.Forall₂ (fun m m' => Similar root m.2 m'.2) members members' →
      Similar root (object node members) (object node members')
  | lambda {origin params body scope scope'} : root <:+ origin →
      (∀ name ∈ (Expr.lambda params body).free,
        Option.Rel (Similar root) (Scope.get? scope name) (Scope.get? scope' name)) →
      Similar root (lambda origin params body scope) (lambda origin params body scope')
  | leaf {v : Value} : v.kind ≠ .array → v.kind ≠ .object → Similar root v v

variable {root : Trail} {v v' w w' : Value}

theorem Similar.refl (v : Value) : Similar root v v := by
  induction v using rec_nodes with
  | onArray node items ih => exact .array (List.forall₂_same.mpr ih)
  | onObject node members ih => exact .object rfl (List.forall₂_same.mpr ih)
  | onLeaf v harray hobject => exact .leaf harray hobject

theorem rel_refl (o : Option Value) : Option.Rel (Similar root) o o := by
  cases o with
  | none => exact .none
  | some v => exact .some (.refl v)

/-- Members of the same name with similar values. -/
def SimilarMember (root : Trail) (m m' : String × Value) : Prop :=
  m.1 = m'.1 ∧ Similar root m.2 m'.2

theorem similar_array_iff {node : Node} {items : List Value} :
    Similar root (array node items) w ↔
      ∃ items', w = array node items' ∧ List.Forall₂ (Similar root) items items' := by
  constructor
  · intro h
    cases h with
    | array hitems => exact ⟨_, rfl, hitems⟩
    | leaf harray => simp [kind] at harray
  · rintro ⟨items', rfl, hitems⟩
    exact .array hitems

theorem similar_array_right_iff {node : Node} {items : List Value} :
    Similar root v (array node items) ↔
      ∃ items', v = array node items' ∧ List.Forall₂ (Similar root) items' items := by
  constructor
  · intro h
    cases h with
    | array hitems => exact ⟨_, rfl, hitems⟩
    | leaf harray => simp [kind] at harray
  · rintro ⟨items', rfl, hitems⟩
    exact .array hitems

theorem forall₂_similarMember_iff {members members' : Fields Value} :
    List.Forall₂ (SimilarMember root) members members' ↔
      members.names = members'.names ∧
        List.Forall₂ (fun m m' => Similar root m.2 m'.2) members members' := by
  constructor
  · intro h
    induction h with
    | nil => exact ⟨rfl, .nil⟩
    | cons hm _ ih =>
      exact ⟨congrArg₂ List.cons hm.1 ih.1, .cons hm.2 ih.2⟩
  · rintro ⟨hnames, hmembers⟩
    induction hmembers with
    | nil => exact .nil
    | cons hm _ ih =>
      obtain ⟨hname, hnames⟩ := List.cons.inj hnames
      exact .cons ⟨hname, hm⟩ (ih hnames)

theorem similar_object_iff {node : Node} {members : Fields Value} :
    Similar root (object node members) w ↔
      ∃ members', w = object node members' ∧
        List.Forall₂ (SimilarMember root) members members' := by
  constructor
  · intro h
    cases h with
    | object hnames hmembers => exact ⟨_, rfl, forall₂_similarMember_iff.mpr ⟨hnames, hmembers⟩⟩
    | leaf _ hobject => simp [kind] at hobject
  · rintro ⟨members', rfl, hmembers⟩
    obtain ⟨hnames, hmembers⟩ := forall₂_similarMember_iff.mp hmembers
    exact .object hnames hmembers

theorem similar_object_right_iff {node : Node} {members : Fields Value} :
    Similar root v (object node members) ↔
      ∃ members', v = object node members' ∧
        List.Forall₂ (SimilarMember root) members' members := by
  constructor
  · intro h
    cases h with
    | object hnames hmembers => exact ⟨_, rfl, forall₂_similarMember_iff.mpr ⟨hnames, hmembers⟩⟩
    | leaf _ hobject => simp [kind] at hobject
  · rintro ⟨members', rfl, hmembers⟩
    obtain ⟨hnames, hmembers⟩ := forall₂_similarMember_iff.mp hmembers
    exact .object hnames hmembers

theorem forall₂_mapIdx {α β γ : Type} {R : β → γ → Prop} {f : Nat → α → β} {g : Nat → α → γ}
    (h : ∀ i a, R (f i a) (g i a)) (as : List α) :
    List.Forall₂ R (as.mapIdx f) (as.mapIdx g) := by
  induction as generalizing f g with
  | nil => exact .nil
  | cons a as ih =>
    rw [List.mapIdx_cons, List.mapIdx_cons]
    exact .cons (h 0 a) (ih fun i a => h (i + 1) a)

theorem rel_getElem? {α β : Type} {R : α → β → Prop} {as : List α} {bs : List β}
    (h : List.Forall₂ R as bs) (i : Nat) : Option.Rel R as[i]? bs[i]? := by
  induction h generalizing i with
  | nil => exact .none
  | cons hab _ ih =>
    cases i with
    | zero => exact .some hab
    | succ i => exact ih i

mutual

/-- The value with nothing captured by its lambdas. -/
def bare : Value → Value
  | array node items => array node (bareItems items)
  | object node members => object node (bareMembers members)
  | lambda origin params body _ => lambda origin params body []
  | v => v

def bareItems : List Value → List Value
  | [] => []
  | v :: vs => v.bare :: bareItems vs

def bareMembers : List (String × Value) → List (String × Value)
  | [] => []
  | (name, v) :: ms => (name, v.bare) :: bareMembers ms

end

theorem bareItems_eq_map (items : List Value) : bareItems items = items.map bare := by
  induction items with
  | nil => rfl
  | cons v vs ih => rw [bareItems, ih, List.map_cons]

theorem bareMembers_eq_map (members : List (String × Value)) :
    bareMembers members = members.map fun m => (m.1, m.2.bare) := by
  induction members with
  | nil => rfl
  | cons m ms ih => rw [bareMembers, ih, List.map_cons]

/-- Similar values are the same without what is captured. -/
theorem Similar.bare_eq (h : Similar root v w) : v.bare = w.bare := by
  induction v using rec_nodes generalizing w with
  | onArray node items ih =>
    obtain ⟨items', rfl, hitems⟩ := similar_array_iff.mp h
    rw [bare, bare, bareItems_eq_map, bareItems_eq_map]
    exact congrArg _ (map_eq_map_of_forall₂ hitems fun v hv w hvw => ih v hv hvw)
  | onObject node members ih =>
    obtain ⟨members', rfl, hmembers⟩ := similar_object_iff.mp h
    rw [bare, bare, bareMembers_eq_map, bareMembers_eq_map]
    refine congrArg _ (map_eq_map_of_forall₂ hmembers fun m hm m' h => ?_)
    rw [h.1, ih m hm h.2]
  | onLeaf v harray hobject =>
    cases h with
    | array => simp [kind] at harray
    | object => simp [kind] at hobject
    | lambda => rfl
    | leaf => rfl

@[simp] theorem kind_bare (v : Value) : v.bare.kind = v.kind := by
  cases v <;> rfl

@[simp] theorem truthy_bare (v : Value) : v.bare.truthy = v.truthy := by
  cases v <;> rfl

@[simp] theorem isCallable_bare (v : Value) : v.bare.isCallable = v.isCallable := by
  cases v <;> rfl

@[simp] theorem isString_bare (v : Value) : v.bare.isString = v.isString := by
  cases v <;> rfl

@[simp] theorem number?_bare (v : Value) : v.bare.number? = v.number? := by
  cases v <;> rfl

@[simp] theorem numeric?_bare (v : Value) : v.bare.numeric? = v.numeric? := by
  cases v <;> rfl

@[simp] theorem display_bare (v : Value) : v.bare.display = v.display := by
  induction v using rec_nodes with
  | onArray node items ih =>
    rw [bare, bareItems_eq_map, display, display, displayItems_eq_map, displayItems_eq_map,
      List.map_map]
    congr 3
    exact List.map_congr_left ih
  | onObject node members ih =>
    rw [bare, bareMembers_eq_map, display, display, displayMembers_eq_map, displayMembers_eq_map,
      List.map_map]
    congr 3
    exact List.map_congr_left fun m hm => congrArg _ (ih m hm)
  | onLeaf v harray hobject => cases v <;> first | rfl | simp [kind] at harray hobject

@[simp] theorem text_bare (v : Value) : v.bare.text = v.text := by
  cases v <;> first | rfl | exact display_bare _

@[simp] theorem compare?_bare (v w : Value) : v.bare.compare? w.bare = v.compare? w := by
  cases v <;> cases w <;> rfl

@[simp] theorem equalScalars_bare (v w : Value) :
    equalScalars v.bare w.bare = equalScalars v w := by
  cases v <;> cases w <;> rfl

@[simp] theorem equals_bare (v w : Value) : v.bare.equals w.bare = v.equals w := by
  induction v using rec_nodes generalizing w with
  | onArray node items ih =>
    cases w with
    | array node' items' =>
      simp only [bare, bareItems_eq_map, equals]
      induction items generalizing items' with
      | nil => cases items' <;> rfl
      | cons v vs ihs =>
        obtain ⟨ih, ihs'⟩ := List.forall_mem_cons.mp ih
        cases items' with
        | nil => rfl
        | cons w ws => rw [List.map_cons, List.map_cons, equalItems, equalItems, ih, ihs ihs']
    | _ => rfl
  | onObject node members ih =>
    cases w with
    | object node' members' =>
      simp only [bare, bareMembers_eq_map, equals, List.length_map]
      congr 1
      induction members with
      | nil => rfl
      | cons m ms ihs =>
        obtain ⟨ih, ihs'⟩ := List.forall_mem_cons.mp ih
        rw [List.map_cons, equalMembers, equalMembers, ihs ihs', Fields.get?_map]
        cases Fields.get? members' m.1 with
        | none => rfl
        | some w => simp [ih]
    | _ => rfl
  | onLeaf v harray hobject =>
    cases v <;> first
      | (cases w <;> rfl)
      | simp [kind] at harray hobject

/-- A value without lambdas is similar to itself alone. -/
theorem Similar.eq_of_no_lambda (h : Similar root v w) (hv : ∀ u ∈ v.parts, u.kind ≠ .lambda) :
    v = w := by
  induction v using rec_nodes generalizing w with
  | onArray node items ih =>
    obtain ⟨items', rfl, hitems⟩ := similar_array_iff.mp h
    have heq := map_eq_map_of_forall₂ (f := id) (g := id) hitems fun v hmem w hvw =>
      ih v hmem hvw fun u hu => hv u (mem_parts_of_item hmem hu)
    rw [List.map_id, List.map_id] at heq
    rw [heq]
  | onObject node members ih =>
    obtain ⟨members', rfl, hmembers⟩ := similar_object_iff.mp h
    have heq := map_eq_map_of_forall₂ (f := id) (g := id) hmembers fun m hmem m' hm =>
      Prod.ext hm.1 (ih m hmem hm.2 fun u hu => hv u (mem_parts_of_member hmem hu))
    rw [List.map_id, List.map_id] at heq
    rw [heq]
  | onLeaf v harray hobject =>
    cases h with
    | array => simp [kind] at harray
    | object => simp [kind] at hobject
    | lambda => exact absurd rfl (hv _ (mem_parts_self _))
    | leaf => rfl

section

variable {fs fs' : Fields Value}

theorem rel_get? (h : List.Forall₂ (SimilarMember root) fs fs') (name : String) :
    Option.Rel (Similar root) (fs.get? name) (fs'.get? name) := by
  induction h with
  | nil => exact .none
  | cons hm _ ih =>
    rw [Fields.get?_cons, Fields.get?_cons, ← hm.1]
    split
    · exact .some hm.2
    · exact ih

theorem rel_insert (h : List.Forall₂ (SimilarMember root) fs fs') (name : String)
    (hv : Similar root v v') :
    List.Forall₂ (SimilarMember root) (fs.insert name v) (fs'.insert name v') := by
  induction h with
  | nil => exact .cons ⟨rfl, hv⟩ .nil
  | cons hm hms ih =>
    rw [Fields.insert, Fields.insert, ← hm.1]
    split
    · exact .cons ⟨rfl, hv⟩ hms
    · exact .cons hm ih

theorem rel_ofList (h : List.Forall₂ (SimilarMember root) fs fs') :
    List.Forall₂ (SimilarMember root) (Fields.ofList fs) (Fields.ofList fs') := by
  have hfold : ∀ {acc acc' : Fields Value}, List.Forall₂ (SimilarMember root) acc acc' →
      List.Forall₂ (SimilarMember root) (fs.foldl (fun acc f => Fields.insert acc f.1 f.2) acc)
        (fs'.foldl (fun acc f => Fields.insert acc f.1 f.2) acc') := by
    induction h with
    | nil => exact id
    | @cons m m' _ _ hm _ ih =>
      intro acc acc' hacc
      rw [List.foldl_cons, List.foldl_cons, ← hm.1]
      exact ih (rel_insert hacc m.1 hm.2)
  exact hfold .nil

end

theorem rel_bindings {args args' : List Value} (hargs : List.Forall₂ (Similar root) args args')
    (params : List String) :
    List.Forall₂ (SimilarMember root) (Eval.bindings params args) (Eval.bindings params args') := by
  refine rel_ofList (forall₂_mapIdx (fun i name => ⟨rfl, ?_⟩) params)
  have harg := rel_getElem? hargs i
  generalize args[i]? = o, args'[i]? = o' at harg
  cases harg with
  | some hv => exact hv
  | none => exact .refl _

theorem has_bindings (params : List String) (args : List Value) (name : String) :
    (Eval.bindings params args).has name ↔ name ∈ params := by
  rw [Eval.bindings, Fields.has_ofList]
  simp [Fields.names, List.mem_iff_getElem]

end Value

open Value (Similar SimilarMember)

/-- Each of these names has similar bindings in both scopes, or none in both. -/
def Scope.Agree (root : Trail) (names : List String) (scope scope' : Scope) : Prop :=
  ∀ name ∈ names, Option.Rel (Similar root) (scope.get? name) (scope'.get? name)

namespace Scope.Agree

variable {root : Trail} {names names' params : List String} {body : Expr} {scope scope' : Scope}
  {args args' : List Value}

theorem of_eq (h : ∀ name ∈ names, scope.get? name = scope'.get? name) :
    Agree root names scope scope' := by
  intro name hname
  rw [← h name hname]
  exact Value.rel_refl _

theorem left (h : Agree root (names ++ names') scope scope') : Agree root names scope scope' :=
  fun name hname => h name (List.mem_append_left _ hname)

theorem right (h : Agree root (names ++ names') scope scope') : Agree root names' scope scope' :=
  fun name hname => h name (List.mem_append_right _ hname)

/-- Parameters with similar arguments are similar in both scopes; the other free names of a body
are free in the lambda. -/
theorem call (h : Agree root (Expr.lambda params body).free scope scope')
    (hargs : List.Forall₂ (Similar root) args args') :
    Agree root body.free (Eval.bindings params args :: scope)
      (Eval.bindings params args' :: scope') := by
  intro name hname
  have hlayer := Value.rel_get? (Value.rel_bindings hargs params) name
  have hparam := Value.has_bindings params args name
  rw [Fields.has_eq_isSome] at hparam
  rw [Scope.get?_cons, Scope.get?_cons]
  generalize Fields.get? (Eval.bindings params args) name = o,
    Fields.get? (Eval.bindings params args') name = o' at hlayer hparam
  cases hlayer with
  | some hv => exact .some hv
  | none =>
    refine h name (List.mem_filter.mpr ⟨hname, ?_⟩)
    simpa using hparam

end Scope.Agree

end Stencil

import Mathlib.Data.Option.Basic
import Stencil.Json.Equality
import Stencil.Proofs.Comment.Resolving
import Stencil.Proofs.Template.Relocation
import Stencil.Proofs.Template.WellFormed

/-!
# Iterations as rows of conditions

An iteration over an array comes to what a row of conditions comes to that all hold, one for each
item in a scope with the item and its index. In an array they contribute the same elements, as an
object they merge to the same members, and one of them fails if and only if the other does.
-/

namespace Stencil

section

variable {ε α β γ : Type}

theorem toOption_bind (x : Except ε α) (f : α → Except ε β) :
    (x >>= f).toOption = x.toOption.bind fun a => (f a).toOption := by
  cases x <;> rfl

theorem toOption_eq_some {x : Except ε α} {a : α} : x.toOption = some a ↔ x = .ok a := by
  cases x <;> simp [Except.toOption]

theorem toOption_map (x : Except ε α) (f : α → β) : (x.map f).toOption = x.toOption.map f := by
  cases x <;> rfl

theorem toOption_foldlM {step : β → α → Except ε β} {step' : β → α → Option β}
    (hstep : ∀ b a, (step b a).toOption = step' b a) (as : List α) (b : β) :
    (as.foldlM step b).toOption = as.foldlM step' b := by
  induction as generalizing b with
  | nil => rfl
  | cons a as ih =>
    rw [List.foldlM_cons, List.foldlM_cons, toOption_bind, hstep, funext ih]
    rfl

/-- Results that are lists each, one behind the other. -/
theorem flatten_mapM (f : α → Option β) (g : β → List γ) (as : List α) :
    (as.mapM fun a => (f a).map g).map List.flatten = (as.mapM f).map (·.flatMap g) := by
  induction as with
  | nil => rfl
  | cons a as ih =>
    simp only [List.mapM_cons, Option.bind_eq_bind, Option.pure_def]
    cases f a with
    | none => rfl
    | some b =>
      generalize (as.mapM fun a => (f a).map g) = results, as.mapM f = bs at ih
      cases results <;> cases bs <;> simp_all

/-- Results that are all there before they are added to `c` one after another, and results that are
each added to `start` and then merged into `c`. -/
theorem foldlM_mapM {f : α → Option β} {add : γ → β → Option γ} {merge : γ → γ → Option γ}
    {start : γ} {P : γ → Prop} {Q : β → Prop}
    (hadd : ∀ c b, P c → Q b → add c b = (add start b).bind (merge c))
    (hP : ∀ c b c', P c → add c b = some c' → P c') (as : List α)
    (hQ : ∀ a ∈ as, ∀ b, f a = some b → Q b) {c : γ} (hc : P c) :
    (as.mapM f).bind (·.foldlM add c) =
      (as.mapM fun a => (f a).bind (add start)).bind (·.foldlM merge c) := by
  induction as generalizing c with
  | nil => rfl
  | cons a as ih =>
    simp only [List.mapM_cons, Option.bind_eq_bind, Option.pure_def]
    obtain ⟨hQa, hQas⟩ := List.forall_mem_cons.mp hQ
    cases ha : f a with
    | none => rfl
    | some b =>
      have hrest : ∀ c', add c b = some c' → (as.mapM f).bind (·.foldlM add c') =
          (as.mapM fun a => (f a).bind (add start)).bind (·.foldlM merge c') :=
        fun c' hc' => ih hQas (hP c b c' hc hc')
      generalize as.mapM f = bs, (as.mapM fun a => (f a).bind (add start)) = os at hrest ⊢
      simp only [Option.bind_some, Option.bind_assoc, List.foldlM_cons, Option.bind_eq_bind]
      -- The later results can wait until this one is added: neither looks at the other.
      calc bs.bind (fun bs => (add c b).bind fun c => bs.foldlM add c)
        _ = (add c b).bind fun c => bs.bind (·.foldlM add c) := Option.bind_comm ..
        _ = (add c b).bind fun c => os.bind (·.foldlM merge c) := Option.bind_congr hrest
        _ = (add start b).bind fun o => (merge c o).bind fun c => os.bind (·.foldlM merge c) := by
          rw [hadd c b hc (hQa b ha), Option.bind_assoc]
        _ = (add start b).bind fun o => os.bind fun os => (merge c o).bind (os.foldlM merge ·) :=
          Option.bind_congr fun o _ => Option.bind_comm ..

end

namespace Value

/-- Members that are all new are put behind the others as they are. -/
theorem mergeMembers_of_new (path : Path) {members own : Fields Value}
    (hnames : members.names.Nodup) (hnew : ∀ m ∈ members, own.has m.1 = false) :
    mergeMembers path members own = ⟨own ++ copyMembers members, none⟩ := by
  induction members generalizing own with
  | nil => simp [mergeMembers, copyMembers]
  | cons m members ih =>
    obtain ⟨name, v⟩ := m
    obtain ⟨hname, hrest⟩ := List.forall_mem_cons.mp hnew
    obtain ⟨hfresh, hnames⟩ := List.nodup_cons.mp hnames
    have hget : own.get? name = none := by
      simpa [Fields.has_eq_isSome] using hname
    have hnew : ∀ m ∈ members, (own.insert name v.deepCopy).has m.1 = false := by
      intro m hm
      have hne : m.1 ≠ name := fun heq => hfresh (List.mem_map.mpr ⟨m, hm, heq⟩)
      rw [Fields.has_eq_isSome, Fields.get?_insert, if_neg hne]
      exact hrest m hm
    rw [mergeMembers, hget]
    change mergeMembers path members (own.insert name v.deepCopy) = _
    rw [ih hnames hnew, Fields.insert_of_not_has own name _ hname, copyMembers, List.append_assoc]
    rfl

/-- A detached object is what it comes to under an object without members. -/
theorem merge_empty {node : Node} {members : Fields Value}
    (h : (object node members).Detached) :
    (ofMembers []).merge (object node members) = .ok (object node members) := by
  obtain ⟨hnames, -⟩ := wellFormed_object.mp h.wellFormed
  have hmerged := mergeMembers_of_new .root hnames fun _ _ => (rfl : Fields.has [] _ = false)
  have hcopy : ofMembers (copyMembers members) = object node members := h.unmarked.deepCopy_eq
  rw [ofMembers, merge_object rfl .root (by rw [hmerged]), hmerged]
  exact congrArg Except.ok hcopy

theorem merge_ofMembers_nil (own : Fields Value) :
    (ofMembers own).merge (ofMembers []) = .ok (ofMembers own) := by
  simp [merge, merged, mergeAt, mergeMembers, ofMembers, sameNode]

end Value

namespace Template

/-- The scope of a round of an iteration: the index of the item is bound, and then the item. -/
def roundScope (scope : Scope) (name : String) (i : Nat) (v : Value) : Scope :=
  (Scope.insert ([] :: scope) indexName (.integer (Int64.ofNat i))).insert name v

theorem roundScope_eq (scope : Scope) (name : String) (i : Nat) (v : Value) :
    roundScope scope name i v = roundBindings name i v :: scope :=
  rfl

/-- A key with a condition that always holds. -/
def alwaysKey : String := "\x7b\x7b?true\x7d\x7d"

/-- The body under a condition that always holds. -/
def always (body : Value) : Value :=
  .ofMembers [(alwaysKey, body)]

theorem classify_alwaysKey : classify alwaysKey = .conditional "true" := by
  decide +kernel

section

variable {ws : Workspace} {resolve : Resolver} {here : Trail} {path : Path} {scope : Scope}

theorem run_true (hlimit : 0 < ws.engine.limit) :
    ws.engine.run here "true" scope = .ok (.boolean true) := by
  have hparse : Expr.ofSource "true" = .ok (.boolean true) := by cbv
  obtain ⟨limit, hlimit⟩ : ∃ limit, ws.engine.limit = limit + 1 :=
    Nat.exists_eq_succ_of_ne_zero hlimit.ne'
  rw [Engine.run, hparse]
  change Eval.evaluate ws.engine.registry ws.engine.limit ws.engine.limit here (.boolean true) scope =
    .ok (.boolean true)
  rw [hlimit]
  rfl

theorem choose_true (hlimit : 0 < ws.engine.limit) (k : Nat) (body : Value) :
    choose ws resolve here k path scope "true" body =
      (resolve (here.part k) path scope body).map ([·]) := by
  rw [choose, evaluate, run_true hlimit]
  rfl

/-- Without their errors, the rounds of an iteration are the items' bodies at any path. -/
theorem toOption_rounds (hresolve : Relocates resolve) (path' : Path) (k : Nat) (name : String)
    (body : Value) (i : Nat) (items : List Value) :
    (rounds resolve here k path scope name body i items).toOption =
      (items.zipIdx i).mapM fun (v, i) =>
        (resolve ((here.round i).part k) path' (roundScope scope name i v) body).toOption := by
  induction items generalizing i with
  | nil => rfl
  | cons v items ih =>
    rw [rounds, List.zipIdx_cons, List.mapM_cons, toOption_bind, hresolve.toOption_eq _ _ path',
      ← roundScope_eq]
    refine Option.bind_congr fun r _ => ?_
    rw [toOption_bind, ih]
    rfl

/-- What an iteration comes to, without its errors. -/
theorem toOption_iterate (hresolve : Relocates resolve) (path' : Path) {k : Nat}
    {source name : String} {body : Value} {mark : Node} {items : List Value}
    (hitems : ws.engine.run (here.key k) source scope = .ok (.array mark items)) :
    (iterate ws resolve here k path scope source name body).toOption =
      items.zipIdx.mapM fun (v, i) =>
        (resolve ((here.round i).part k) path' (roundScope scope name i v) body).toOption := by
  rw [iterate, evaluate, hitems]
  exact toOption_rounds hresolve path' k name body 0 items

theorem expandItem_singleton {node : Node} {key : String} {body : Value} :
    expandItem ws resolve here path scope (.object node [(key, body)]) =
      expand ws resolve here 0 (path.field key) scope body (classify key) :=
  rfl

theorem expandItem_iteration {node : Node} {key source name : String} {body : Value}
    (hkey : classify key = .iteration source name) :
    expandItem ws resolve here path scope (.object node [(key, body)]) =
      some (iterate ws resolve here 0 (path.field key) scope source name body) := by
  rw [expandItem_singleton, hkey]
  rfl

theorem expandItem_always (body : Value) :
    expandItem ws resolve here path scope (always body) =
      some (choose ws resolve here 0 (path.field alwaysKey) scope "true" body) := by
  rw [always, Value.ofMembers, expandItem_singleton, classify_alwaysKey]
  rfl

theorem resolveItem_always (hlimit : 0 < ws.engine.limit) (body : Value) :
    resolveItem ws resolve here path scope (always body) =
      (resolve (here.part 0) (path.field alwaysKey) scope body).map spliced := by
  rw [resolveItem, expandItem_always]
  simp only [choose_true hlimit]
  cases resolve (here.part 0) (path.field alwaysKey) scope body with
  | ok r => exact congrArg Except.ok (List.append_nil _)
  | error e => rfl

/-- The object with an expansion merged under it, if it can be. -/
def withExpansion? (object v : Value) : Option Value :=
  match v with
  | .object .. => (object.merge v).toOption
  | .null => some object
  | _ => none

theorem toOption_addExpansion (object : Value) (expansion : Path × Value) :
    (addExpansion object expansion).toOption = withExpansion? object expansion.2 := by
  obtain ⟨path, v⟩ := expansion
  cases v with
  | object node members =>
    rw [addExpansion, withExpansion?, mergeAt]
    cases object.merge (.object node members) <;> rfl
  | _ => rfl

/-- A detached expansion can be made an object of its own before it is merged. -/
theorem withExpansion?_eq_bind (own : Fields Value) {v : Value} (hv : v.Detached) :
    withExpansion? (.ofMembers own) v =
      (withExpansion? (.ofMembers []) v).bind fun o => ((Value.ofMembers own).merge o).toOption := by
  cases v with
  | object node members =>
    simp only [withExpansion?, Value.merge_empty hv]
    rfl
  | null =>
    simp only [withExpansion?, Option.bind_some, Value.merge_ofMembers_nil]
    rfl
  | _ => rfl

theorem exists_of_withExpansion? {own : Fields Value} {v r : Value}
    (h : withExpansion? (.ofMembers own) v = some r) : ∃ own', r = .ofMembers own' := by
  cases v with
  | object node members =>
    rw [withExpansion?] at h
    cases hmerge : (Value.ofMembers own).merge (.object node members) with
    | error c =>
      rw [hmerge] at h
      cases h
    | ok r' =>
      rw [hmerge] at h
      cases h
      exact ⟨_, (Value.merge_object_eq_ok hmerge).2⟩
  | null =>
    cases h
    exact ⟨own, rfl⟩
  | _ => cases h

theorem isExpansion_of_expand {k : Nat} {body : Value} {key : Key}
    {expansions : Result (List Value)}
    (h : expand ws resolve here k path scope body key = some expansions) : key.isExpansion := by
  by_contra hkey
  rw [expand_eq_none (Bool.eq_false_iff.mpr hkey)] at h
  cases h

/-- A member that expands brings its expansions, and nothing of its own. -/
theorem resolveMember_of_expand {k : Nat} {key : String} {body : Value}
    {expansions : Result (List Value)}
    (h : expand ws resolve here k path scope body (classify key) = some expansions) :
    resolveMember ws resolve here k path scope key body =
      expansions.map fun vs => ⟨[], vs.map (path, ·)⟩ := by
  have hkey := isExpansion_of_expand h
  unfold resolveMember
  cases hclass : classify key with
  | iteration source name =>
    rw [hclass] at h
    cases h
    rfl
  | conditional source =>
    rw [hclass] at h
    cases h
    rfl
  | _ => simp [hclass, Key.isExpansion] at hkey

/-- An object with one member that expands is the merge of its expansions. -/
theorem toOption_resolveNode {node : Node} {key : String} {body : Value}
    {expansions : Result (List Value)}
    (h : expandItem ws resolve here path scope (.object node [(key, body)]) = some expansions) :
    (resolveNode ws resolve here path scope (.object node [(key, body)])).toOption =
      expansions.toOption.bind (·.foldlM withExpansion? (.ofMembers [])) := by
  rw [expandItem_singleton] at h
  have hkey := isExpansion_of_expand h
  have htemplate : Fields.has [(key, body)] templateKey = false := by
    simp [Fields.has, ne_templateKey hkey]
  have hobject : resolveNode ws resolve here path scope (.object node [(key, body)]) =
      resolveObject ws resolve here path scope [(key, body)] := by
    simp only [resolveNode, htemplate, Bool.false_eq_true, if_false]
  have hpieces : resolveMembers ws resolve here path scope 0 (uncommented [(key, body)]) =
      expansions.map fun vs => ⟨[], vs.map (path.field key, ·)⟩ := by
    rw [uncommented_singleton hkey, resolveMembers, resolveMember_of_expand h]
    cases expansions with
    | ok vs =>
      change Except.ok (Pieces.append _ _) = _
      rw [Pieces.append, List.append_nil, List.append_nil]
      rfl
    | error e => rfl
  rw [hobject, resolveObject]
  change (resolveMembers ws resolve here path scope 0 (uncommented [(key, body)]) >>= _).toOption = _
  rw [hpieces, toOption_bind, toOption_map, Option.bind_map]
  refine Option.bind_congr fun vs _ => ?_
  change ((vs.map (path.field key, ·)).foldlM addExpansion (.ofMembers [])).toOption = _
  rw [List.foldlM_map]
  exact toOption_foldlM (fun object v => toOption_addExpansion object (path.field key, v)) vs _

theorem toOption_resolveNode_always (hlimit : 0 < ws.engine.limit) (body : Value) :
    (resolveNode ws resolve here path scope (always body)).toOption =
      (resolve (here.part 0) (path.field alwaysKey) scope body).toOption.bind
        (withExpansion? (.ofMembers [])) := by
  rw [always, Value.ofMembers, toOption_resolveNode (expandItem_always body), choose_true hlimit,
    toOption_map, Option.bind_map]
  refine Option.bind_congr fun v _ => ?_
  simp

end

/-- Under no levels at all nothing evaluates. -/
theorem limit_pos_of_run {engine : Engine} {here : Trail} {source : String} {scope : Scope}
    {v : Value} (h : engine.run here source scope = .ok v) : 0 < engine.limit := by
  obtain ⟨e, -, h⟩ := bind_eq_ok.mp h
  rw [Nat.pos_iff_ne_zero]
  intro hlimit
  rw [Engine.evaluate, hlimit] at h
  cases h

section

variable {ws : Workspace} {scope : Scope} {key source name : String}
  (hkey : classify key = .iteration source name) {here : Trail} {mark : Node} {items : List Value}
  (hitems : ws.engine.run (here.key 0) source scope = .ok (.array mark items))
include hkey hitems

theorem toOption_resolveItem_iteration (depth : Nat) (path : Path) (node : Node) (body : Value) :
    (resolveItem ws (resolve ws depth) here path scope (.object node [(key, body)])).toOption =
      (items.zipIdx.mapM fun (v, i) =>
        (resolveItem ws (resolve ws depth) (here.round i) path (roundScope scope name i v)
          (always body)).toOption).map List.flatten := by
  simp only [resolveItem_always (limit_pos_of_run hitems), toOption_map, flatten_mapM]
  rw [resolveItem, expandItem_iteration hkey]
  simp only [toOption_map,
    toOption_iterate (relocates_resolve ws depth) (path.field alwaysKey) hitems]

theorem toOption_resolve_iteration (hws : ws.WellFormed) (hscope : scope.WellFormed) {body : Value}
    (hbody : body.WellFormed) (depth : Nat) (path : Path) (node : Node) :
    (resolve ws depth here path scope (.object node [(key, body)])).toOption = (do
      let start ← (resolve ws depth here path scope (.ofMembers [])).toOption
      let objects ← items.zipIdx.mapM fun (v, i) =>
        (resolve ws depth (here.round i) path (roundScope scope name i v) (always body)).toOption
      objects.foldlM (fun object o => (object.merge o).toOption) start) := by
  cases depth with
  | zero => rfl
  | succ depth =>
    have hvalues := Value.wellFormed_array.mp (Engine.wellFormed_of_run hws.registry hscope hitems)
    have hdetached (r : Value × Nat) (hr : r ∈ items.zipIdx) (v : Value)
        (hv : (resolve ws depth ((here.round r.2).part 0) (path.field alwaysKey)
          (roundScope scope name r.2 r.1) body).toOption = some v) : v.Detached := by
      have hlayer := wellFormed_roundBindings name r.2 (hvalues r.1 (List.fst_mem_of_mem_zipIdx hr))
      exact detaches_resolve hws depth (hscope.cons hlayer) hbody (toOption_eq_some.mp hv)
    simp only [resolve, toOption_resolveNode_always (limit_pos_of_run hitems)]
    rw [toOption_resolveNode (expandItem_iteration hkey),
      toOption_iterate (relocates_resolve ws depth) (path.field alwaysKey) hitems]
    refine foldlM_mapM (P := fun object => ∃ own, object = .ofMembers own) ?_ ?_ _ hdetached
      ⟨[], rfl⟩
    · rintro object v ⟨own, rfl⟩ hv
      exact withExpansion?_eq_bind own hv
    · rintro object v r ⟨own, rfl⟩ hr
      exact exists_of_withExpansion? hr

end

/-- An iteration is a row of conditions that hold, in scopes with the index and the item: it fails
if one of them does, contributes the same elements to an array, and merges to the same object. The
merge starts from the empty object, which like any other cannot be resolved with no levels left. -/
theorem iteration_as_conditions {ws : Workspace} (hws : ws.WellFormed) {scope : Scope}
    (hscope : scope.WellFormed) {body : Value} (hbody : body.WellFormed) {key source name : String}
    (hkey : classify key = .iteration source name) {here : Trail} {mark : Node}
    {items : List Value}
    (hitems : ws.engine.run (here.key 0) source scope = .ok (.array mark items))
    (depth : Nat) (path : Path) (node : Node) :
    (resolveItem ws (resolve ws depth) here path scope (.object node [(key, body)])).toOption =
        (items.zipIdx.mapM fun (v, i) =>
          (resolveItem ws (resolve ws depth) (here.round i) path (roundScope scope name i v)
            (always body)).toOption).map List.flatten ∧
      (resolve ws depth here path scope (.object node [(key, body)])).toOption = (do
        let start ← (resolve ws depth here path scope (.ofMembers [])).toOption
        let objects ← items.zipIdx.mapM fun (v, i) =>
          (resolve ws depth (here.round i) path (roundScope scope name i v) (always body)).toOption
        objects.foldlM (fun object o => (object.merge o).toOption) start) :=
  ⟨toOption_resolveItem_iteration hkey hitems depth path node body,
    toOption_resolve_iteration hkey hitems hws hscope hbody depth path node⟩

/-! A round for each of two names, one after another in an object, in a workspace that has loaded
the module that they extend. -/

def badgeModule : String :=
  "\x7b\"$module\": \"badge\", \"$template\": \x7b\"number\": \"\x7b\x7bindex\x7d\x7d\"\x7d\x7d"

def withBadge : Workspace :=
  (Workspace.empty Engine.standard).after [.load badgeModule []]

theorem wellFormed_withBadge : withBadge.WellFormed :=
  Workspace.wellFormed_after (Workspace.wellFormed_empty Registry.keepsWellFormed_builtins)
    (by simp [Scope.WellFormed])

def rosterKey : String := "\x7b\x7b#names as name\x7d\x7d"

def rosterBody : Value :=
  .ofMembers [("\x7b\x7bname\x7d\x7d",
    .ofMembers [("$extend", .string "badge"), ("$template", .ofMembers [])])]

def rosterScope : Scope :=
  [[("names", .ofItems [.string "first", .string "second"])]]

example :
    (resolve withBadge 5 [] .root rosterScope
      (.ofMembers [(rosterKey, rosterBody)])).toOption.bind (·.toJson.toOption) =
      some (.object [("first", .object [("number", .integer 0)]),
        ("second", .object [("number", .integer 1)])]) := by
  decide +kernel

theorem iteration_as_conditions_of_roster :
    classify rosterKey = .iteration "names" "name" ∧ withBadge.WellFormed ∧
    withBadge.engine.run (Trail.key [] 0) "names" rosterScope =
      .ok (.ofItems [.string "first", .string "second"]) ∧
    let rounds := [(Value.string "first", 0), (.string "second", 1)]
    (resolveItem withBadge (resolve withBadge 5) [] .root rosterScope
        (.ofMembers [(rosterKey, rosterBody)])).toOption =
      (rounds.mapM fun (v, i) =>
        (resolveItem withBadge (resolve withBadge 5) (Trail.round [] i) .root
          (roundScope rosterScope "name" i v) (always rosterBody)).toOption).map List.flatten ∧
    (resolve withBadge 5 [] .root rosterScope (.ofMembers [(rosterKey, rosterBody)])).toOption = (do
      let start ← (resolve withBadge 5 [] .root rosterScope (.ofMembers [])).toOption
      let objects ← rounds.mapM fun (v, i) =>
        (resolve withBadge 5 (Trail.round [] i) .root (roundScope rosterScope "name" i v)
          (always rosterBody)).toOption
      objects.foldlM (fun object o => (object.merge o).toOption) start) := by
  have hkey : classify rosterKey = .iteration "names" "name" := by decide +kernel
  have hitems : withBadge.engine.run (Trail.key [] 0) "names" rosterScope =
      .ok (.ofItems [.string "first", .string "second"]) := by
    rw [withBadge, Workspace.engine_after]
    cbv
  have hscope : rosterScope.WellFormed := by simp [Scope.WellFormed, rosterScope]
  have hbody : rosterBody.WellFormed := by
    simp [rosterBody, Value.wellFormed_ofMembers, Fields.names]
  exact ⟨hkey, wellFormed_withBadge, hitems,
    iteration_as_conditions wellFormed_withBadge hscope hbody hkey hitems 5 .root none⟩

end Template

end Stencil

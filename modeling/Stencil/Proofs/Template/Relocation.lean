import Stencil.Proofs.Merge.Members
import Stencil.Template.Resolve

/-!
# Moving a template

Resolving looks at the place of a node for the places of errors only. So a node that stands further
down comes to the same value, and fails in the same way with its errors further down.
-/

namespace Stencil

section

variable {ε ε' α β : Type}

@[simp] theorem mapError_pure (a : α) (g : ε → ε') :
    (pure a : Except ε α).mapError g = pure a :=
  rfl

@[simp] theorem mapError_bind (x : Except ε α) (f : α → Except ε β) (g : ε → ε') :
    (x >>= f).mapError g = x.mapError g >>= fun a => (f a).mapError g := by
  cases x <;> rfl

theorem mapError_map (x : Except ε α) (f : α → β) (g : ε → ε') :
    (x.map f).mapError g = (x.mapError g).map f := by
  cases x <;> rfl

theorem mapM_mapError {f : α → Except ε β} {f' : α → Except ε' β} {g : ε → ε'}
    (hf : ∀ a, f' a = (f a).mapError g) (as : List α) : as.mapM f' = (as.mapM f).mapError g := by
  induction as with
  | nil => rfl
  | cons a as ih => simp only [List.mapM_cons, hf, ih, mapError_bind, mapError_pure]

theorem foldlM_mapError {step : β → α → Except ε β} {step' : β → α → Except ε' β} {g : ε → ε'}
    (hstep : ∀ b a, step' b a = (step b a).mapError g) (as : List α) (b : β) :
    as.foldlM step' b = (as.foldlM step b).mapError g := by
  induction as generalizing b with
  | nil => rfl
  | cons a as ih => simp only [List.foldlM_cons, hstep, ih, mapError_bind]

end

theorem Path.index_below (base path : Path) (i : Nat) :
    (base.below path).index i = base.below (path.index i) := by
  simp [below, index]

/-- The same error, of a node at a place further down. -/
def TemplateError.below (base : Path) : TemplateError → TemplateError
  | json name => json name
  | eval path cause => eval (base.below path) cause
  | invalid path fault => invalid (base.below path) fault

namespace Template

/-- A node further down is resolved to the same, with its errors further down. -/
def Relocates (resolve : Resolver) : Prop :=
  ∀ here base path scope node,
    resolve here (base.below path) scope node =
      (resolve here path scope node).mapError (.below base)

variable {ws : Workspace} {resolve : Resolver} {here : Trail} {scope : Scope}

theorem evaluate_below (base path : Path) (source : String) :
    evaluate ws here (base.below path) scope source =
      (evaluate ws here path scope source).mapError (.below base) := by
  rw [evaluate, evaluate]
  cases ws.engine.run here source scope <;> rfl

theorem mergeAt_below (base path : Path) (template parent : Value) :
    mergeAt (base.below path) template parent =
      (mergeAt path template parent).mapError (.below base) := by
  rw [mergeAt, mergeAt]
  cases template.merge parent <;> rfl

theorem checkKeys_below (base path : Path) (allowed : List String) (members : Fields Value) :
    checkKeys (base.below path) allowed members =
      (checkKeys path allowed members).mapError (.below base) := by
  rw [checkKeys, checkKeys]
  cases members.names.find? (!allowed.contains ·) with
  | none => rfl
  | some key =>
    simp only [Path.field_below]
    rfl

theorem extendedNames_below (base path : Path) (node : Option Value) :
    extendedNames (base.below path) node = (extendedNames path node).mapError (.below base) := by
  unfold extendedNames
  split
  · rfl
  · rfl
  · refine mapM_mapError (fun v => ?_) _
    cases v <;> rfl
  · rfl

theorem extendedModules_below (base path : Path) (node : Option Value) :
    extendedModules ws (base.below path) node =
      (extendedModules ws path node).mapError (.below base) := by
  rw [extendedModules, extendedModules, extendedNames_below, mapError_bind]
  refine bind_congr fun names => mapM_mapError (fun name => ?_) names
  cases ws.modules.get? name <;> rfl

theorem inheritedBindings_below (base path : Path) (modules : List Module) :
    inheritedBindings (base.below path) modules =
      (inheritedBindings path modules).mapError (.below base) := by
  have hmerged := foldlM_mapError (fun b (m : Module) =>
    mergeAt_below base path b (.ofMembers m.scope)) modules (.ofMembers [])
  rw [inheritedBindings, inheritedBindings, hmerged, mapError_bind]
  refine bind_congr fun merged => ?_
  cases merged <;> rfl

theorem combinedBindings_below (base path : Path) (own inherited : Fields Value) :
    combinedBindings (base.below path) own inherited =
      (combinedBindings path own inherited).mapError (.below base) := by
  rw [combinedBindings, combinedBindings, mergeAt_below, mapError_bind]
  refine bind_congr fun merged => ?_
  cases merged <;> rfl

section

variable (h : Relocates resolve)
include h

theorem resolveBindings_below (base path : Path) (node : Value) :
    resolveBindings resolve here (base.below path) scope node =
      (resolveBindings resolve here path scope node).mapError (.below base) := by
  rw [resolveBindings, resolveBindings, h, mapError_bind]
  refine bind_congr fun v => ?_
  cases v <;> rfl

theorem directiveBindings_below (base path : Path) (inherited : Fields Value)
    (node : Option Value) :
    directiveBindings resolve here (base.below path) scope inherited node =
      (directiveBindings resolve here path scope inherited node).mapError (.below base) := by
  cases node with
  | none => rfl
  | some node =>
    simp only [directiveBindings, resolveBindings_below h, combinedBindings_below, mapError_bind]

theorem directive_below (base path : Path) (members : Fields Value) :
    directive ws resolve here (base.below path) scope members =
      (directive ws resolve here path scope members).mapError (.below base) := by
  have hbody (base path : Path) (templates : List Value) (body : Value) :
      templates.foldlM (mergeAt (base.below path)) body =
        (templates.foldlM (mergeAt path) body).mapError (.below base) :=
    foldlM_mapError (mergeAt_below base path) templates body
  simp only [directive, Path.field_below, extendedModules_below, inheritedBindings_below,
    directiveBindings_below h, hbody, mapError_bind, mapError_pure]

theorem rounds_below (base path : Path) (k : Nat) (name : String) (body : Value) (i : Nat)
    (vs : List Value) :
    rounds resolve here k (base.below path) scope name body i vs =
      (rounds resolve here k path scope name body i vs).mapError (.below base) := by
  induction vs generalizing i with
  | nil => rfl
  | cons v vs ih =>
    simp only [rounds, Path.index_below, h ((here.round i).part k), ih, mapError_bind,
      mapError_pure]

theorem iterate_below (base path : Path) (k : Nat) (source name : String) (body : Value) :
    iterate ws resolve here k (base.below path) scope source name body =
      (iterate ws resolve here k path scope source name body).mapError (.below base) := by
  rw [iterate, iterate, evaluate_below, mapError_bind]
  refine bind_congr fun v => ?_
  cases v with
  | array node items => exact rounds_below h base path k name body 0 items
  | _ => rfl

theorem choose_below (base path : Path) (k : Nat) (source : String) (body : Value) :
    choose ws resolve here k (base.below path) scope source body =
      (choose ws resolve here k path scope source body).mapError (.below base) := by
  rw [choose, choose, evaluate_below, mapError_bind]
  refine bind_congr fun test => ?_
  split
  · simp only [h (here.part k), mapError_bind, mapError_pure]
  · rfl

theorem expand_below (base path : Path) (k : Nat) (body : Value) (key : Key) :
    expand ws resolve here k (base.below path) scope body key =
      (expand ws resolve here k path scope body key).map (·.mapError (.below base)) := by
  cases key with
  | iteration source name => exact congrArg some (iterate_below h base path k source name body)
  | conditional source => exact congrArg some (choose_below h base path k source body)
  | _ => rfl

theorem expandItem_below (base path : Path) (item : Value) :
    expandItem ws resolve here (base.below path) scope item =
      (expandItem ws resolve here path scope item).map (·.mapError (.below base)) := by
  unfold expandItem
  split
  · rw [Path.field_below, expand_below h]
  · rfl

theorem resolveItem_below (base path : Path) (item : Value) :
    resolveItem ws resolve here (base.below path) scope item =
      (resolveItem ws resolve here path scope item).mapError (.below base) := by
  rw [resolveItem, resolveItem, expandItem_below h]
  cases expandItem ws resolve here path scope item with
  | none => exact (congrArg _ (h here base path scope item)).trans (mapError_map _ _ _).symm
  | some expansions => exact (mapError_map _ _ _).symm

theorem resolveItems_below (base path : Path) (i : Nat) (items : List Value) :
    resolveItems ws resolve here (base.below path) scope i items =
      (resolveItems ws resolve here path scope i items).mapError (.below base) := by
  induction items generalizing i with
  | nil => rfl
  | cons item items ih =>
    simp only [resolveItems, Path.index_below, resolveItem_below h, ih, mapError_bind,
      mapError_pure]

end

theorem computedName_below (base path : Path) (source : String) :
    computedName ws here (base.below path) scope source =
      (computedName ws here path scope source).mapError (.below base) := by
  rw [computedName, computedName, evaluate_below, mapError_bind]
  refine bind_congr fun name => ?_
  split <;> rfl

/-- The same pieces, of an object further down. -/
def Pieces.below (base : Path) (pieces : Pieces) : Pieces :=
  ⟨pieces.own, pieces.expansions.map fun (path, v) => (base.below path, v)⟩

theorem Pieces.append_below (base : Path) (a b : Pieces) :
    (a.append b).below base = (a.below base).append (b.below base) := by
  simp [append, below]

/-- The same outcome, of members further down. -/
def piecesBelow (base : Path) (pieces : Result Pieces) : Result Pieces :=
  (pieces.map (.below base)).mapError (.below base)

theorem piecesBelow_bind {α : Type} (base : Path) (x : Result α) (f : α → Result Pieces) :
    piecesBelow base (x >>= f) =
      x.mapError (.below base) >>= fun a => piecesBelow base (f a) := by
  cases x <;> rfl

theorem bind_piecesBelow {α : Type} (base : Path) (x : Result Pieces) (f : Pieces → Result α) :
    piecesBelow base x >>= f = x.mapError (.below base) >>= fun pieces => f (pieces.below base) := by
  cases x <;> rfl

/-- Merges an expansion of an object further down. -/
theorem addExpansion_below (base : Path) (object : Value) (expansion : Path × Value) :
    addExpansion object (base.below expansion.1, expansion.2) =
      (addExpansion object expansion).mapError (.below base) := by
  obtain ⟨path, v⟩ := expansion
  cases v with
  | object node members => exact mergeAt_below base path object _
  | _ => rfl

section

variable (h : Relocates resolve)
include h

theorem resolveMember_below (base path : Path) (k : Nat) (key : String) (body : Value) :
    resolveMember ws resolve here k (base.below path) scope key body =
      piecesBelow base (resolveMember ws resolve here k path scope key body) := by
  have hexpansions (vs : List Value) : (⟨[], vs.map (base.below path, ·)⟩ : Pieces) =
      Pieces.below base ⟨[], vs.map (path, ·)⟩ := by
    simp [Pieces.below]
  unfold resolveMember
  split
  · rfl
  · rw [piecesBelow_bind, h]
    rfl
  · rw [piecesBelow_bind, computedName_below]
    refine bind_congr fun name => ?_
    rw [piecesBelow_bind, h]
    rfl
  · rw [piecesBelow_bind, iterate_below h]
    simp only [hexpansions]
    rfl
  · rw [piecesBelow_bind, choose_below h]
    simp only [hexpansions]
    rfl

theorem resolveMembers_below (base path : Path) (k : Nat) (members : List (String × Value)) :
    resolveMembers ws resolve here (base.below path) scope k members =
      piecesBelow base (resolveMembers ws resolve here path scope k members) := by
  induction members generalizing k with
  | nil => rfl
  | cons m members ih =>
    simp only [resolveMembers, Path.field_below, resolveMember_below h, ih, piecesBelow_bind,
      bind_piecesBelow, ← Pieces.append_below]
    rfl

theorem resolveObject_below (base path : Path) (members : Fields Value) :
    resolveObject ws resolve here (base.below path) scope members =
      (resolveObject ws resolve here path scope members).mapError (.below base) := by
  rw [resolveObject, resolveObject, resolveMembers_below h, bind_piecesBelow, mapError_bind]
  refine bind_congr fun pieces => ?_
  rw [Pieces.below, List.foldlM_map]
  exact foldlM_mapError (addExpansion_below base) _ _

theorem relocates_resolveNode : Relocates (resolveNode ws resolve) := by
  intro here base path scope node
  have hsource (source : String) : resolveSource ws here (base.below path) scope source =
      (resolveSource ws here path scope source).mapError (.below base) := by
    rw [resolveSource, resolveSource, evaluate_below, mapError_bind]
    refine bind_congr fun v => ?_
    split <;> rfl
  cases node with
  | string s =>
    simp only [resolveNode]
    split
    · exact hsource _
    · rfl
  | array node items => simp only [resolveNode, resolveItems_below h, mapError_map]
  | object node members =>
    simp only [resolveNode]
    split
    · simp only [checkKeys_below, directive_below h, Path.field_below, h (here.part 1),
        mapError_bind]
    · exact resolveObject_below h base path members
  | _ => rfl

end

/-- What a node comes to does not depend on its place, but for the places of errors. -/
theorem relocates_resolve (ws : Workspace) (depth : Nat) : Relocates (Template.resolve ws depth) := by
  induction depth with
  | zero => exact fun _ _ _ _ _ => rfl
  | succ depth ih => exact relocates_resolveNode ih

theorem Relocates.toOption_eq (h : Relocates resolve) (here : Trail)
    (path path' : Path) (scope : Scope) (node : Value) :
    (resolve here path scope node).toOption = (resolve here path' scope node).toOption := by
  have hroot (path : Path) : (resolve here path scope node).toOption =
      (resolve here .root scope node).toOption := by
    have hbelow := h here path .root scope node
    rw [Path.below_root] at hbelow
    rw [hbelow]
    cases resolve here .root scope node <;> rfl
  rw [hroot path, hroot path']

end Template

end Stencil

import Stencil.Proofs.Eval.Calls
import Stencil.Template.Workspace

/-!
# What resolving asks for

Resolving a node asks for the values of finitely many expressions and for finitely many nodes one
level deeper. So does a whole document, and both pass on the failure that the levels have run out.
-/

namespace Stencil

/-- The levels have run out, of nodes or of an expression. -/
def TemplateError.IsLimit : TemplateError → Prop
  | .eval _ cause => cause.IsLimit
  | _ => False

namespace Template

/-- What resolving is given: an engine for the expressions, and a resolver for nodes one level
deeper. -/
structure Support where
  engine : Engine
  resolve : Resolver

/-- What resolving asks for. -/
inductive Query where
  | expression (here : Trail) (path : Path) (scope : Scope) (source : String)
  | node (here : Trail) (path : Path) (scope : Scope) (v : Value)

def Support.answer (modules : Fields Module) (support : Support) : Query → Result Value
  | .expression here path scope source => evaluate ⟨support.engine, modules⟩ here path scope source
  | .node here path scope v => support.resolve here path scope v

/-- A computation that fails for want of levels only if one of the answers does. -/
abbrev AsksNodes {σ ι γ α : Type} (reply : σ → ι → Except TemplateError γ)
    (f : σ → Result α) : Prop :=
  Asks TemplateError.IsLimit reply f

variable {σ ι γ : Type} {reply : σ → ι → Except TemplateError γ}

theorem asks_checkKeys (path : Path) (allowed : List String) (members : Fields Value) :
    AsksNodes reply fun _ => checkKeys path allowed members := by
  unfold checkKeys
  split
  · exact .error id
  · exact .ok _

theorem asks_mergeAt (path : Path) (template parent : Value) :
    AsksNodes reply fun _ => mergeAt path template parent := by
  unfold mergeAt
  cases template.merge parent with
  | ok v => exact .ok _
  | error conflict => exact .error id

theorem asks_foldlM {α β : Type} {step : β → α → Result β}
    (hstep : ∀ b a, AsksNodes reply fun _ => step b a) (as : List α) (b : β) :
    AsksNodes reply fun _ => as.foldlM step b := by
  induction as generalizing b with
  | nil => exact .ok _
  | cons a as ih =>
    simp only [List.foldlM_cons]
    exact .bind (hstep b a) fun b' => ih b'

theorem asks_mapM {α β : Type} {f : α → Result β} (hf : ∀ a, AsksNodes reply fun _ => f a)
    (as : List α) : AsksNodes reply fun _ => as.mapM f := by
  induction as with
  | nil => exact .ok _
  | cons a as ih =>
    simp only [List.mapM_cons]
    exact .bind (hf a) fun _ => .bind ih fun _ => .ok _

theorem asks_addExpansion (object : Value) (expansion : Path × Value) :
    AsksNodes reply fun _ => addExpansion object expansion := by
  unfold addExpansion
  split
  · exact asks_mergeAt _ _ _
  · exact .ok _
  · exact .error id

theorem asks_extendedModules (ws : Workspace) (path : Path) (node : Option Value) :
    AsksNodes reply fun _ => extendedModules ws path node := by
  unfold extendedModules
  apply Asks.bind
  · unfold extendedNames
    split
    · exact .ok _
    · exact .ok _
    · refine asks_mapM (fun v => ?_) _
      split
      · exact .ok _
      · exact .error id
    · exact .error id
  · intro names
    refine asks_mapM (fun name => ?_) _
    split
    · exact .ok _
    · exact .error id

theorem asks_inheritedBindings (path : Path) (modules : List Module) :
    AsksNodes reply fun _ => inheritedBindings path modules := by
  unfold inheritedBindings
  apply Asks.bind (asks_foldlM (fun _ _ => asks_mergeAt _ _ _) _ _)
  intro merged
  split
  · exact .ok _
  · exact .ok _

theorem asks_combinedBindings (path : Path) (own inherited : Fields Value) :
    AsksNodes reply fun _ => combinedBindings path own inherited := by
  unfold combinedBindings
  apply Asks.bind (asks_mergeAt _ _ _)
  intro merged
  split
  · exact .ok _
  · exact .ok _

section

variable {support : σ → Support} {modules : Fields Module} {here : Trail} {path : Path}
  {scope : Scope}
  (hsupport : ∀ q, AsksNodes reply fun s => (support s).answer modules q)
include hsupport

theorem asks_evaluate (here : Trail) (path : Path) (scope : Scope) (source : String) :
    AsksNodes reply fun s => evaluate ⟨(support s).engine, modules⟩ here path scope source :=
  hsupport (.expression here path scope source)

theorem asks_resolve (here : Trail) (path : Path) (scope : Scope) (v : Value) :
    AsksNodes reply fun s => (support s).resolve here path scope v :=
  hsupport (.node here path scope v)

theorem asks_rounds (k : Nat) (name : String) (body : Value) (i : Nat) (vs : List Value) :
    AsksNodes reply fun s => rounds (support s).resolve here k path scope name body i vs := by
  induction vs generalizing i with
  | nil => exact .ok _
  | cons v vs ih =>
    apply Asks.bind (asks_resolve hsupport _ _ _ body)
    intro result
    exact .bind (ih (i + 1)) fun _ => .ok _

theorem asks_iterate (k : Nat) (source name : String) (body : Value) :
    AsksNodes reply fun s =>
      iterate ⟨(support s).engine, modules⟩ (support s).resolve here k path scope source name
        body := by
  apply Asks.bind (asks_evaluate hsupport _ path scope source)
  intro v
  split
  · exact asks_rounds hsupport _ _ _ _ _
  · exact .error id

theorem asks_choose (k : Nat) (source : String) (body : Value) :
    AsksNodes reply fun s =>
      choose ⟨(support s).engine, modules⟩ (support s).resolve here k path scope source body := by
  apply Asks.bind (asks_evaluate hsupport _ path scope source)
  intro test
  split
  · exact .bind (asks_resolve hsupport _ _ _ body) fun _ => .ok _
  · exact .ok _

/-- Whether an item expands depends on its key alone. -/
theorem asks_expandItem (here : Trail) (path : Path) (scope : Scope) (item : Value) :
    (∀ s, expandItem ⟨(support s).engine, modules⟩ (support s).resolve here path scope item =
      none) ∨
    ∃ f, AsksNodes reply f ∧ ∀ s,
      expandItem ⟨(support s).engine, modules⟩ (support s).resolve here path scope item =
        some (f s) := by
  unfold expandItem
  split
  · rename_i key body
    cases classify key with
    | iteration source name => exact .inr ⟨_, asks_iterate hsupport 0 source name body, fun _ => rfl⟩
    | conditional source => exact .inr ⟨_, asks_choose hsupport 0 source body, fun _ => rfl⟩
    | _ => exact .inl fun _ => rfl
  · exact .inl fun _ => rfl

theorem asks_resolveItem (here : Trail) (path : Path) (item : Value) :
    AsksNodes reply fun s =>
      resolveItem ⟨(support s).engine, modules⟩ (support s).resolve here path scope item := by
  unfold resolveItem
  rcases asks_expandItem hsupport here path scope item with hnone | ⟨f, hf, hsome⟩
  · simp only [hnone]
    exact (asks_resolve hsupport _ _ _ _).map _
  · simp only [hsome]
    exact hf.map _

theorem asks_resolveItems (i : Nat) (items : List Value) :
    AsksNodes reply fun s =>
      resolveItems ⟨(support s).engine, modules⟩ (support s).resolve here path scope i items := by
  induction items generalizing i with
  | nil => exact .ok _
  | cons item items ih =>
    apply Asks.bind (asks_resolveItem hsupport _ _ item)
    intro elements
    exact .bind (ih (i + 1)) fun _ => .ok _

theorem asks_resolveMember (k : Nat) (path : Path) (key : String) (body : Value) :
    AsksNodes reply fun s =>
      resolveMember ⟨(support s).engine, modules⟩ (support s).resolve here k path scope key
        body := by
  unfold resolveMember
  split
  · exact .ok _
  · exact .bind (asks_resolve hsupport _ _ _ _) fun _ => .ok _
  · apply Asks.bind
    · apply Asks.bind (asks_evaluate hsupport _ _ _ _)
      intro name
      split
      · exact .error id
      · exact .ok _
    · exact fun name => .bind (asks_resolve hsupport _ _ _ _) fun _ => .ok _
  · exact .bind (asks_iterate hsupport _ _ _ _) fun _ => .ok _
  · exact .bind (asks_choose hsupport _ _ _) fun _ => .ok _

theorem asks_resolveMembers (k : Nat) (members : List (String × Value)) :
    AsksNodes reply fun s =>
      resolveMembers ⟨(support s).engine, modules⟩ (support s).resolve here path scope k
        members := by
  induction members generalizing k with
  | nil => exact .ok _
  | cons m members ih =>
    apply Asks.bind (asks_resolveMember hsupport _ _ _ _)
    intro piece
    exact .bind (ih (k + 1)) fun _ => .ok _

theorem asks_resolveObject (members : Fields Value) :
    AsksNodes reply fun s =>
      resolveObject ⟨(support s).engine, modules⟩ (support s).resolve here path scope members := by
  unfold resolveObject
  apply Asks.bind (asks_resolveMembers hsupport _ _)
  intro pieces
  exact asks_foldlM asks_addExpansion _ _

theorem asks_resolveBindings (here : Trail) (path : Path) (scope : Scope) (node : Value) :
    AsksNodes reply fun s => resolveBindings (support s).resolve here path scope node := by
  unfold resolveBindings
  apply Asks.bind (asks_resolve hsupport _ _ _ node)
  intro v
  split
  · exact .ok _
  · exact .error id

theorem asks_directiveBindings (here : Trail) (path : Path) (inherited : Fields Value)
    (node : Option Value) :
    AsksNodes reply fun s =>
      directiveBindings (support s).resolve here path scope inherited node := by
  cases node with
  | none => exact .ok _
  | some node =>
    apply Asks.bind (asks_resolveBindings hsupport _ _ _ node)
    intro own
    exact asks_combinedBindings _ _ _

theorem asks_directive (here : Trail) (path : Path) (scope : Scope) (members : Fields Value) :
    AsksNodes reply fun s =>
      directive ⟨(support s).engine, modules⟩ (support s).resolve here path scope members := by
  unfold directive
  apply Asks.bind (asks_extendedModules ⟨⟨.empty, 0⟩, modules⟩ _ _)
  intro extended
  apply Asks.bind (asks_inheritedBindings _ _)
  intro inherited
  apply Asks.bind (asks_directiveBindings hsupport _ _ _ _)
  intro bindings
  apply Asks.bind (asks_foldlM (fun _ _ => asks_mergeAt _ _ _) _ _)
  intro body
  exact .ok _

theorem asks_resolveNode (here : Trail) (path : Path) (scope : Scope) (v : Value) :
    AsksNodes reply fun s =>
      resolveNode ⟨(support s).engine, modules⟩ (support s).resolve here path scope v := by
  cases v with
  | string text =>
    simp only [resolveNode]
    split
    · apply Asks.bind (asks_evaluate hsupport _ _ _ _)
      intro v
      split
      · exact .error id
      · exact .ok _
    · exact .ok _
  | array node items => exact (asks_resolveItems hsupport 0 items).map _
  | object node members =>
    simp only [resolveNode]
    split
    · apply Asks.bind (asks_checkKeys _ _ _)
      intro _
      apply Asks.bind (asks_directive hsupport _ _ _ _)
      intro opened
      exact asks_resolve hsupport _ _ _ _
    · exact asks_resolveObject hsupport _
  | _ => exact .ok _

theorem asks_output (here : Trail) (path : Path) (scope : Scope) (body : Value) :
    AsksNodes reply fun s => output (support s).resolve here path scope body := by
  unfold output
  apply Asks.bind (asks_resolve hsupport _ _ _ body)
  intro v
  cases v.stripNulls.toJson with
  | ok json => exact .ok _
  | error kind => exact .error id

theorem asks_fanOut (fileName body : Value) (outputs : Fields Json) (i : Nat) (vs : List Value) :
    AsksNodes reply fun s => fanOut (support s).resolve scope fileName body outputs i vs := by
  induction vs generalizing outputs i with
  | nil => exact .ok _
  | cons v vs ih =>
    unfold fanOut
    apply Asks.bind (asks_resolve hsupport _ _ _ fileName)
    intro name
    apply Asks.bind (asks_output hsupport _ _ _ body)
    intro json
    split
    · exact .error id
    · exact ih _ _

theorem asks_documentOutputs (name : String) (scope : Scope) (body : Value)
    (files : Option Value) :
    AsksNodes reply fun s => documentOutputs (support s).resolve name scope body files := by
  cases files with
  | none => exact .bind (asks_output hsupport _ _ _ body) fun _ => .ok _
  | some node =>
    apply Asks.bind
    · unfold filesOf
      split
      · split
        · exact .ok _
        · exact .error id
      · exact .error id
    · intro files
      apply Asks.bind
      · apply Asks.bind (asks_resolve hsupport _ _ _ _)
        intro v
        split
        · exact .ok _
        · exact .error id
      · exact fun items => asks_fanOut hsupport _ _ _ _ _

end

theorem asks_readObject (name text : String) : AsksNodes reply fun _ => readObject name text := by
  unfold readObject
  split
  · exact .error id
  · split
    · exact .ok _
    · exact .error id

end Template

end Stencil

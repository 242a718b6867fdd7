import Stencil.Proofs.Eval.Limit
import Stencil.Proofs.Template.Calls

/-!
# The limit on nodes

Trees of calls for nodes, as `Yields` is for expressions. Without a cutoff they lead to what
resolving comes to if it does not fail with the limit; cut off by that failure they lead to what it
comes to at all. The same holds of a document, which takes finitely many nodes.
-/

namespace Stencil.Template

open Eval (Yields levelAt yields_of_answer answer_of_yields)

/-- The outcome of a node, or of an expression, by a finite tree of calls, with at most `height`
nodes one inside the other and at most `limit` levels in each expression. -/
inductive Resolves (r : Registry) (modules : Fields Module) (limit : Nat)
    (cutoff : Option EvalError) : (height : Nat) → Query → Result Value → Prop
  | unparsed {height here path scope source e} : Expr.ofSource source = .error e →
      Resolves r modules limit cutoff height (.expression here path scope source)
        (.error (.eval path e))
  | evaluated {height here path scope source e o} : Expr.ofSource source = .ok e →
      Yields r cutoff limit (.evaluate here e scope) o →
      Resolves r modules limit cutoff height (.expression here path scope source)
        (o.mapError (.eval path))
  | cut {here path scope v e} : cutoff = some e →
      Resolves r modules limit cutoff 0 (.node here path scope v) (.error (.eval path e))
  | resolved {height here path scope v o} (calls : List (Query × Result Value)) :
      (∀ c ∈ calls, Resolves r modules limit cutoff height c.1 c.2) →
      Determines (Support.answer modules)
        (fun support => resolveNode ⟨support.engine, modules⟩ support.resolve here path scope v)
        calls o →
      Resolves r modules limit cutoff (height + 1) (.node here path scope v) o

/-- What nodes are resolved with that have `depth` levels left. -/
def supportAt (r : Registry) (modules : Fields Module) (limit depth : Nat) : Support :=
  ⟨⟨r, limit⟩, resolve ⟨⟨r, limit⟩, modules⟩ depth⟩

variable {r : Registry} {modules : Fields Module} {limit depth height : Nat} {here : Trail}
  {path : Path} {scope : Scope} {source : String} {q : Query} {o : Result Value}

theorem answer_of_unparsed {e : EvalError} (h : Expr.ofSource source = .error e) :
    (supportAt r modules limit depth).answer modules (.expression here path scope source) =
      .error (.eval path e) := by
  simp only [Support.answer, supportAt, evaluate, Engine.run, h]
  rfl

theorem answer_of_parsed {e : Expr} (h : Expr.ofSource source = .ok e) :
    (supportAt r modules limit depth).answer modules (.expression here path scope source) =
      ((levelAt r limit limit).answer (.evaluate here e scope)).mapError (.eval path) := by
  simp only [Support.answer, supportAt, evaluate, Engine.run, h]
  rfl

theorem not_isPassedOn_of_ofSource {e : EvalError} (h : Expr.ofSource source = .error e) :
    ¬ e.IsPassedOn := by
  rw [Expr.ofSource] at h
  cases htokens : tokenize source with
  | error fault =>
    rw [htokens] at h
    rw [← Except.error.inj h]
    exact id
  | ok tokens =>
    rw [htokens] at h
    change (parse tokens Parser.defaultLimit).mapError EvalError.parse = .error e at h
    cases hparse : parse tokens Parser.defaultLimit with
    | error fault =>
      rw [hparse] at h
      rw [← Except.error.inj h]
      exact id
    | ok e' =>
      rw [hparse] at h
      cases h

theorem avoids_mapError {o : Outcome} :
    Avoids TemplateError.IsLimit (o.mapError (.eval path)) ↔ Avoids EvalError.IsLimit o := by
  cases o <;> simp [Avoids, Except.mapError, TemplateError.IsLimit]

theorem asks_resolveNode_self (here : Trail) (path : Path) (scope : Scope) (v : Value) :
    AsksNodes (Support.answer modules) fun support =>
      resolveNode ⟨support.engine, modules⟩ support.resolve here path scope v :=
  asks_resolveNode (fun q => .call q) here path scope v

/-- An expression takes no level of nodes. -/
theorem resolves_cutoff_of_expression (hr : r.AsksCallbacks) :
    Resolves r modules limit (some (.recursionLimit limit)) height
      (.expression here path scope source)
      ((supportAt r modules limit depth).answer modules (.expression here path scope source)) := by
  cases hsource : Expr.ofSource source with
  | error e =>
    rw [answer_of_unparsed hsource]
    exact .unparsed hsource
  | ok e =>
    rw [answer_of_parsed hsource]
    exact .evaluated hsource ((Eval.yields_cutoff_iff hr).mpr rfl)

/-- Resolving comes to what the trees of calls lead to that the limit cuts off. -/
theorem resolves_cutoff_iff (hr : r.AsksCallbacks) :
    Resolves r modules limit (some (.recursionLimit limit)) depth q o ↔
      (supportAt r modules limit depth).answer modules q = o := by
  constructor
  · intro h
    induction h with
    | unparsed hsource => exact answer_of_unparsed hsource
    | evaluated hsource hyields =>
      rw [answer_of_parsed hsource, (Eval.yields_cutoff_iff hr).mp hyields]
    | cut hcutoff =>
      rw [← Option.some.inj hcutoff]
      rfl
    | resolved calls _ hdetermines ih => exact hdetermines (supportAt r modules limit _) ih
  · rintro rfl
    induction depth generalizing q with
    | zero =>
      cases q with
      | expression here path scope source => exact resolves_cutoff_of_expression hr
      | node here path scope v => exact .cut rfl
    | succ depth ih =>
      cases q with
      | expression here path scope source => exact resolves_cutoff_of_expression hr
      | node here path scope v =>
        obtain ⟨calls, hcalls, hdetermines⟩ :=
          (asks_resolveNode_self here path scope v).exists_determines
            (supportAt r modules limit depth)
        exact .resolved calls (fun c hc => (hcalls c hc).1 ▸ ih) hdetermines

theorem answer_of_resolves (h : Resolves r modules limit none height q o) {limit' : Nat}
    (hlimit : limit ≤ limit') (hdepth : height ≤ depth) :
    (supportAt r modules limit' depth).answer modules q = o := by
  induction h generalizing depth with
  | unparsed hsource => exact answer_of_unparsed hsource
  | evaluated hsource hyields =>
    rw [answer_of_parsed hsource, answer_of_yields hyields _ hlimit]
  | cut hcutoff => cases hcutoff
  | resolved calls _ hdetermines ih =>
    obtain ⟨depth, rfl⟩ : ∃ d, depth = d + 1 := ⟨depth - 1, by omega⟩
    exact hdetermines (supportAt r modules limit' depth) fun c hc => ih c hc (by omega)

theorem eq_limit_of_expression (hr : r.AsksCallbacks) {e : TemplateError}
    (h : (supportAt r modules limit depth).answer modules (.expression here path scope source) =
      .error e) (he : e.IsLimit) : e = .eval path (.recursionLimit limit) := by
  cases hsource : Expr.ofSource source with
  | error cause =>
    rw [answer_of_unparsed hsource] at h
    rw [← Except.error.inj h] at he
    exact absurd (EvalError.isPassedOn_iff.mpr (.inl he)) (not_isPassedOn_of_ofSource hsource)
  | ok e' =>
    rw [answer_of_parsed hsource] at h
    cases hanswer : (levelAt r limit limit).answer (.evaluate here e' scope) with
    | ok v => simp [hanswer, Except.mapError] at h
    | error cause =>
      rw [hanswer] at h
      rw [← Except.error.inj h] at he ⊢
      rw [Eval.eq_limit_of_answer hr hanswer he]

/-- The limit that is reported is the one in force. -/
theorem eq_limit_of_answer (hr : r.AsksCallbacks) {e : TemplateError}
    (h : (supportAt r modules limit depth).answer modules q = .error e) (he : e.IsLimit) :
    ∃ path, e = .eval path (.recursionLimit limit) := by
  induction depth generalizing q with
  | zero =>
    cases q with
    | expression here path scope source => exact ⟨path, eq_limit_of_expression hr h he⟩
    | node here path scope v => exact ⟨path, (Except.error.inj h).symm⟩
  | succ depth ih =>
    cases q with
    | expression here path scope source => exact ⟨path, eq_limit_of_expression hr h he⟩
    | node here path scope v =>
      obtain ⟨q', hq'⟩ := (asks_resolveNode_self here path scope v).exists_error
        (s := supportAt r modules limit depth) h he
      exact ih hq'

theorem avoids_of_resolves (hr : r.AsksCallbacks) (h : Resolves r modules limit none height q o) :
    Avoids TemplateError.IsLimit o := by
  rintro e rfl he
  -- As for expressions: the outcome is the same for a higher limit.
  obtain ⟨path, hsame⟩ := eq_limit_of_answer hr
    (answer_of_resolves h (Nat.le_refl _) (Nat.le_refl _)) he
  obtain ⟨path', hhigher⟩ := eq_limit_of_answer hr
    (answer_of_resolves h (Nat.le_succ limit) (Nat.le_refl _)) he
  simp [hsame] at hhigher

theorem resolves_of_expression (hr : r.AsksCallbacks)
    (h : Avoids TemplateError.IsLimit
      ((supportAt r modules limit depth).answer modules (.expression here path scope source))) :
    Resolves r modules limit none height (.expression here path scope source)
      ((supportAt r modules limit depth).answer modules (.expression here path scope source)) := by
  cases hsource : Expr.ofSource source with
  | error e =>
    rw [answer_of_unparsed hsource]
    exact .unparsed hsource
  | ok e =>
    rw [answer_of_parsed hsource] at h ⊢
    exact .evaluated hsource (yields_of_answer hr (avoids_mapError.mp h))

theorem resolves_of_answer (hr : r.AsksCallbacks)
    (h : Avoids TemplateError.IsLimit ((supportAt r modules limit depth).answer modules q)) :
    Resolves r modules limit none depth q ((supportAt r modules limit depth).answer modules q) := by
  induction depth generalizing q with
  | zero =>
    cases q with
    | expression here path scope source => exact resolves_of_expression hr h
    | node here path scope v => exact absurd trivial (h _ rfl)
  | succ depth ih =>
    cases q with
    | expression here path scope source => exact resolves_of_expression hr h
    | node here path scope v =>
      obtain ⟨calls, hcalls, hdetermines⟩ :=
        (asks_resolveNode_self here path scope v).exists_determines
          (supportAt r modules limit depth)
      refine .resolved calls (fun c hc => ?_) hdetermines
      obtain ⟨hanswer, havoids⟩ := hcalls c hc
      rw [← hanswer] at havoids ⊢
      exact ih (havoids h)

theorem resolves_iff (hr : r.AsksCallbacks) :
    Resolves r modules limit none depth q o ↔
      (supportAt r modules limit depth).answer modules q = o ∧ Avoids TemplateError.IsLimit o := by
  constructor
  · exact fun h =>
      ⟨answer_of_resolves h (Nat.le_refl _) (Nat.le_refl _), avoids_of_resolves hr h⟩
  · rintro ⟨rfl, h⟩
    exact resolves_of_answer hr h

/-- Resolving fails with the limit exactly if no tree of calls of that height leads anywhere. -/
theorem answer_eq_limit_iff (hr : r.AsksCallbacks) :
    (∃ path, (supportAt r modules limit depth).answer modules q =
        .error (.eval path (.recursionLimit limit))) ↔
      ∀ o, ¬ Resolves r modules limit none depth q o := by
  rw [forall_not_iff_of_avoids fun o => resolves_iff hr]
  constructor
  · exact fun ⟨path, h⟩ => ⟨_, h, trivial⟩
  · rintro ⟨e, he, hlimit⟩
    obtain ⟨path, rfl⟩ := eq_limit_of_answer hr he hlimit
    exact ⟨path, he⟩

/-- The outcome of a document: that of finitely many nodes determines it. -/
def Compiles (r : Registry) (modules : Fields Module) (limit : Nat) (cutoff : Option EvalError)
    (name text : String) (scope : Scope) (outcome : Result (Fields Json)) : Prop :=
  ∃ calls : List (Query × Result Value),
    (∀ c ∈ calls, Resolves r modules limit cutoff limit c.1 c.2) ∧
    Determines (fun limit => (supportAt r modules limit limit).answer modules)
      (fun limit => Workspace.compileDocument ⟨⟨r, limit⟩, modules⟩ name text scope) calls outcome

variable {name text : String} {outcome : Result (Fields Json)}

theorem asks_compileDocument (r : Registry) (modules : Fields Module) (name text : String)
    (scope : Scope) :
    AsksNodes (fun limit => (supportAt r modules limit limit).answer modules)
      fun limit => Workspace.compileDocument ⟨⟨r, limit⟩, modules⟩ name text scope := by
  have hsupport (q : Query) : AsksNodes (fun limit => (supportAt r modules limit limit).answer modules)
      fun limit => (supportAt r modules limit limit).answer modules q := .call q
  apply Asks.bind (asks_readObject name text)
  intro members
  apply Asks.bind (asks_checkKeys _ _ _)
  intro _
  split
  · exact .error id
  · apply Asks.bind (asks_directive hsupport _ _ _ _)
    intro opened
    exact asks_documentOutputs hsupport _ _ _ _

theorem compileDocument_of_compiles (h : Compiles r modules limit none name text scope outcome)
    {limit' : Nat} (hlimit : limit ≤ limit') :
    Workspace.compileDocument ⟨⟨r, limit'⟩, modules⟩ name text scope = outcome := by
  obtain ⟨calls, hcalls, hdetermines⟩ := h
  exact hdetermines limit' fun c hc => answer_of_resolves (hcalls c hc) hlimit hlimit

theorem eq_limit_of_compileDocument (hr : r.AsksCallbacks) {e : TemplateError}
    (h : Workspace.compileDocument ⟨⟨r, limit⟩, modules⟩ name text scope = .error e)
    (he : e.IsLimit) : ∃ path, e = .eval path (.recursionLimit limit) := by
  obtain ⟨q, hq⟩ := (asks_compileDocument r modules name text scope).exists_error h he
  exact eq_limit_of_answer hr hq he

/-- A document comes to what the trees of calls lead to that the limit cuts off. -/
theorem compiles_cutoff_iff (hr : r.AsksCallbacks) :
    Compiles r modules limit (some (.recursionLimit limit)) name text scope outcome ↔
      Workspace.compileDocument ⟨⟨r, limit⟩, modules⟩ name text scope = outcome := by
  constructor
  · rintro ⟨calls, hcalls, hdetermines⟩
    exact hdetermines limit fun c hc => (resolves_cutoff_iff hr).mp (hcalls c hc)
  · rintro rfl
    obtain ⟨calls, hcalls, hdetermines⟩ :=
      (asks_compileDocument r modules name text scope).exists_determines limit
    exact ⟨calls, fun c hc => (resolves_cutoff_iff hr).mpr (hcalls c hc).1, hdetermines⟩

theorem compiles_of_compileDocument (hr : r.AsksCallbacks)
    (h : Avoids TemplateError.IsLimit
      (Workspace.compileDocument ⟨⟨r, limit⟩, modules⟩ name text scope)) :
    Compiles r modules limit none name text scope
      (Workspace.compileDocument ⟨⟨r, limit⟩, modules⟩ name text scope) := by
  obtain ⟨calls, hcalls, hdetermines⟩ :=
    (asks_compileDocument r modules name text scope).exists_determines limit
  refine ⟨calls, fun c hc => ?_, hdetermines⟩
  obtain ⟨hanswer, havoids⟩ := hcalls c hc
  rw [← hanswer] at havoids ⊢
  exact resolves_of_answer hr (havoids h)

theorem avoids_of_compiles (hr : r.AsksCallbacks)
    (h : Compiles r modules limit none name text scope outcome) :
    Avoids TemplateError.IsLimit outcome := by
  rintro e rfl he
  obtain ⟨path, hsame⟩ := eq_limit_of_compileDocument hr
    (compileDocument_of_compiles h (Nat.le_refl _)) he
  obtain ⟨path', hhigher⟩ := eq_limit_of_compileDocument hr
    (compileDocument_of_compiles h (Nat.le_succ limit)) he
  simp [hsame] at hhigher

theorem compiles_iff (hr : r.AsksCallbacks) :
    Compiles r modules limit none name text scope outcome ↔
      Workspace.compileDocument ⟨⟨r, limit⟩, modules⟩ name text scope = outcome ∧
        Avoids TemplateError.IsLimit outcome := by
  constructor
  · exact fun h => ⟨compileDocument_of_compiles h (Nat.le_refl _), avoids_of_compiles hr h⟩
  · rintro ⟨rfl, h⟩
    exact compiles_of_compileDocument hr h

/-- A document fails with the limit exactly if no trees of calls lead anywhere. -/
theorem compileDocument_eq_limit_iff (hr : r.AsksCallbacks) :
    (∃ path, Workspace.compileDocument ⟨⟨r, limit⟩, modules⟩ name text scope =
        .error (.eval path (.recursionLimit limit))) ↔
      ∀ outcome, ¬ Compiles r modules limit none name text scope outcome := by
  rw [forall_not_iff_of_avoids fun outcome => compiles_iff hr]
  constructor
  · exact fun ⟨path, h⟩ => ⟨_, h, trivial⟩
  · rintro ⟨e, he, hlimit⟩
    obtain ⟨path, rfl⟩ := eq_limit_of_compileDocument hr he hlimit
    exact ⟨path, he⟩

end Stencil.Template

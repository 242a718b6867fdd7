import Stencil.Builtin
import Stencil.Json.Equality
import Stencil.Proofs.Eval.Calls
import Stencil.Proofs.Template.Callables
import Stencil.Proofs.Template.Documents
import Stencil.Proofs.Template.Evaluations

/-!
# Where failures point

The failure of a document with plain keys, if it is one of evaluation and not that of the limit, is
the failure of an expression in it, and its path leads to this expression. There is one exception: a
callable inside the array or object that an expression makes is only found when the body is turned
into JSON, and then the path leads to the body and not to the expression inside it.
-/

namespace Stencil

namespace Template

/-- An expression fails, or its value is a callable, which is neither a part of a document nor the
name of one. -/
def Evaluation.Rejected (ws : Workspace) (e : Evaluation) (cause : EvalError) : Prop :=
  e.outcome ws = .error cause ∨
  ∃ v, e.outcome ws = .ok v ∧ v.isCallable ∧
    (cause = .type (.stored v.kind) ∨ cause = .type (.key v.kind))

/-- A failure of evaluation, other than that of the limit, is that of one of the evaluations `E`,
and has its path. -/
def FailsIn {α : Type} (ws : Workspace) (E : Evaluation → Prop) (x : Result α) : Prop :=
  ∀ path cause, x = .error (.eval path cause) → ¬ cause.IsLimit →
    ∃ e, E e ∧ e.path = path ∧ e.Rejected ws cause

variable {ws : Workspace} {resolve : Resolver} {here : Trail} {path : Path} {scope : Scope}

namespace FailsIn

variable {α β : Type} {E E' : Evaluation → Prop}

theorem ok (a : α) : FailsIn ws E (.ok a) :=
  fun _ _ h => nomatch h

theorem invalid (path : Path) (fault : TemplateFault) :
    FailsIn ws E (.error (.invalid path fault) : Result α) := by
  intro path' cause h
  cases h

theorem mono {x : Result α} (h : FailsIn ws E x) (hE : ∀ e, E e → E' e) : FailsIn ws E' x := by
  intro path cause hx hlimit
  obtain ⟨e, he, hpath, hrejected⟩ := h path cause hx hlimit
  exact ⟨e, hE e he, hpath, hrejected⟩

theorem bind {x : Result α} {f : α → Result β} (hx : FailsIn ws E x)
    (hf : ∀ a, x = .ok a → FailsIn ws E (f a)) : FailsIn ws E (x >>= f) := by
  cases x with
  | error e => exact fun path cause h => hx path cause (congrArg Except.error (Except.error.inj h))
  | ok a => exact hf a rfl

theorem map {x : Result α} (h : FailsIn ws E x) (f : α → β) : FailsIn ws E (x.map f) := by
  cases x with
  | error e => exact fun path cause hx => h path cause (congrArg Except.error (Except.error.inj hx))
  | ok a => exact .ok _

theorem checkKeys (path : Path) (allowed : List String) (members : Fields Value) :
    FailsIn ws E (checkKeys path allowed members) := by
  rw [Template.checkKeys]
  cases members.names.find? (!allowed.contains ·) with
  | some key => exact .invalid _ _
  | none => exact .ok ()

end FailsIn

variable {E : Evaluation → Prop}

/-- An expression of which something is made, unless its value is a callable. -/
theorem failsIn_expression {α : Type} {source : String} {fault : Value.Kind → TypeFault}
    (hfault : fault = .stored ∨ fault = .key) (f : Value → α)
    (hE : E ⟨here, path, scope, source⟩) :
    FailsIn ws E (do
      let v ← evaluate ws here path scope source
      if v.isCallable then .error (.eval path (.type (fault v.kind))) else return f v) := by
  intro path' cause h _
  refine ⟨_, hE, ?_⟩
  rw [evaluate] at h
  cases hrun : ws.engine.run here source scope with
  | error e =>
    rw [hrun] at h
    obtain ⟨rfl, rfl⟩ := TemplateError.eval.inj (Except.error.inj h)
    exact ⟨rfl, .inl hrun⟩
  | ok v =>
    rw [hrun] at h
    simp only [Except.mapError, bind, Except.bind] at h
    split at h
    · rename_i hcallable
      obtain ⟨rfl, rfl⟩ := TemplateError.eval.inj (Except.error.inj h)
      refine ⟨rfl, .inr ⟨v, hrun, hcallable, ?_⟩⟩
      rcases hfault with rfl | rfl
      · exact .inl rfl
      · exact .inr rfl
    · cases h

theorem failsIn_resolveSource {source : String} (hE : E ⟨here, path, scope, source⟩) :
    FailsIn ws E (resolveSource ws here path scope source) :=
  failsIn_expression (.inl rfl) Value.deepCopy hE

theorem failsIn_computedName {source : String} (hE : E ⟨here, path, scope, source⟩) :
    FailsIn ws E (computedName ws here path scope source) :=
  failsIn_expression (.inr rfl) Value.text hE

theorem failsIn_resolveItem {item : Value} (hkeys : item.EveryKey PlainKey)
    (h : FailsIn ws E (resolve here path scope item)) :
    FailsIn ws E (resolveItem ws resolve here path scope item) := by
  have hnone : expandItem ws resolve here path scope item = none := by
    cases item with
    | object mark members =>
      refine expandItem_eq_none fun key body hmembers => ?_
      subst hmembers
      exact (hkeys.key List.mem_cons_self).not_isExpansion
    | _ => rfl
  rw [resolveItem, hnone]
  exact h.map _

theorem failsIn_resolveItems {items : List Value} (hkeys : ∀ item ∈ items, item.EveryKey PlainKey)
    (i : Nat) (h : ∀ j item, items[j]? = some item →
      FailsIn ws E (resolve (here.part (i + j)) (path.index (i + j)) scope item)) :
    FailsIn ws E (resolveItems ws resolve here path scope i items) := by
  induction items generalizing i with
  | nil => exact .ok _
  | cons item items ih =>
    apply (failsIn_resolveItem (hkeys item List.mem_cons_self) (h 0 item rfl)).bind
    intro elements _
    refine (ih (fun item hitem => hkeys item (List.mem_cons_of_mem _ hitem)) (i + 1) ?_).bind
      fun _ _ => .ok _
    intro j item' hj
    rw [Nat.add_right_comm]
    exact h (j + 1) item' hj

theorem failsIn_resolveMember {k : Nat} {key : String} {body : Value} (hkey : PlainKey key)
    (hcomputed : ∀ source, classify key = .computed source →
      E ⟨here.key k, path, scope, source⟩)
    (hbody : FailsIn ws E (resolve (here.part k) path scope body)) :
    FailsIn ws E (resolveMember ws resolve here k path scope key body) := by
  have hplain := hkey.not_isExpansion
  rw [resolveMember]
  cases hclass : classify key with
  | comment => exact .ok _
  | literal => exact hbody.bind fun _ _ => .ok _
  | computed source =>
    exact (failsIn_computedName (hcomputed source hclass)).bind fun _ _ =>
      hbody.bind fun _ _ => .ok _
  | iteration | conditional => simp [hclass, Key.isExpansion] at hplain

/-- Members whose keys do not expand give an object its own members only. -/
theorem expansions_of_resolveMember {k : Nat} {key : String} {body : Value} {pieces : Pieces}
    (hkey : PlainKey key) (h : resolveMember ws resolve here k path scope key body = .ok pieces) :
    pieces.expansions = [] := by
  have hplain := hkey.not_isExpansion
  rw [resolveMember] at h
  cases hclass : classify key with
  | comment =>
    simp only [hclass, Except.ok.injEq] at h
    rw [← h]
  | literal =>
    simp only [hclass, bind_eq_ok, pure_eq_ok] at h
    obtain ⟨v, -, rfl⟩ := h
    rfl
  | computed source =>
    simp only [hclass, bind_eq_ok, pure_eq_ok] at h
    obtain ⟨name, -, v, -, rfl⟩ := h
    rfl
  | iteration | conditional => simp [hclass, Key.isExpansion] at hplain

theorem failsIn_resolveMembers {members : List (String × Value)}
    (hkeys : ∀ m ∈ members, PlainKey m.1) (k : Nat)
    (hcomputed : ∀ j key body source, members[j]? = some (key, body) →
      classify key = .computed source → E ⟨here.key (k + j), path.field key, scope, source⟩)
    (hbody : ∀ j key body, members[j]? = some (key, body) →
      FailsIn ws E (resolve (here.part (k + j)) (path.field key) scope body)) :
    FailsIn ws E (resolveMembers ws resolve here path scope k members) := by
  induction members generalizing k with
  | nil => exact .ok _
  | cons m members ih =>
    obtain ⟨key, body⟩ := m
    apply (failsIn_resolveMember (hkeys _ List.mem_cons_self)
      (fun source => hcomputed 0 key body source rfl) (hbody 0 key body rfl)).bind
    intro piece _
    refine (ih (fun m hm => hkeys m (List.mem_cons_of_mem _ hm)) (k + 1) ?_ ?_).bind
      fun _ _ => .ok _
    · intro j key' body' source hj
      rw [Nat.add_right_comm]
      exact hcomputed (j + 1) key' body' source hj
    · intro j key' body' hj
      rw [Nat.add_right_comm]
      exact hbody (j + 1) key' body' hj

theorem expansions_of_resolveMembers {members : List (String × Value)}
    (hkeys : ∀ m ∈ members, PlainKey m.1) {k : Nat} {pieces : Pieces}
    (h : resolveMembers ws resolve here path scope k members = .ok pieces) :
    pieces.expansions = [] := by
  induction members generalizing k pieces with
  | nil => rw [← Except.ok.inj h]
  | cons m members ih =>
    obtain ⟨key, body⟩ := m
    simp only [resolveMembers, bind_eq_ok, pure_eq_ok] at h
    obtain ⟨piece, hpiece, rest, hrest, rfl⟩ := h
    have hfirst := expansions_of_resolveMember (hkeys _ List.mem_cons_self) hpiece
    have hothers := ih (fun m hm => hkeys m (List.mem_cons_of_mem _ hm)) hrest
    rw [Pieces.append, hfirst, hothers, List.nil_append]

theorem failsIn_resolveObject {members : Fields Value} (hkeys : ∀ m ∈ members, PlainKey m.1)
    (hcomputed : ∀ k key body source, (uncommented members)[k]? = some (key, body) →
      classify key = .computed source → E ⟨here.key k, path.field key, scope, source⟩)
    (hbody : ∀ k key body, (uncommented members)[k]? = some (key, body) →
      FailsIn ws E (resolve (here.part k) (path.field key) scope body)) :
    FailsIn ws E (resolveObject ws resolve here path scope members) := by
  have hkept : ∀ m ∈ uncommented members, PlainKey m.1 :=
    fun m hm => hkeys m (List.mem_filter.mp hm).1
  refine (failsIn_resolveMembers hkept 0 ?_ ?_).bind fun pieces hpieces => ?_
  · simpa only [Nat.zero_add] using hcomputed
  · simpa only [Nat.zero_add] using hbody
  · rw [expansions_of_resolveMembers hkept hpieces]
    exact .ok _

theorem failsIn_resolveBindings {node : Value} (h : FailsIn ws E (resolve here path scope node)) :
    FailsIn ws E (resolveBindings resolve here path scope node) := by
  refine h.bind fun v _ => ?_
  cases v with
  | object mark members => exact .ok _
  | _ => exact .invalid _ _

/-- Nothing is inherited, so that nothing can be in conflict with it. -/
theorem combinedBindings_nil (path : Path) (own : Fields Value) :
    combinedBindings path own [] = .ok (keepDeleted own own) := by
  rfl

theorem failsIn_directive {members : Fields Value} (hextend : members.get? extendKey = none)
    (h : ∀ node, members.get? scopeKey = some node →
      FailsIn ws E (resolve (here.part 0) (path.field scopeKey) ([] :: scope) node)) :
    FailsIn ws E (directive ws resolve here path scope members) := by
  have hbindings : FailsIn ws E (directiveBindings resolve (here.part 0) (path.field scopeKey)
      scope [] (members.get? scopeKey)) := by
    cases hnode : members.get? scopeKey with
    | none => exact .ok _
    | some node =>
      refine (failsIn_resolveBindings (h node hnode)).bind fun own _ => ?_
      rw [combinedBindings_nil]
      exact .ok _
  rw [directive, hextend]
  exact hbindings.bind fun _ _ => .ok _

section

variable {depth : Nat} {mark : Node} {members : Fields Value}
  (hresolve : ∀ here path scope node, node.EveryKey PlainKey →
    FailsIn ws (Evaluates ws depth here path scope node)
      (Template.resolve ws depth here path scope node))
  (hkeys : (Value.object mark members).EveryKey PlainKey) (hhas : members.has templateKey)
include hresolve hkeys hhas

theorem failsIn_directive_of_plain :
    FailsIn ws (Evaluates ws (depth + 1) here path scope (.object mark members))
      (directive ws (Template.resolve ws depth) here path scope members) := by
  refine failsIn_directive (hkeys.get?_eq_none not_plainKey_extendKey) fun node hnode => ?_
  have hplain := hkeys.member (Fields.mem_of_get? hnode)
  exact (hresolve _ _ _ node hplain).mono fun e he => .bindings hhas hnode he

theorem failsIn_body_of_plain {working : Scope} {body : Value}
    (h : directive ws (Template.resolve ws depth) here path scope members = .ok (working, body)) :
    FailsIn ws (Evaluates ws (depth + 1) here path scope (.object mark members))
      (Template.resolve ws depth (here.part 1) (path.field templateKey) working body) := by
  have hbody := get?_templateKey_of_directive (hkeys.get?_eq_none not_plainKey_extendKey) hhas h
  have hplain := hkeys.member (Fields.mem_of_get? hbody)
  exact (hresolve _ _ _ body hplain).mono fun e he => .body hhas h he

end

theorem failsIn_resolve (depth : Nat) (here : Trail) (path : Path) (scope : Scope) (node : Value)
    (hkeys : node.EveryKey PlainKey) :
    FailsIn ws (Evaluates ws depth here path scope node)
      (Template.resolve ws depth here path scope node) := by
  -- On the levels that are left: a node fails where one of its parts does, and without a level only
  -- with the limit.
  induction depth generalizing here path scope node with
  | zero =>
    intro path' cause h hlimit
    obtain ⟨-, rfl⟩ := TemplateError.eval.inj (Except.error.inj h)
    exact absurd trivial hlimit
  | succ depth ih =>
    rw [Template.resolve]
    cases node with
    | string s =>
      simp only [resolveNode]
      cases hsource : source? s with
      | none => exact .ok _
      | some source => exact failsIn_resolveSource (.text hsource)
    | array mark items =>
      refine (failsIn_resolveItems (fun item hitem => hkeys.item hitem) 0 fun i item hi => ?_).map _
      rw [Nat.zero_add]
      exact (ih _ _ _ item (hkeys.item (List.mem_of_getElem? hi))).mono fun e he => .item hi he
    | object mark members =>
      simp only [resolveNode]
      by_cases hhas : Fields.has members templateKey
      · rw [if_pos hhas]
        refine (FailsIn.checkKeys _ _ _).bind fun _ _ => ?_
        refine (failsIn_directive_of_plain ih hkeys hhas).bind fun opened hopened => ?_
        exact failsIn_body_of_plain ih hkeys hhas hopened
      · rw [if_neg hhas]
        rw [Bool.not_eq_true] at hhas
        refine failsIn_resolveObject
          (fun m hm => hkeys.key hm) ?_ ?_
        · exact fun k key body source hk hkey => .key hhas hk hkey
        · intro k key body hk
          have hbody := hkeys.member (mem_of_uncommented hk)
          exact (ih _ _ _ body hbody).mono fun e he => .member hhas hk he
    | _ => exact .ok _

theorem readObject_ne_eval {name text : String} {path : Path} {cause : EvalError} :
    readObject name text ≠ .error (.eval path cause) := by
  rw [readObject]
  cases Json.ofText? text with
  | none => simp
  | some json =>
    simp only
    cases Value.ofJson json <;> simp

theorem BodyAt.eq_of_not_isExpansion {k : Nat} {key : Key} {here' : Trail} {path' : Path}
    {scope' : Scope} (h : BodyAt ws here k path scope key here' path' scope')
    (hkey : key.isExpansion = false) : here' = here.part k ∧ path' = path ∧ scope' = scope := by
  cases h with
  | literal | computed => exact ⟨rfl, rfl, rfl⟩
  | conditional | iteration => cases hkey

/-- A callable that stands in the resolved value of a document comes from the value of an expression
in it. -/
theorem exists_of_stores {c : Value} {depth : Nat} {node : Value}
    (h : Stores ws c depth here path scope node) (hkeys : node.EveryKey PlainKey)
    (hnode : ¬ node.Holds c) :
    ∃ e v, Evaluates ws depth here path scope node e ∧ e.outcome ws = .ok v ∧ v.isNode ∧
      v.Holds c := by
  induction h with
  | itself hc => exact absurd ⟨hc, [], .here⟩ hnode
  | expression hs hv hisNode hc =>
    exact ⟨_, _, .text hs, mapError_eq_ok.mp hv, hisNode, hc⟩
  | item hi _ _ ih =>
    have hmem := List.mem_of_getElem? hi
    obtain ⟨e, v, he, hv⟩ := ih (hkeys.item hmem)
      fun hc => hnode (Value.holds_array.mpr ⟨_, hmem, hc⟩)
    exact ⟨e, v, .item hi he, hv⟩
  | expandedItem hi hkey _ _ _ =>
    have hplain := (hkeys.item (List.mem_of_getElem? hi)).key List.mem_cons_self
    rw [hplain.not_isExpansion] at hkey
    cases hkey
  | member hhas hk hbody _ ih =>
    have hmem := mem_of_uncommented hk
    have hplain := hkeys.key hmem
    obtain ⟨rfl, rfl, rfl⟩ := hbody.eq_of_not_isExpansion hplain.not_isExpansion
    obtain ⟨e, v, he, hv⟩ := ih (hkeys.member hmem)
      fun hc => hnode (Value.holds_object.mpr ⟨_, hmem, hc⟩)
    exact ⟨e, v, .member hhas hk he, hv⟩
  | body hhas hdirective _ ih =>
    have hmem := Fields.mem_of_get?
      (get?_templateKey_of_directive (hkeys.get?_eq_none not_plainKey_extendKey) hhas hdirective)
    obtain ⟨e, v, he, hv⟩ := ih (hkeys.member hmem)
      fun hc => hnode (Value.holds_object.mpr ⟨_, hmem, hc⟩)
    exact ⟨e, v, .body hhas hdirective he, hv⟩

end Template

namespace Workspace

open Template

variable {ws : Workspace} {name text : String} {scope : Scope} {members : Fields Value}

/-- The evaluations in a document. It is resolved from its root on, like a directive. -/
def Evaluates (ws : Workspace) (scope : Scope) (document : Value) (e : Evaluation) : Prop :=
  Template.Evaluates ws (ws.engine.limit + 1) [] .root scope document e

/-- The body of a document has a value that the document cannot hold. -/
theorem exists_of_output_toJson {working : Scope} {body v : Value} {k : Value.Kind} {mark : Node}
    (hkeys : (Value.object mark members).EveryKey PlainKey)
    (hnone : ∀ c, ¬ (Value.object mark members).Holds c) (hhas : members.has templateKey)
    (hdirective : directive ws ws.resolver [] .root scope members = .ok (working, body))
    (hv : ws.resolver (Trail.part [] 1) (Path.root.field templateKey) working body = .ok v)
    (hjson : v.stripNulls.toJson = .error k) :
    ∃ e u c, ws.Evaluates scope (.object mark members) e ∧
      [.field templateKey] <+: e.path.segments ∧ e.outcome ws = .ok u ∧ u.isNode ∧ u.Holds c ∧
      c.kind = k := by
  have hmem := Fields.mem_of_get?
    (get?_templateKey_of_directive (hkeys.get?_eq_none not_plainKey_extendKey) hhas hdirective)
  obtain ⟨c, hc, hkind⟩ := Value.holds_of_toJson_eq_error hjson
  have hstores := stores_of_resolve hv (Value.holds_of_stripNulls hc)
  obtain ⟨e, u, he, hu, hnode, huc⟩ := exists_of_stores hstores (hkeys.member hmem)
    fun hc => hnone c (Value.holds_object.mpr ⟨_, hmem, hc⟩)
  obtain ⟨p, hp, -⟩ := he.expressionAt (hkeys.member hmem)
  exact ⟨e, u, c, .body hhas hdirective he, ⟨p, hp.symm⟩, hu, hnode, huc, hkind⟩

/-- The evaluation that is to blame for a failure: it has the path of the failure and fails in this
way or has a callable for its value; or the path is that of the body, which it is a part of, and its
value is an array or object that a callable stands in. -/
def Blames (ws : Workspace) (path : Path) (cause : EvalError) (e : Evaluation) : Prop :=
  (e.path = path ∧ e.Rejected ws cause) ∨
  (path = Path.root.field templateKey ∧ path.segments <+: e.path.segments ∧
    ∃ v c, e.outcome ws = .ok v ∧ v.isNode ∧ v.Holds c ∧ cause = .type (.toJson c.kind))

theorem blames_of_compileMembers {path : Path} {cause : EvalError} {mark : Node}
    (hkeys : (Value.object mark members).EveryKey PlainKey)
    (hnone : ∀ c, ¬ (Value.object mark members).Holds c) (hlimit : ¬ cause.IsLimit)
    (h : ws.compileMembers name scope members = .error (.eval path cause)) :
    ∃ e, ws.Evaluates scope (.object mark members) e ∧ ws.Blames path cause e := by
  have hat {α : Type} {x : Result α}
      (hx : FailsIn ws (ws.Evaluates scope (.object mark members)) x)
      (hfails : x = .error (.eval path cause)) :
      ∃ e, ws.Evaluates scope (.object mark members) e ∧ ws.Blames path cause e := by
    obtain ⟨e, he, hpath, hrejected⟩ := hx path cause hfails hlimit
    exact ⟨e, he, .inl ⟨hpath, hrejected⟩⟩
  rw [compileMembers, bind_eq_error] at h
  rcases h with h | ⟨-, -, h⟩
  · exact hat (.checkKeys _ _ _) h
  by_cases hhas : members.has templateKey
  · have hfiles : members.get? filesKey = none :=
      hkeys.get?_eq_none fun h => h.ne_filesKey rfl
    simp only [hhas, Bool.not_true, Bool.false_eq_true, if_false, bind_eq_error, hfiles,
      documentOutputs, output, pure_ne_error, and_false, exists_false, or_false] at h
    -- The bindings and the body fail at the place of an expression; only the last step, from the
    -- value of the body to JSON, knows no other place than that of the body.
    rcases h with h | ⟨opened, hopened, h | ⟨v, hv, h⟩⟩
    · exact hat (failsIn_directive_of_plain (failsIn_resolve _) hkeys hhas) h
    · exact hat (failsIn_body_of_plain (failsIn_resolve _) hkeys hhas hopened) h
    · cases hjson : v.stripNulls.toJson with
      | ok json => simp [hjson, Except.mapError] at h
      | error k =>
        rw [hjson] at h
        obtain ⟨rfl, rfl⟩ := TemplateError.eval.inj (Except.error.inj h)
        obtain ⟨e, u, c, he, hbelow, hu, hnode, hc, rfl⟩ :=
          exists_of_output_toJson hkeys hnone hhas hopened hv hjson
        exact ⟨e, he, .inr ⟨rfl, hbelow, u, c, hu, hnode, hc, rfl⟩⟩
  · simp [hhas] at h

/-- A document without `$extend`, `$files` and expansions that fails in an evaluation fails because
of an expression in it, at the path of the failure. Only if a callable inside the value of an
expression cannot be turned into JSON, the path is that of the body of the document. -/
theorem failure_of_compileDocument (ws : Workspace) (name text : String) (scope : Scope)
    {path : Path} {cause : EvalError}
    (hkeys : ∀ json, Json.ofText? text = some json → (Value.ofJson json).EveryKey PlainKey)
    (hlimit : ¬ cause.IsLimit)
    (h : ws.compileDocument name text scope = .error (.eval path cause)) :
    ∃ json e, Json.ofText? text = some json ∧ ws.Evaluates scope (.ofJson json) e ∧
      ExpressionAt (.ofJson json) e.path.segments e.source ∧ ws.Blames path cause e := by
  rw [compileDocument, bind_eq_error] at h
  rcases h with h | ⟨members, hread, h⟩
  · exact absurd h readObject_ne_eval
  · obtain ⟨fields, htext, rfl⟩ := readObject_eq_ok.mp hread
    have hplain : (Value.object none (Value.ofJsonMembers fields)).EveryKey PlainKey :=
      hkeys _ htext
    obtain ⟨e, he, hblames⟩ := blames_of_compileMembers hplain
      (Value.not_holds_ofJson (.object fields)) hlimit h
    obtain ⟨p, hp, hat⟩ := Template.Evaluates.expressionAt he hplain
    have hpath : e.path.segments = p := hp
    exact ⟨_, e, htext, he, hpath ▸ hat, hblames⟩

/-! A name without a value deep inside a document, and a lambda inside the value of an
expression. -/

def unbound : String :=
  "\x7b\"$template\":\x7b\"list\":[1,\"\x7b\x7bmissing\x7d\x7d\"]\x7d\x7d"

def enclosing : String :=
  "\x7b\"$template\":\x7b\"list\":\"\x7b\x7b[x => x]\x7d\x7d\"\x7d\x7d"

theorem ofText?_unbound : Json.ofText? unbound =
    some (.object [("$template", .object [("list",
      .array [.integer 1, .string "\x7b\x7bmissing\x7d\x7d"])])]) := by
  decide +kernel

theorem ofText?_enclosing : Json.ofText? enclosing =
    some (.object [("$template", .object [("list", .string "\x7b\x7b[x => x]\x7d\x7d")])]) := by
  decide +kernel

theorem compileDocument_unbound :
    (empty Engine.standard).compileDocument "doc" unbound [] =
      .error (.eval (((Path.root.field "$template").field "list").index 1)
        (.unknownVariable "missing")) := by
  decide +kernel

theorem compileDocument_enclosing :
    (empty Engine.standard).compileDocument "doc" enclosing [] =
      .error (.eval (Path.root.field "$template") (.type (.toJson .lambda))) := by
  decide +kernel

theorem plainKey_templateKey : PlainKey "$template" :=
  ⟨by decide, by decide, by cbv⟩

theorem plainKey_list : PlainKey "list" :=
  ⟨by decide, by decide, by cbv⟩

theorem failure_of_unbound :
    (∃ json e, Json.ofText? unbound = some json ∧
      (empty Engine.standard).Evaluates [] (.ofJson json) e ∧
      ExpressionAt (.ofJson json) e.path.segments e.source ∧
      (empty Engine.standard).Blames (((Path.root.field "$template").field "list").index 1)
        (.unknownVariable "missing") e) ∧
    ∃ json e, Json.ofText? enclosing = some json ∧
      (empty Engine.standard).Evaluates [] (.ofJson json) e ∧
      ExpressionAt (.ofJson json) e.path.segments e.source ∧
      (empty Engine.standard).Blames (Path.root.field "$template") (.type (.toJson .lambda)) e := by
  constructor
  · refine failure_of_compileDocument _ "doc" unbound [] (fun json htext => ?_) id
      compileDocument_unbound
    obtain rfl := Option.some.inj (ofText?_unbound.symm.trans htext)
    refine Value.everyKey_singleton plainKey_templateKey (Value.everyKey_singleton plainKey_list ?_)
    exact Value.everyKey_array.mpr (List.forall_mem_cons.mpr
      ⟨Value.everyKey_leaf rfl, List.forall_mem_singleton.mpr (Value.everyKey_leaf rfl)⟩)
  · refine failure_of_compileDocument _ "doc" enclosing [] (fun json htext => ?_) id
      compileDocument_enclosing
    obtain rfl := Option.some.inj (ofText?_enclosing.symm.trans htext)
    exact Value.everyKey_singleton plainKey_templateKey
      (Value.everyKey_singleton plainKey_list (Value.everyKey_leaf rfl))

end Workspace

end Stencil

import Stencil.Builtin
import Stencil.Json.Equality
import Stencil.Proofs.Comment.Resolving
import Stencil.Proofs.Value.Callables
import Stencil.Template.Workspace

/-!
# Callables in resolved values

Resolving refuses an expression whose value is a callable, but it does not look into the arrays and
objects that expressions make. `Stores` says where the callables in a resolved value are from: they
stand in the value of an expression that is an array or object, or the template holds them itself.
-/

namespace Stencil

namespace Template

/-- The places at which the body of the member with the number `k` is resolved: one for each round
of an iteration, and else the member itself. -/
inductive BodyAt (ws : Workspace) (here : Trail) (k : Nat) (path : Path) (scope : Scope) :
    Key → Trail → Path → Scope → Prop
  | literal : BodyAt ws here k path scope .literal (here.part k) path scope
  | computed {source} : BodyAt ws here k path scope (.computed source) (here.part k) path scope
  | conditional {source test} : evaluate ws (here.key k) path scope source = .ok test →
      test.truthy → BodyAt ws here k path scope (.conditional source) (here.part k) path scope
  | iteration {source name node items i v} :
      evaluate ws (here.key k) path scope source = .ok (.array node items) →
      items[i]? = some v →
      BodyAt ws here k path scope (.iteration source name) ((here.round i).part k) (path.index i)
        (roundBindings name i v :: scope)

/-- Resolving the node puts the callable `c` into its value. -/
inductive Stores (ws : Workspace) (c : Value) :
    (depth : Nat) → Trail → Path → Scope → Value → Prop
  /-- The template is the callable. -/
  | itself {depth here path scope} : c.isCallable → Stores ws c (depth + 1) here path scope c
  /-- An expression has an array or object for its value that the callable stands in. -/
  | expression {depth here path scope s source v} : source? s = some source →
      evaluate ws here path scope source = .ok v → v.isNode → v.Holds c →
      Stores ws c (depth + 1) here path scope (.string s)
  | item {depth here path scope node items i item} : items[i]? = some item →
      (∀ mark key body, item = .object mark [(key, body)] → (classify key).isExpansion = false) →
      Stores ws c depth (here.part i) (path.index i) scope item →
      Stores ws c (depth + 1) here path scope (.array node items)
  | expandedItem {depth here path scope node items i mark key body here' path' scope'} :
      items[i]? = some (.object mark [(key, body)]) → (classify key).isExpansion →
      BodyAt ws (here.part i) 0 ((path.index i).field key) scope (classify key) here' path' scope' →
      Stores ws c depth here' path' scope' body →
      Stores ws c (depth + 1) here path scope (.array node items)
  | member {depth here path scope node members k key body here' path' scope'} :
      Fields.has members templateKey = false → (uncommented members)[k]? = some (key, body) →
      BodyAt ws here k (path.field key) scope (classify key) here' path' scope' →
      Stores ws c depth here' path' scope' body →
      Stores ws c (depth + 1) here path scope (.object node members)
  | body {depth here path scope node members working body} :
      Fields.has members templateKey →
      directive ws (Template.resolve ws depth) here path scope members = .ok (working, body) →
      Stores ws c depth (here.part 1) (path.field templateKey) working body →
      Stores ws c (depth + 1) here path scope (.object node members)

variable {ws : Workspace} {resolve : Resolver} {here : Trail} {path : Path} {scope : Scope}
  {c : Value}

theorem mem_rounds {k : Nat} {name : String} {body v : Value} {i : Nat} {items vs : List Value}
    (h : rounds resolve here k path scope name body i items = .ok vs) (hv : v ∈ vs) :
    ∃ j item, items[j]? = some item ∧
      resolve ((here.round (i + j)).part k) (path.index (i + j))
        (roundBindings name (i + j) item :: scope) body = .ok v := by
  induction items generalizing i vs with
  | nil =>
    rw [← Except.ok.inj h] at hv
    simp at hv
  | cons item items ih =>
    simp only [rounds, bind_eq_ok, pure_eq_ok] at h
    obtain ⟨w, hw, ws, hws, rfl⟩ := h
    rcases List.mem_cons.mp hv with rfl | hv
    · exact ⟨0, item, rfl, hw⟩
    · obtain ⟨j, item', hj, hresolve⟩ := ih hws hv
      exact ⟨j + 1, item', hj, by rwa [← Nat.add_assoc, Nat.add_right_comm]⟩

theorem mem_iterate {k : Nat} {source name : String} {body v : Value} {vs : List Value}
    (h : iterate ws resolve here k path scope source name body = .ok vs) (hv : v ∈ vs) :
    ∃ here' path' scope', BodyAt ws here k path scope (.iteration source name) here' path' scope' ∧
      resolve here' path' scope' body = .ok v := by
  obtain ⟨source, hsource, h⟩ := bind_eq_ok.mp h
  cases source with
  | array node items =>
    obtain ⟨j, item, hj, hresolve⟩ := mem_rounds h hv
    rw [Nat.zero_add] at hresolve
    exact ⟨_, _, _, .iteration hsource hj, hresolve⟩
  | _ => cases h

theorem mem_choose {k : Nat} {source : String} {body v : Value} {vs : List Value}
    (h : choose ws resolve here k path scope source body = .ok vs) (hv : v ∈ vs) :
    ∃ here' path' scope', BodyAt ws here k path scope (.conditional source) here' path' scope' ∧
      resolve here' path' scope' body = .ok v := by
  obtain ⟨test, htest, h⟩ := bind_eq_ok.mp h
  split at h
  · rename_i htruthy
    obtain ⟨w, hw, h⟩ := bind_eq_ok.mp h
    rw [← pure_eq_ok.mp h, List.mem_singleton] at hv
    exact ⟨_, _, _, .conditional htest htruthy, hv ▸ hw⟩
  · rw [← pure_eq_ok.mp h] at hv
    simp at hv

theorem mem_expand {k : Nat} {body v : Value} {key : Key} {vs : List Value}
    (h : expand ws resolve here k path scope body key = some (.ok vs)) (hv : v ∈ vs) :
    ∃ here' path' scope', BodyAt ws here k path scope key here' path' scope' ∧
      resolve here' path' scope' body = .ok v := by
  cases key with
  | iteration source name => exact mem_iterate (Option.some.inj h) hv
  | conditional source => exact mem_choose (Option.some.inj h) hv
  | _ => simp [expand] at h

theorem holds_of_mem_spliced {v u : Value} (hu : u ∈ spliced v) (h : u.Holds c) : v.Holds c := by
  cases v with
  | array node items => exact Value.holds_array.mpr ⟨u, hu, h⟩
  | _ => exact List.mem_singleton.mp hu ▸ h

/-- An element is from the item itself, or else from a body that the item expands to. -/
theorem holds_resolveItem {item u : Value} {elements : List Value}
    (h : resolveItem ws resolve here path scope item = .ok elements) (hu : u ∈ elements)
    (hc : u.Holds c) :
    ((∀ mark key body, item = .object mark [(key, body)] → (classify key).isExpansion = false) ∧
      ∃ v, resolve here path scope item = .ok v ∧ v.Holds c) ∨
    ∃ mark key body here' path' scope' v, item = .object mark [(key, body)] ∧
      (classify key).isExpansion ∧
      BodyAt ws here 0 (path.field key) scope (classify key) here' path' scope' ∧
      resolve here' path' scope' body = .ok v ∧ v.Holds c := by
  by_cases hitem : ∀ mark key body, item = .object mark [(key, body)] →
      (classify key).isExpansion = false
  · have hnone : expandItem ws resolve here path scope item = none := by
      cases item with
      | object mark members =>
        exact expandItem_eq_none fun key body hmembers => hitem mark key body (hmembers ▸ rfl)
      | _ => rfl
    rw [resolveItem, hnone] at h
    obtain ⟨v, hv, rfl⟩ := map_eq_ok.mp h
    exact .inl ⟨hitem, v, hv, List.mem_singleton.mp hu ▸ hc⟩
  · simp only [not_forall, Bool.not_eq_false] at hitem
    obtain ⟨mark, key, body, rfl, hkey⟩ := hitem
    have hsome : ∃ expansions, expandItem ws resolve here path scope (.object mark [(key, body)]) =
        some expansions := by
      rw [expandItem]
      cases hclass : classify key with
      | iteration | conditional => exact ⟨_, rfl⟩
      | _ => simp [hclass, Key.isExpansion] at hkey
    obtain ⟨expansions, hsome⟩ := hsome
    rw [resolveItem, hsome] at h
    obtain ⟨vs, rfl, rfl⟩ := map_eq_ok.mp h
    obtain ⟨v, hv, hu⟩ := List.mem_flatMap.mp hu
    obtain ⟨here', path', scope', hbody, hresolve⟩ := mem_expand hsome hv
    exact .inr ⟨mark, key, body, here', path', scope', v, rfl, hkey, hbody, hresolve,
      holds_of_mem_spliced hu hc⟩

theorem mem_resolveItems {i : Nat} {items elements : List Value} {u : Value}
    (h : resolveItems ws resolve here path scope i items = .ok elements) (hu : u ∈ elements) :
    ∃ j item part, items[j]? = some item ∧
      resolveItem ws resolve (here.part (i + j)) (path.index (i + j)) scope item = .ok part ∧
      u ∈ part := by
  induction items generalizing i elements with
  | nil =>
    rw [← Except.ok.inj h] at hu
    simp at hu
  | cons item items ih =>
    simp only [resolveItems, bind_eq_ok, pure_eq_ok] at h
    obtain ⟨part, hpart, rest, hrest, rfl⟩ := h
    rcases List.mem_append.mp hu with hu | hu
    · exact ⟨0, item, part, rfl, hpart, hu⟩
    · obtain ⟨j, item', part', hj, hpart', hu⟩ := ih hrest hu
      refine ⟨j + 1, item', part', hj, ?_, hu⟩
      rwa [← Nat.add_assoc, Nat.add_right_comm]

/-- The values that an object is put together from. -/
def Pieces.values (pieces : Pieces) : List Value :=
  pieces.own.map (·.2) ++ pieces.expansions.map (·.2)

theorem mem_values_append {a b : Pieces} {v : Value} :
    v ∈ (a.append b).values ↔ v ∈ a.values ∨ v ∈ b.values := by
  simp only [Pieces.values, Pieces.append, List.map_append, List.mem_append]
  tauto

theorem mem_resolveMember {k : Nat} {key : String} {body v : Value} {pieces : Pieces}
    (h : resolveMember ws resolve here k path scope key body = .ok pieces)
    (hv : v ∈ pieces.values) :
    ∃ here' path' scope', BodyAt ws here k path scope (classify key) here' path' scope' ∧
      resolve here' path' scope' body = .ok v := by
  rw [resolveMember] at h
  cases hkey : classify key with
  | comment =>
    simp only [hkey, Except.ok.injEq] at h
    simp [← h, Pieces.values] at hv
  | literal =>
    simp only [hkey, bind_eq_ok, pure_eq_ok] at h
    obtain ⟨w, hw, rfl⟩ := h
    obtain rfl : v = w := by simpa [Pieces.values] using hv
    exact ⟨_, _, _, .literal, hw⟩
  | computed source =>
    simp only [hkey, bind_eq_ok, pure_eq_ok] at h
    obtain ⟨name, -, w, hw, rfl⟩ := h
    obtain rfl : v = w := by simpa [Pieces.values] using hv
    exact ⟨_, _, _, .computed, hw⟩
  | iteration source name =>
    simp only [hkey, bind_eq_ok, pure_eq_ok] at h
    obtain ⟨vs, hvs, rfl⟩ := h
    exact mem_iterate hvs (by simpa [Pieces.values] using hv)
  | conditional source =>
    simp only [hkey, bind_eq_ok, pure_eq_ok] at h
    obtain ⟨vs, hvs, rfl⟩ := h
    exact mem_choose hvs (by simpa [Pieces.values] using hv)

theorem mem_resolveMembers {k : Nat} {members : List (String × Value)} {v : Value}
    {pieces : Pieces} (h : resolveMembers ws resolve here path scope k members = .ok pieces)
    (hv : v ∈ pieces.values) :
    ∃ j key body here' path' scope', members[j]? = some (key, body) ∧
      BodyAt ws here (k + j) (path.field key) scope (classify key) here' path' scope' ∧
      resolve here' path' scope' body = .ok v := by
  induction members generalizing k pieces with
  | nil =>
    rw [← Except.ok.inj h] at hv
    simp [Pieces.values] at hv
  | cons m members ih =>
    obtain ⟨key, body⟩ := m
    simp only [resolveMembers, bind_eq_ok, pure_eq_ok] at h
    obtain ⟨piece, hpiece, rest, hrest, rfl⟩ := h
    rcases mem_values_append.mp hv with hv | hv
    · obtain ⟨here', path', scope', hbody, hresolve⟩ := mem_resolveMember hpiece hv
      exact ⟨0, key, body, here', path', scope', rfl, hbody, hresolve⟩
    · obtain ⟨j, key', body', here', path', scope', hj, hbody, hresolve⟩ := ih hrest hv
      refine ⟨j + 1, key', body', here', path', scope', hj, ?_, hresolve⟩
      rwa [← Nat.add_assoc, Nat.add_right_comm]

theorem holds_addExpansion {object r : Value} {expansion : Path × Value}
    (h : addExpansion object expansion = .ok r) (hc : r.Holds c) :
    expansion.2.Holds c ∨ object.Holds c := by
  obtain ⟨path, v⟩ := expansion
  cases v with
  | object node members => exact Value.holds_merge (mergeAt_eq_ok.mp h) hc
  | null => exact .inr (Except.ok.inj h ▸ hc)
  | _ => simp [addExpansion] at h

theorem holds_foldlM_addExpansion {expansions : List (Path × Value)} {object r : Value}
    (h : expansions.foldlM addExpansion object = .ok r) (hc : r.Holds c) :
    (∃ e ∈ expansions, e.2.Holds c) ∨ object.Holds c := by
  induction expansions generalizing object with
  | nil => exact .inr (pure_eq_ok.mp h ▸ hc)
  | cons e expansions ih =>
    rw [List.foldlM_cons] at h
    obtain ⟨merged, hmerged, h⟩ := bind_eq_ok.mp h
    rcases ih h with ⟨e', he', hc⟩ | hc
    · exact .inl ⟨e', List.mem_cons_of_mem _ he', hc⟩
    · exact (holds_addExpansion hmerged hc).imp_left fun hc => ⟨e, List.mem_cons_self, hc⟩

theorem holds_resolveObject {members : Fields Value} {r : Value}
    (h : resolveObject ws resolve here path scope members = .ok r) (hc : r.Holds c) :
    ∃ k key body here' path' scope' v, (uncommented members)[k]? = some (key, body) ∧
      BodyAt ws here k (path.field key) scope (classify key) here' path' scope' ∧
      resolve here' path' scope' body = .ok v ∧ v.Holds c := by
  obtain ⟨pieces, hpieces, h⟩ := bind_eq_ok.mp h
  have hvalue : ∃ v ∈ pieces.values, v.Holds c := by
    rcases holds_foldlM_addExpansion h hc with ⟨e, he, hc⟩ | hc
    · exact ⟨e.2, List.mem_append_right _ (List.mem_map_of_mem he), hc⟩
    · obtain ⟨m, hm, hc⟩ := Value.holds_ofMembers.mp hc
      have hm := List.mem_map_of_mem (f := Prod.snd) (Fields.mem_of_mem_ofList hm)
      exact ⟨m.2, List.mem_append_left _ hm, hc⟩
  obtain ⟨v, hv, hc⟩ := hvalue
  obtain ⟨k, key, body, here', path', scope', hk, hbody, hresolve⟩ := mem_resolveMembers hpieces hv
  rw [Nat.zero_add] at hbody
  exact ⟨k, key, body, here', path', scope', v, hk, hbody, hresolve, hc⟩

theorem holds_resolveSource {source : String} {r : Value}
    (h : resolveSource ws here path scope source = .ok r) (hc : r.Holds c) :
    ∃ v, evaluate ws here path scope source = .ok v ∧ v.isNode ∧ v.Holds c := by
  obtain ⟨v, hv, h⟩ := bind_eq_ok.mp h
  split at h
  · cases h
  · rename_i hcallable
    rw [← pure_eq_ok.mp h, Value.holds_deepCopy] at hc
    refine ⟨v, hv, ?_, hc⟩
    by_contra hnode
    exact hcallable ((Value.holds_leaf (by simpa using hnode)).mp hc).1

/-- Every callable in a resolved value has been stored on the way to it. -/
theorem stores_of_resolve {depth : Nat} {node v : Value}
    (h : Template.resolve ws depth here path scope node = .ok v) (hc : v.Holds c) :
    Stores ws c depth here path scope node := by
  induction depth generalizing here path scope node v with
  | zero => cases h
  | succ depth ih =>
    rw [Template.resolve] at h
    cases node with
    | string s =>
      simp only [resolveNode] at h
      cases hsource : source? s with
      | none =>
        rw [hsource] at h
        rw [← Except.ok.inj h, Value.holds_leaf rfl] at hc
        simp [Value.isCallable] at hc
      | some source =>
        rw [hsource] at h
        obtain ⟨u, hu, hnode, hc⟩ := holds_resolveSource h hc
        exact .expression hsource hu hnode hc
    | array mark items =>
      obtain ⟨elements, helements, rfl⟩ := map_eq_ok.mp h
      obtain ⟨u, hu, hc⟩ := Value.holds_ofItems.mp hc
      obtain ⟨i, item, part, hi, hpart, hu⟩ := mem_resolveItems helements hu
      rw [Nat.zero_add] at hpart
      rcases holds_resolveItem hpart hu hc with ⟨hplain, w, hw, hc⟩ |
        ⟨mark, key, body, here', path', scope', w, rfl, hkey, hbody, hw, hc⟩
      · exact .item hi hplain (ih hw hc)
      · exact .expandedItem hi hkey hbody (ih hw hc)
    | object mark members =>
      simp only [resolveNode] at h
      split at h
      · rename_i hhas
        simp only [bind_eq_ok] at h
        obtain ⟨-, -, ⟨working, body⟩, hdirective, h⟩ := h
        exact .body hhas hdirective (ih h hc)
      · rename_i hhas
        obtain ⟨k, key, body, here', path', scope', w, hk, hbody, hw, hc⟩ :=
          holds_resolveObject h hc
        exact .member (by simpa using hhas) hk hbody (ih hw hc)
    | _ =>
      obtain rfl := Except.ok.inj h
      obtain ⟨hcallable, rfl⟩ := (Value.holds_leaf rfl).mp hc
      exact .itself hcallable

theorem stores_of_resolveBindings {depth : Nat} {node : Value} {bindings : Fields Value}
    (h : resolveBindings (Template.resolve ws depth) here path scope node = .ok bindings)
    (hc : (Value.ofMembers bindings).Holds c) : Stores ws c depth here path scope node := by
  obtain ⟨v, hv, h⟩ := bind_eq_ok.mp h
  cases v with
  | object mark members =>
    obtain rfl := pure_eq_ok.mp h
    exact stores_of_resolve hv (Value.holds_object.mpr (Value.holds_ofMembers.mp hc))
  | _ => cases h

end Template

namespace Workspace

open Template

theorem stores_of_readModule {ws : Workspace} {scope : Scope} {members : Fields Value}
    {m : Module} {c : Value} (h : ws.readModule scope members = .ok m)
    (hc : (Value.ofMembers m.scope).Holds c) :
    ∃ node, members.get? scopeKey = some node ∧
      Stores ws c ws.engine.limit [.load m.name m.edition] (Path.root.field scopeKey) scope node := by
  simp only [readModule, bind_eq_ok] at h
  obtain ⟨-, -, name, -, h⟩ := h
  cases hnode : members.get? scopeKey with
  | none =>
    simp only [hnode, bind_eq_ok, pure_eq_ok] at h
    obtain ⟨_, rfl, rfl⟩ := h
    simp [Value.holds_ofMembers] at hc
  | some node =>
    simp only [hnode, bind_eq_ok, pure_eq_ok] at h
    obtain ⟨bindings, hbindings, rfl⟩ := h
    exact ⟨node, rfl, stores_of_resolveBindings hbindings hc⟩

/-- The callables in a resolved value, and in the bindings of a module that has been loaded, are all
from inside the values of expressions in the template, or from the template itself. -/
theorem callables_of_run (ws : Workspace) (scope : Scope) (c : Value) :
    (∀ template v, ws.resolveValue template scope = .ok v → v.Holds c →
      Stores ws c ws.engine.limit [] .root scope template) ∧
    (∀ text m ws', ws.loadModule text scope = .ok (m, ws') → (Value.ofMembers m.scope).Holds c →
      ∃ members node, Template.readModule text = .ok members ∧
        members.get? scopeKey = some node ∧
        Stores ws c ws.engine.limit [.load m.name m.edition] (Path.root.field scopeKey) scope
          node) := by
  constructor
  · intro template v h hc
    obtain ⟨resolved, hresolved, rfl⟩ := map_eq_ok.mp h
    exact stores_of_resolve hresolved (Value.holds_of_stripNulls hc)
  · intro text m ws' h hc
    simp only [loadModule, bind_eq_ok, pure_eq_ok] at h
    obtain ⟨members, hmembers, m', hm, heq⟩ := h
    obtain ⟨rfl, -⟩ := Prod.mk.inj heq
    obtain ⟨node, hnode, hstores⟩ := stores_of_readModule hm hc
    exact ⟨members, node, hmembers, hnode, hstores⟩

/-! A lambda passes inside an array, as a value and as a binding. -/

def identity (origin : Trail) : Value :=
  .lambda origin ["x"] (.name "x") []

def wrapping : String :=
  "\x7b\x7b[x => x]\x7d\x7d"

def wrapped (origin : Trail) : Value :=
  .array none [identity (origin.part 0)]

def wrappingModule : String :=
  "\x7b\"$module\":\"m\",\"$scope\":\x7b\"f\":\"" ++ wrapping ++ "\"\x7d\x7d"

def wrappingMembers : Fields Value :=
  [("$module", .string "m"), ("$scope", .object none [("f", .string wrapping)])]

def wrappedModule : Module :=
  ⟨"m", [("f", wrapped [.part 0, .load "m" 0])], none, 0⟩

theorem readModule_wrappingModule : Template.readModule wrappingModule = .ok wrappingMembers := by
  have htext : Json.ofText? wrappingModule =
      some (.object [("$module", .string "m"), ("$scope", .object [("f", .string wrapping)])]) := by
    decide +kernel
  rw [Template.readModule, readObject, htext]
  rfl

theorem loadModule_wrappingModule :
    (empty Engine.standard).loadModule wrappingModule [] =
      .ok (wrappedModule, ⟨Engine.standard, [("m", wrappedModule)]⟩) := by
  have hmodule : (empty Engine.standard).readModule [] wrappingMembers = .ok wrappedModule := by cbv
  rw [loadModule, readModule_wrappingModule]
  change (empty Engine.standard).readModule [] wrappingMembers >>= _ = _
  rw [hmodule]
  rfl

theorem resolveValue_wrapping :
    (empty Engine.standard).resolveValue (.string wrapping) [] = .ok (wrapped []) := by
  cbv

theorem holds_wrapped (origin : Trail) :
    (wrapped origin).Holds (identity (origin.part 0)) :=
  Value.holds_array.mpr ⟨_, List.mem_singleton_self _, rfl, [], .here⟩

theorem callables_of_wrapping :
    Stores (empty Engine.standard) (identity (Trail.part [] 0)) Engine.standard.limit [] .root []
      (.string wrapping) ∧
    ∃ members node, Template.readModule wrappingModule = .ok members ∧
      members.get? scopeKey = some node ∧
      Stores (empty Engine.standard) (identity (Trail.part [.part 0, .load "m" 0] 0))
        Engine.standard.limit [.load "m" 0] (Path.root.field scopeKey) [] node := by
  constructor
  · exact (callables_of_run _ _ _).1 _ _ resolveValue_wrapping (holds_wrapped [])
  · refine (callables_of_run _ _ _).2 _ _ _ loadModule_wrappingModule ?_
    exact Value.holds_ofMembers.mpr ⟨_, List.mem_singleton_self _, holds_wrapped _⟩

end Workspace

end Stencil

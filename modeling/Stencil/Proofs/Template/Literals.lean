import Stencil.Json.Equality
import Stencil.Proofs.Comment.Resolving
import Stencil.Proofs.Json.Finite
import Stencil.Proofs.Template.Documents

/-!
# Literal templates

A template without expressions, directives and comments resolves to itself, and the output is the
template without its deletions. It takes as many levels as values stand inside each other in it,
the deletions among them, and fails with the limit exactly if there are fewer.
-/

namespace Stencil

namespace Json

mutual

/-- How many values stand inside each other; a scalar is one level. -/
def levels : Json → Nat
  | array items => itemLevels items + 1
  | object members => memberLevels members + 1
  | _ => 1

def itemLevels : List Json → Nat
  | [] => 0
  | v :: vs => max v.levels (itemLevels vs)

def memberLevels : List (String × Json) → Nat
  | [] => 0
  | (_, v) :: ms => max v.levels (memberLevels ms)

end

/-- The documents that stand for a deleted member. -/
def isDeletion : Json → Bool
  | null => true
  | string s => s = "null"
  | _ => false

mutual

/-- A document without the deletions inside it. -/
def pruned : Json → Json
  | array items => array (prunedItems items)
  | object members => object (prunedMembers members)
  | v => v

def prunedItems : List Json → List Json
  | [] => []
  | v :: vs => if v.isDeletion then prunedItems vs else v.pruned :: prunedItems vs

def prunedMembers : List (String × Json) → List (String × Json)
  | [] => []
  | (name, v) :: ms =>
    if v.isDeletion then prunedMembers ms else (name, v.pruned) :: prunedMembers ms

end

theorem levels_pos (v : Json) : 0 < v.levels := by
  cases v <;> simp [levels]

theorem isDeletion_ofJson (v : Json) : (Value.ofJson v).isDeletion = v.isDeletion := by
  cases v <;> rfl

theorem toJsonItems_stripItems {items : List Json}
    (h : ∀ v ∈ items, (Value.ofJson v).stripNulls.toJson = .ok v.pruned) :
    Value.toJsonItems (Value.stripItems (Value.ofJsonItems items)) = .ok (prunedItems items) := by
  induction items with
  | nil => rfl
  | cons v vs ih =>
    obtain ⟨hv, hvs⟩ := List.forall_mem_cons.mp h
    rw [Value.ofJsonItems, Value.stripItems, prunedItems, isDeletion_ofJson]
    by_cases hdel : v.isDeletion
    · rw [if_pos hdel, if_pos hdel]
      exact ih hvs
    · rw [if_neg hdel, if_neg hdel, Value.toJsonItems, hv, ih hvs]
      rfl

theorem toJsonMembers_stripMembers {members : List (String × Json)}
    (h : ∀ m ∈ members, (Value.ofJson m.2).stripNulls.toJson = .ok m.2.pruned) :
    Value.toJsonMembers (Value.stripMembers (Value.ofJsonMembers members)) =
      .ok (prunedMembers members) := by
  induction members with
  | nil => rfl
  | cons m ms ih =>
    obtain ⟨hm, hms⟩ := List.forall_mem_cons.mp h
    rw [Value.ofJsonMembers, Value.stripMembers, prunedMembers, isDeletion_ofJson]
    by_cases hdel : m.2.isDeletion
    · rw [if_pos hdel, if_pos hdel]
      exact ih hms
    · rw [if_neg hdel, if_neg hdel, Value.toJsonMembers, hm, ih hms]
      rfl

/-- The way to a value and back leaves out the deletions. -/
theorem toJson_stripNulls_ofJson {v : Json} (h : v.Finite) :
    (Value.ofJson v).stripNulls.toJson = .ok v.pruned := by
  induction v using rec_nodes with
  | onArray items ih =>
    rw [Value.ofJson, Value.ofItems, Value.stripNulls, Value.ofItems, Value.toJson,
      toJsonItems_stripItems fun v hv => ih v hv (h.item hv)]
    rfl
  | onObject members ih =>
    rw [Value.ofJson, Value.ofMembers, Value.stripNulls, Value.ofMembers, Value.toJson,
      toJsonMembers_stripMembers fun m hm => ih m hm (h.member hm)]
    rfl
  | onLeaf v harray hobject =>
    cases v with
    | array items => exact absurd rfl (harray items)
    | object members => exact absurd rfl (hobject members)
    | float x => simp [Value.ofJson, Value.stripNulls, Value.toJson, pruned, h [] x .here]
    | _ => rfl

/-- No text inside is an expression, and no key is anything but a name. -/
structure Literal (v : Json) : Prop where
  text : ∀ p s, v.At p (.string s) → Template.source? s = none
  key : ∀ p members, v.At p (.object members) → ∀ m ∈ members,
    Template.classify m.1 = .literal ∧ m.1 ≠ Template.templateKey

theorem literal_array_iff {items : List Json} :
    (array items).Literal ↔ ∀ v ∈ items, v.Literal := by
  constructor
  · intro h v hv
    obtain ⟨i, hi⟩ := List.getElem?_of_mem hv
    exact ⟨fun p s hs => h.text _ s (.item hi hs), fun p inner hat => h.key _ inner (.item hi hat)⟩
  · intro h
    constructor
    · rintro p s ⟨⟩
      rename_i hi hs
      exact (h _ (List.mem_of_getElem? hi)).text _ s hs
    · rintro p inner ⟨⟩
      rename_i hi hat
      exact (h _ (List.mem_of_getElem? hi)).key _ inner hat

theorem literal_object_iff {members : List (String × Json)} :
    (object members).Literal ↔ ∀ m ∈ members,
      (Template.classify m.1 = .literal ∧ m.1 ≠ Template.templateKey) ∧ m.2.Literal := by
  constructor
  · intro h m hm
    exact ⟨h.key [] members .here m hm,
      fun p s hs => h.text _ s (.member hm hs), fun p inner hat => h.key _ inner (.member hm hat)⟩
  · intro h
    constructor
    · rintro p s ⟨⟩
      rename_i hm hs
      exact (h _ hm).2.text _ s hs
    · rintro p inner hat
      cases hat with
      | here => exact fun m hm => (h m hm).1
      | member hm hat => exact (h _ hm).2.key _ inner hat

theorem IsLeaf.literal {v : Json} (h : v.IsLeaf)
    (htext : ∀ s, v = string s → Template.source? s = none) : v.Literal := by
  constructor
  · rintro p s hat
    cases hat with
    | here => exact htext s rfl
    | item => exact absurd rfl (h.1 _)
    | member => exact absurd rfl (h.2 _)
  · rintro p members hat
    cases hat with
    | here => exact absurd rfl (h.2 members)
    | item => exact absurd rfl (h.1 _)
    | member => exact absurd rfl (h.2 _)

end Json

namespace Template

/-- The outcome if there are enough levels, and the failure with the limit if there are not. -/
structure Within {α : Type} (limit levels depth : Nat) (a : α) (x : Result α) : Prop where
  eq_ok : levels ≤ depth → x = .ok a
  eq_error : depth < levels → ∃ path, x = .error (.eval path (.recursionLimit limit))

namespace Within

variable {α β : Type} {limit m n depth : Nat} {a : α} {b : β} {x : Result α}

theorem ok (a : α) : Within limit 0 depth a (.ok a) :=
  ⟨fun _ => rfl, fun h => absurd h (Nat.not_lt_zero _)⟩

theorem map (h : Within limit n depth a x) (f : α → β) : Within limit n depth (f a) (x.map f) := by
  refine ⟨fun hle => ?_, fun hlt => ?_⟩
  · rw [h.eq_ok hle]
    rfl
  · obtain ⟨path, hpath⟩ := h.eq_error hlt
    exact ⟨path, by rw [hpath]; rfl⟩

/-- One step after the other takes as many levels as the one that takes more. -/
theorem bind {f : α → Result β} (h : Within limit m depth a x)
    (hf : Within limit n depth b (f a)) : Within limit (max m n) depth b (x >>= f) := by
  by_cases hle : m ≤ depth
  · rw [h.eq_ok hle]
    exact ⟨fun hmax => hf.eq_ok (by omega), fun hmax => hf.eq_error (by omega)⟩
  · obtain ⟨path, hpath⟩ := h.eq_error (by omega)
    exact ⟨fun hmax => by omega, fun _ => ⟨path, by rw [hpath]; rfl⟩⟩

theorem bind_ok {f : α → Result β} (h : Within limit n depth a x) (hf : f a = .ok b) :
    Within limit n depth b (x >>= f) := by
  have hbind := h.bind (hf ▸ ok b)
  rwa [Nat.max_zero] at hbind

theorem level (h : Within limit n depth a x) : Within limit (n + 1) (depth + 1) a x :=
  ⟨fun hle => h.eq_ok (by omega), fun hlt => h.eq_error (by omega)⟩

end Within

variable {ws : Workspace} {resolve : Resolver} {here : Trail} {path : Path} {scope : Scope}
  {depth : Nat}

/-- A document comes to itself as a template, if there are enough levels for it. -/
def Stays (limit depth : Nat) (resolve : Resolver) (v : Json) : Prop :=
  ∀ here path scope, Within limit v.levels depth (Value.ofJson v)
    (resolve here path scope (Value.ofJson v))

theorem expandItem_literal {v : Json} (hv : v.Literal) :
    expandItem ws resolve here path scope (Value.ofJson v) = none := by
  cases v with
  | object members =>
    apply expandItem_eq_none
    intro key body hsingle
    rw [Value.ofJsonMembers_eq_map] at hsingle
    obtain ⟨m, rfl, heq⟩ := List.map_eq_singleton_iff.mp hsingle
    rw [Prod.mk.injEq] at heq
    rw [← heq.1, (hv.key [] _ .here m List.mem_cons_self).1]
    rfl
  | _ => rfl

theorem resolveItems_literal {items : List Json}
    (hitems : ∀ v ∈ items, v.Literal ∧ Stays ws.engine.limit depth resolve v) (i : Nat) :
    Within ws.engine.limit (Json.itemLevels items) depth (Value.ofJsonItems items)
      (resolveItems ws resolve here path scope i (Value.ofJsonItems items)) := by
  induction items generalizing i with
  | nil => exact .ok []
  | cons v vs ih =>
    obtain ⟨⟨hliteral, hv⟩, hvs⟩ := List.forall_mem_cons.mp hitems
    rw [Value.ofJsonItems, resolveItems, resolveItem, expandItem_literal hliteral]
    exact ((hv _ _ _).map ([·])).bind ((ih hvs (i + 1)).bind_ok rfl)

theorem has_ofJsonMembers_of_ne {members : Fields Json} {key : String}
    (h : ∀ m ∈ members, m.1 ≠ key) : (Value.ofJsonMembers members).has key = false := by
  rw [Bool.eq_false_iff, ne_eq, Fields.has_iff_mem_names, Value.names_ofJsonMembers]
  intro hmem
  obtain ⟨m, hm, heq⟩ := List.mem_map.mp hmem
  exact h m hm heq

theorem resolveMember_literal {k : Nat} {key : String} {v : Json} (hkey : classify key = .literal)
    (hv : Stays ws.engine.limit depth resolve v) :
    Within ws.engine.limit v.levels depth ⟨[(key, Value.ofJson v)], []⟩
      (resolveMember ws resolve here k path scope key (Value.ofJson v)) := by
  simp only [resolveMember, hkey]
  exact (hv _ _ _).bind_ok rfl

theorem resolveMembers_literal {members : List (String × Json)}
    (hkeys : ∀ m ∈ members, classify m.1 = .literal)
    (hmembers : ∀ m ∈ members, Stays ws.engine.limit depth resolve m.2) (k : Nat) :
    Within ws.engine.limit (Json.memberLevels members) depth ⟨Value.ofJsonMembers members, []⟩
      (resolveMembers ws resolve here path scope k (Value.ofJsonMembers members)) := by
  induction members generalizing k with
  | nil => exact .ok _
  | cons m ms ih =>
    obtain ⟨hkey, hkeys⟩ := List.forall_mem_cons.mp hkeys
    obtain ⟨hm, hms⟩ := List.forall_mem_cons.mp hmembers
    rw [Value.ofJsonMembers, resolveMembers]
    exact (resolveMember_literal hkey hm).bind ((ih hkeys hms (k + 1)).bind_ok rfl)

theorem resolveObject_literal {members : Fields Json} (hnames : members.names.Nodup)
    (hkeys : ∀ m ∈ members, classify m.1 = .literal)
    (hmembers : ∀ m ∈ members, Stays ws.engine.limit depth resolve m.2) :
    Within ws.engine.limit (Json.memberLevels members) depth
      (.ofMembers (Value.ofJsonMembers members))
      (resolveObject ws resolve here path scope (Value.ofJsonMembers members)) := by
  have hcomment : (Value.ofJsonMembers members).has commentKey = false := by
    apply has_ofJsonMembers_of_ne
    intro m hm heq
    have hkey := hkeys m hm
    rw [heq] at hkey
    simp [classify] at hkey
  have huncommented : uncommented (Value.ofJsonMembers members) = Value.ofJsonMembers members :=
    Fields.erase_of_not_has hcomment
  have hpieces : Within ws.engine.limit (Json.memberLevels members) depth
      ⟨Value.ofJsonMembers members, []⟩
      (resolveMembers ws resolve here path scope 0
        (uncommented (Value.ofJsonMembers members))) := by
    rw [huncommented]
    exact resolveMembers_literal hkeys hmembers 0
  refine hpieces.bind_ok ?_
  rw [Fields.ofList_of_nodup (by rwa [Value.names_ofJsonMembers])]
  rfl

theorem resolveNode_literal
    (hresolve : ∀ u : Json, u.Literal → u.Distinct → Stays ws.engine.limit depth resolve u)
    {v : Json} (hv : v.Literal) (hdistinct : v.Distinct) :
    Stays ws.engine.limit (depth + 1) (resolveNode ws resolve) v := by
  intro here path scope
  cases v with
  | array items =>
    have hliteral := Json.literal_array_iff.mp hv
    have hitems (u : Json) (hu : u ∈ items) :
        u.Literal ∧ Stays ws.engine.limit depth resolve u :=
      ⟨hliteral u hu, hresolve u (hliteral u hu) (hdistinct.item hu)⟩
    exact ((resolveItems_literal hitems 0).map Value.ofItems).level
  | object members =>
    have hmembers := Json.literal_object_iff.mp hv
    have hplain : (Value.ofJsonMembers members).has templateKey = false :=
      has_ofJsonMembers_of_ne fun m hm => (hmembers m hm).1.2
    rw [Value.ofJson, Value.ofMembers, resolveNode, if_neg (by simp [hplain])]
    exact (resolveObject_literal (hdistinct [] members .here) (fun m hm => (hmembers m hm).1.1)
      fun m hm => hresolve m.2 (hmembers m hm).2 (hdistinct.member hm)).level
  | string s =>
    have hsource : source? s = none := hv.text [] s .here
    simp only [Value.ofJson, resolveNode, hsource]
    exact (Within.ok _).level
  | _ => exact (Within.ok _).level

theorem resolve_literal {v : Json} (hv : v.Literal) (hdistinct : v.Distinct) (depth : Nat) :
    Stays ws.engine.limit depth (Template.resolve ws depth) v := by
  induction depth generalizing v with
  | zero =>
    intro here path scope
    exact ⟨fun hle => absurd v.levels_pos (by omega), fun _ => ⟨path, rfl⟩⟩
  | succ depth ih => exact resolveNode_literal (fun u hu hd => ih hu hd) hv hdistinct

end Template

namespace Workspace

open Template

theorem compileMembers_template (ws : Workspace) (name : String) (scope : Scope) (body : Value) :
    ws.compileMembers name scope [(templateKey, body)] = do
      let json ← output ws.resolver (Trail.part [] 1) (Path.root.field templateKey) ([] :: scope)
        body
      return [(name, json)] :=
  rfl

/-- A document with a literal template has one output, the template without its deletions, if there
are levels for all that is in it; else it fails with the limit. -/
theorem compileDocument_literal {ws : Workspace} {name text : String} {scope : Scope} {T : Json}
    (htext : Json.ofText? text = some (.object [(templateKey, T)])) (hT : T.Literal) :
    (T.levels ≤ ws.engine.limit →
      ws.compileDocument name text scope = .ok [(name, T.pruned)]) ∧
    (ws.engine.limit < T.levels → ∃ path, ws.compileDocument name text scope =
      .error (.eval path (.recursionLimit ws.engine.limit))) := by
  have hdistinct : T.Distinct := (Json.distinct_of_ofText? htext).member List.mem_cons_self
  have hfinite : T.Finite := (Json.finite_of_ofText? htext).member List.mem_cons_self
  have hbody : Stays ws.engine.limit ws.engine.limit ws.resolver T :=
    resolve_literal hT hdistinct ws.engine.limit
  have houtput : Within ws.engine.limit T.levels ws.engine.limit T.pruned
      (output ws.resolver (Trail.part [] 1) (Path.root.field templateKey) ([] :: scope)
        (Value.ofJson T)) := by
    apply (hbody _ _ _).bind_ok
    rw [Json.toJson_stripNulls_ofJson hfinite]
    rfl
  have hdocument : ws.compileDocument name text scope =
      ws.compileMembers name scope [(templateKey, Value.ofJson T)] := by
    rw [compileDocument, readObject_eq_ok.mpr ⟨_, htext, rfl⟩]
    rfl
  have hresult : Within ws.engine.limit T.levels ws.engine.limit [(name, T.pruned)]
      (ws.compileDocument name text scope) := by
    rw [hdocument, compileMembers_template]
    exact houtput.bind_ok rfl
  exact ⟨hresult.eq_ok, hresult.eq_error⟩

/-- A template of four levels, with a deletion in the innermost one. -/
def plain : Json :=
  .object [("a", .null), ("b", .array [.string "null", .array [.null], .float 1.5]),
    ("\x7bc\x7d", .integer 1)]

def plainText : String :=
  "\x7b\"$template\":\x7b\"a\":null,\"b\":[\"null\",[null],1.5],\"\x7bc\x7d\":1\x7d\x7d"

theorem literal_plain : plain.Literal := by
  have hleaf {v : Json} (hv : v.IsLeaf) (htext : ∀ s, v ≠ .string s) : v.Literal :=
    hv.literal fun s hs => absurd hs (htext s)
  have hnull : Json.null.Literal := hleaf (by simp [Json.IsLeaf]) (by simp)
  have hnumber (n : Int64) : (Json.integer n).Literal := hleaf (by simp [Json.IsLeaf]) (by simp)
  have hfloat (x : Float) : (Json.float x).Literal := hleaf (by simp [Json.IsLeaf]) (by simp)
  have htext : (Json.string "null").Literal := by
    apply Json.IsLeaf.literal (by simp [Json.IsLeaf])
    rintro s ⟨⟩
    decide
  have hkeys : ∀ key ∈ ["a", "b", "\x7bc\x7d"], classify key = .literal ∧ key ≠ templateKey := by
    decide +kernel
  simp only [List.forall_mem_cons] at hkeys
  simp only [plain, Json.literal_object_iff, Json.literal_array_iff, List.forall_mem_cons]
  simp [hkeys, hnull, hnumber, hfloat, htext]

theorem compileDocument_plain :
    Json.ofText? plainText = some (.object [(templateKey, plain)]) ∧ plain.Literal ∧
      Workspace.compileDocument ⟨⟨.builtins, 4⟩, []⟩ "doc" plainText [] =
        .ok [("doc", .object [("b", .array [.array [], .float 1.5]), ("\x7bc\x7d", .integer 1)])] ∧
      ∃ path, Workspace.compileDocument ⟨⟨.builtins, 3⟩, []⟩ "doc" plainText [] =
        .error (.eval path (.recursionLimit 3)) := by
  have htext : Json.ofText? plainText = some (.object [(templateKey, plain)]) := by decide +kernel
  have hlevels : plain.levels = 4 := by decide
  refine ⟨htext, literal_plain, ?_, ?_⟩
  · exact (compileDocument_literal htext literal_plain).1 (by simp [hlevels])
  · exact (compileDocument_literal htext literal_plain).2 (by simp [hlevels])

end Workspace

end Stencil

import Stencil.Proofs.Value.Induction
import Stencil.Template.Workspace

/-!
# Taking comments out

A document, a value or a module without the members that are comments, at every depth. Nodes keep
their marks, so what tells them apart is what did before.
-/

namespace Stencil

open Template (commentKey)

theorem Template.templateKey_ne_commentKey : templateKey ≠ commentKey := by decide

theorem Template.scopeKey_ne_commentKey : scopeKey ≠ commentKey := by decide

namespace Json

mutual

def stripComments : Json → Json
  | array items => array (stripCommentItems items)
  | object members => object (stripCommentMembers members)
  | v => v

def stripCommentItems : List Json → List Json
  | [] => []
  | v :: vs => v.stripComments :: stripCommentItems vs

def stripCommentMembers : List (String × Json) → Fields Json
  | [] => []
  | (name, v) :: ms =>
    if name = commentKey then stripCommentMembers ms
    else (name, v.stripComments) :: stripCommentMembers ms

end

theorem stripCommentItems_eq_map (items : List Json) :
    stripCommentItems items = items.map stripComments := by
  induction items with
  | nil => rfl
  | cons v vs ih => rw [stripCommentItems, ih, List.map_cons]

theorem stripCommentMembers_eq_map (members : Fields Json) :
    stripCommentMembers members =
      (members.erase commentKey).map fun m => (m.1, m.2.stripComments) := by
  induction members with
  | nil => rfl
  | cons m ms ih =>
    rw [stripCommentMembers, ih]
    by_cases h : m.1 = commentKey <;> simp [h, Fields.erase]

end Json

namespace Value

mutual

def stripComments : Value → Value
  | array node items => array node (stripCommentItems items)
  | object node members => object node (stripCommentMembers members)
  | v => v

def stripCommentItems : List Value → List Value
  | [] => []
  | v :: vs => v.stripComments :: stripCommentItems vs

def stripCommentMembers : List (String × Value) → Fields Value
  | [] => []
  | (name, v) :: ms =>
    if name = commentKey then stripCommentMembers ms
    else (name, v.stripComments) :: stripCommentMembers ms

end

theorem stripCommentItems_eq_map (items : List Value) :
    stripCommentItems items = items.map stripComments := by
  induction items with
  | nil => rfl
  | cons v vs ih => rw [stripCommentItems, ih, List.map_cons]

theorem stripCommentMembers_eq_map (members : Fields Value) :
    stripCommentMembers members =
      (members.erase commentKey).map fun m => (m.1, m.2.stripComments) := by
  induction members with
  | nil => rfl
  | cons m ms ih =>
    rw [stripCommentMembers, ih]
    by_cases h : m.1 = commentKey <;> simp [h, Fields.erase]

theorem get?_stripCommentMembers {k : String} (hk : k ≠ commentKey) (members : Fields Value) :
    (stripCommentMembers members).get? k = (members.get? k).map stripComments := by
  rw [stripCommentMembers_eq_map, Fields.get?_map, Fields.get?_erase, if_neg hk]

theorem has_stripCommentMembers {k : String} (hk : k ≠ commentKey) (members : Fields Value) :
    (stripCommentMembers members).has k = members.has k := by
  rw [Fields.has_eq_isSome, Fields.has_eq_isSome, get?_stripCommentMembers hk, Option.isSome_map]

theorem stripCommentMembers_insert_comment (members : Fields Value) (v : Value) :
    stripCommentMembers (members.insert commentKey v) = stripCommentMembers members := by
  induction members with
  | nil => simp [Fields.insert, stripCommentMembers]
  | cons m ms ih =>
    rw [Fields.insert]
    by_cases h : m.1 = commentKey
    · simp [h, stripCommentMembers]
    · simp [h, stripCommentMembers, ih]

theorem stripCommentMembers_insert {k : String} (hk : k ≠ commentKey) (members : Fields Value)
    (v : Value) : stripCommentMembers (members.insert k v) =
      (stripCommentMembers members).insert k v.stripComments := by
  induction members with
  | nil => simp [Fields.insert, stripCommentMembers, hk]
  | cons m ms ih =>
    rw [Fields.insert]
    by_cases h : m.1 = commentKey
    · simp [h, stripCommentMembers, ih, Ne.symm hk]
    · by_cases heq : m.1 = k
      · simp [heq, hk, stripCommentMembers, Fields.insert]
      · simp [h, heq, stripCommentMembers, Fields.insert, ih]

theorem stripCommentMembers_erase_comment (members : Fields Value) :
    stripCommentMembers (members.erase commentKey) = stripCommentMembers members := by
  rw [stripCommentMembers_eq_map, stripCommentMembers_eq_map, Fields.erase, Fields.erase,
    List.filter_filter]
  simp

theorem stripCommentMembers_erase (k : String) (members : Fields Value) :
    stripCommentMembers (members.erase k) = (stripCommentMembers members).erase k := by
  rw [stripCommentMembers_eq_map, stripCommentMembers_eq_map, Fields.erase, Fields.erase,
    Fields.erase, Fields.erase, List.filter_map, List.filter_filter, List.filter_filter]
  simp only [Function.comp_def, Bool.and_comm]

@[simp] theorem isDeletion_stripComments (v : Value) :
    v.stripComments.isDeletion = v.isDeletion := by
  cases v <;> rfl

@[simp] theorem sameNode_stripComments (v w : Value) :
    v.stripComments.sameNode w.stripComments = v.sameNode w := by
  cases v with
  | array node =>
    cases w with
    | array node' => cases node <;> cases node' <;> rfl
    | _ => cases node <;> rfl
  | object node =>
    cases w with
    | object node' => cases node <;> cases node' <;> rfl
    | _ => cases node <;> rfl
  | _ => cases w <;> rfl

theorem deepCopy_stripComments (v : Value) :
    v.stripComments.deepCopy = v.deepCopy.stripComments := by
  induction v using rec_nodes with
  | onArray node items ih =>
    simp only [stripComments, deepCopy, ofItems, copyItems_eq_map, stripCommentItems_eq_map,
      List.map_map]
    congr 1
    exact List.map_congr_left ih
  | onObject node members ih =>
    simp only [stripComments, deepCopy, ofMembers, copyMembers_eq_map,
      stripCommentMembers_eq_map, Fields.erase_map, List.map_map]
    congr 1
    apply List.map_congr_left
    intro m hm
    exact congrArg (Prod.mk m.1) (ih m (List.mem_of_mem_filter hm))
  | onLeaf v harray hobject =>
    cases v <;> first | rfl | simp [kind] at harray hobject

theorem copyItems_stripCommentItems (items : List Value) :
    copyItems (stripCommentItems items) = stripCommentItems (copyItems items) := by
  simp only [copyItems_eq_map, stripCommentItems_eq_map, List.map_map]
  exact List.map_congr_left fun v _ => deepCopy_stripComments v

theorem joined_stripComments (template : Value) (items : List Value) :
    template.stripComments.joined (stripCommentItems items) =
      (template.joined items).stripComments := by
  have happend (vs ws : List Value) :
      stripCommentItems (vs ++ ws) = stripCommentItems vs ++ stripCommentItems ws := by
    simp only [stripCommentItems_eq_map, List.map_append]
  cases template <;>
    simp [joined, stripComments, ofItems, copyItems_stripCommentItems, happend, stripCommentItems]

theorem ofJson_stripComments (v : Json) : ofJson v.stripComments = (ofJson v).stripComments := by
  induction v using Json.rec_nodes with
  | onArray items ih =>
    simp only [Json.stripComments, ofJson, stripComments, ofItems, ofJsonItems_eq_map,
      Json.stripCommentItems_eq_map, stripCommentItems_eq_map, List.map_map]
    congr 1
    exact List.map_congr_left ih
  | onObject members ih =>
    simp only [Json.stripComments, ofJson, stripComments, ofMembers, ofJsonMembers_eq_map,
      Json.stripCommentMembers_eq_map, stripCommentMembers_eq_map, Fields.erase_map, List.map_map]
    congr 1
    apply List.map_congr_left
    intro m hm
    exact congrArg (Prod.mk m.1) (ih m (List.mem_of_mem_filter hm))
  | onLeaf v harray hobject =>
    cases v <;> first | rfl | simp at harray hobject

end Value

def Module.stripComments (m : Module) : Module :=
  { m with template := m.template.map Value.stripComments }

def Workspace.stripComments (ws : Workspace) : Workspace :=
  { ws with modules := ws.modules.map fun m => (m.1, m.2.stripComments) }

end Stencil

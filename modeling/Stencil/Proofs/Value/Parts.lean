import Stencil.Proofs.Value.Induction
import Mathlib.Data.List.Forall2

/-!
# Parts of values

What stands in a value, at any depth. Values are alike if they differ in nothing but the nodes that
they are made of, as a value and its copy do, and apart if no array and no object is in both.
-/

namespace Stencil.Value

mutual

/-- The value itself, its items or members, and all that stands in these. -/
def parts : Value → List Value
  | array node items => array node items :: itemParts items
  | object node members => object node members :: memberParts members
  | v => [v]

def itemParts : List Value → List Value
  | [] => []
  | v :: vs => v.parts ++ itemParts vs

def memberParts : List (String × Value) → List Value
  | [] => []
  | (_, v) :: ms => v.parts ++ memberParts ms

end

theorem itemParts_eq_flatMap (items : List Value) : itemParts items = items.flatMap parts := by
  induction items with
  | nil => rfl
  | cons v vs ih => rw [itemParts, ih, List.flatMap_cons]

theorem memberParts_eq_flatMap (members : List (String × Value)) :
    memberParts members = members.flatMap (·.2.parts) := by
  induction members with
  | nil => rfl
  | cons m ms ih => rw [memberParts, ih, List.flatMap_cons]

theorem map_eq_map_of_forall₂ {α β γ : Type} {R : α → β → Prop} {f : α → γ} {g : β → γ}
    {as : List α} {bs : List β} (h : List.Forall₂ R as bs)
    (hfg : ∀ a ∈ as, ∀ b, R a b → f a = g b) : as.map f = bs.map g := by
  induction h with
  | nil => rfl
  | cons hab _ ih =>
    obtain ⟨ha, has⟩ := List.forall_mem_cons.mp hfg
    exact congrArg₂ List.cons (ha _ hab) (ih has)

theorem exists_of_forall₂ {α β : Type} {R : α → β → Prop} {as : List α} {bs : List β}
    (h : List.Forall₂ R as bs) {a : α} (ha : a ∈ as) : ∃ b ∈ bs, R a b := by
  induction h with
  | nil => cases ha
  | @cons a' b as bs hab _ ih =>
    rcases List.mem_cons.mp ha with rfl | ha
    · exact ⟨b, List.mem_cons_self, hab⟩
    · obtain ⟨b', hb', hab'⟩ := ih ha
      exact ⟨b', List.mem_cons_of_mem _ hb', hab'⟩

theorem mem_parts_self (v : Value) : v ∈ v.parts := by
  cases v <;> simp [parts]

theorem mem_parts_of_item {node : Node} {items : List Value} {u w : Value} (hu : u ∈ items)
    (hw : w ∈ u.parts) : w ∈ (array node items).parts := by
  rw [parts, itemParts_eq_flatMap]
  exact List.mem_cons_of_mem _ (List.mem_flatMap.mpr ⟨u, hu, hw⟩)

theorem mem_parts_of_member {node : Node} {members : Fields Value} {k : String} {u w : Value}
    (hu : (k, u) ∈ members) (hw : w ∈ u.parts) : w ∈ (object node members).parts := by
  rw [parts, memberParts_eq_flatMap]
  exact List.mem_cons_of_mem _ (List.mem_flatMap.mpr ⟨(k, u), hu, hw⟩)

/-- The same value, whatever nodes it is made of. -/
inductive Alike : Value → Value → Prop
  | array {node node' items items'} : List.Forall₂ Alike items items' →
      Alike (array node items) (array node' items')
  | object {node node' members members'} : Fields.names members = Fields.names members' →
      List.Forall₂ (fun m m' => Alike m.2 m'.2) members members' →
      Alike (object node members) (object node' members')
  | leaf {v : Value} : v.kind ≠ .array → v.kind ≠ .object → Alike v v

theorem alike_deepCopy (v : Value) : v.Alike v.deepCopy := by
  induction v using rec_nodes with
  | onArray node items ih =>
    rw [deepCopy, copyItems_eq_map]
    apply Alike.array
    rw [List.forall₂_map_right_iff, List.forall₂_same]
    exact ih
  | onObject node members ih =>
    rw [deepCopy, copyMembers_eq_map]
    apply Alike.object
    · rw [Fields.names_map]
    · rw [List.forall₂_map_right_iff, List.forall₂_same]
      exact ih
  | onLeaf v harray hobject =>
    have hcopy : v.deepCopy = v := by cases v <;> first | rfl | simp [kind] at harray hobject
    rw [hcopy]
    exact .leaf harray hobject

theorem forall₂_alike_copyItems (items : List Value) :
    List.Forall₂ Alike items (copyItems items) := by
  rw [copyItems_eq_map, List.forall₂_map_right_iff, List.forall₂_same]
  exact fun v _ => alike_deepCopy v

/-- No array and no object is in both values. -/
def Apart (v w : Value) : Prop :=
  ∀ a ∈ v.parts, ∀ b ∈ w.parts, a.sameNode b = false

instance (v w : Value) : Decidable (Apart v w) :=
  inferInstanceAs (Decidable (∀ a ∈ v.parts, ∀ b ∈ w.parts, a.sameNode b = false))

theorem Apart.sameNode {v w : Value} (h : Apart v w) : v.sameNode w = false :=
  h v (mem_parts_self v) w (mem_parts_self w)

theorem Apart.member {node node' : Node} {own members : Fields Value} {k : String} {v u : Value}
    (h : Apart (object node own) (object node' members)) (hv : own.get? k = some v)
    (hu : members.get? k = some u) : Apart v u := by
  intro a ha b hb
  apply h
  · exact mem_parts_of_member (Fields.mem_of_get? hv) ha
  · exact mem_parts_of_member (Fields.mem_of_get? hu) hb

def names : Value → List String
  | object _ members => Fields.names members
  | _ => []

/-- Every object inside, and the value itself, has each name once. -/
def Distinct (v : Value) : Prop :=
  ∀ u ∈ v.parts, u.names.Nodup

instance (v : Value) : Decidable v.Distinct :=
  inferInstanceAs (Decidable (∀ u ∈ v.parts, u.names.Nodup))

theorem Distinct.nodup_names {node : Node} {members : Fields Value}
    (h : Distinct (object node members)) : members.names.Nodup :=
  h _ (mem_parts_self _)

theorem Distinct.member {node : Node} {members : Fields Value} {k : String} {u : Value}
    (h : Distinct (object node members)) (hu : (k, u) ∈ members) : Distinct u :=
  fun w hw => h w (mem_parts_of_member hu hw)

end Stencil.Value

import Mathlib.Data.Option.Defs
import Mathlib.Data.List.Perm.Subperm
import Stencil.Proofs.Merge.Settling
import Stencil.Proofs.Value.Parts
import Stencil.Value.Compare

/-!
# Values that match

Two values match up to a relation if they are made alike down to their scalars, which are related:
arrays match item by item, objects name by name. Both equalities are matches up to an equality of
scalars. They look at the members of the left object only, which is enough because both objects have
as many names and none of them twice.
-/

namespace Stencil

/-- Fields that are as many on both sides and related from the left are related from the right. -/
theorem Fields.rel_get?_iff {α β : Type} {R : α → β → Prop} {fs : Fields α} {gs : Fields β}
    (hfs : fs.names.Nodup) (hgs : gs.names.Nodup) :
    (∀ name, Option.Rel R (fs.get? name) (gs.get? name)) ↔
      fs.length = gs.length ∧ ∀ f ∈ fs, ∃ b, gs.get? f.1 = some b ∧ R f.2 b := by
  have hlength {γ : Type} (fs : Fields γ) : fs.names.length = fs.length := List.length_map _
  rw [← hlength fs, ← hlength gs]
  constructor
  · intro h
    have hnames : fs.names.Perm gs.names := by
      rw [List.perm_ext_iff_of_nodup hfs hgs]
      intro name
      rw [← has_iff_mem_names, ← has_iff_mem_names, has_eq_isSome, has_eq_isSome]
      have hrel := h name
      revert hrel
      cases fs.get? name <;> cases gs.get? name <;> simp
    refine ⟨hnames.length_eq, fun f hf => ?_⟩
    have hrel := h f.1
    rw [(mem_iff_get? hfs f.1 f.2).mp hf] at hrel
    cases hget : gs.get? f.1 with
    | none => simp [hget] at hrel
    | some b => exact ⟨b, rfl, by simpa [hget] using hrel⟩
  · rintro ⟨hlen, h⟩ name
    have hsub : fs.names ⊆ gs.names := by
      intro name hname
      obtain ⟨f, hf, rfl⟩ := List.mem_map.mp hname
      obtain ⟨b, hb, -⟩ := h f hf
      rw [← has_iff_mem_names, has_eq_isSome, hb]
      rfl
    have hnames : fs.names.Perm gs.names :=
      (List.subperm_of_subset hfs hsub).perm_of_length_le (Nat.le_of_eq hlen.symm)
    cases hget : fs.get? name with
    | none =>
      have hnone : gs.get? name = none := by
        rw [get?_eq_none_iff, ← hnames.mem_iff, ← get?_eq_none_iff]
        exact hget
      rw [hnone]
      exact .none
    | some a =>
      obtain ⟨b, hb, hR⟩ := h (name, a) (mem_of_get? hget)
      rw [hb]
      exact .some hR

theorem rel_imp {α β : Type} {R S : α → β → Prop} {o : Option α} {o' : Option β}
    (h : Option.Rel R o o') (himp : ∀ a, o = some a → ∀ b, R a b → S a b) : Option.Rel S o o' := by
  cases h with
  | some h => exact .some (himp _ rfl _ h)
  | none => exact .none

namespace Value

/-- The same shape down to the values that hold no others, which are related by `R`. The members of
objects may come in any order. -/
inductive Matches (R : Value → Value → Prop) : Value → Value → Prop
  | array {node node' items items'} : List.Forall₂ (Matches R) items items' →
      Matches R (array node items) (array node' items')
  | object {node node' members members'} :
      (∀ name, Option.Rel (Matches R) (Fields.get? members name) (Fields.get? members' name)) →
      Matches R (object node members) (object node' members')
  | leaf {v w : Value} : v.isNode = false → w.isNode = false → R v w → Matches R v w

variable {R S : Value → Value → Prop} {u v w : Value} {node node' : Node}

theorem isNode_of_kind_ne (harray : v.kind ≠ .array) (hobject : v.kind ≠ .object) :
    v.isNode = false := by
  cases v <;> simp_all [isNode, kind]

theorem matches_array_iff {items items' : List Value} :
    Matches R (array node items) (array node' items') ↔
      List.Forall₂ (Matches R) items items' := by
  constructor
  · intro h
    cases h with
    | array h => exact h
    | leaf h => simp [isNode] at h
  · exact .array

theorem matches_object_iff {members members' : Fields Value} :
    Matches R (object node members) (object node' members') ↔
      ∀ name, Option.Rel (Matches R) (members.get? name) (members'.get? name) := by
  constructor
  · intro h
    cases h with
    | object h => exact h
    | leaf h => simp [isNode] at h
  · exact .object

theorem matches_leaf_iff (hv : v.isNode = false) :
    Matches R v w ↔ w.isNode = false ∧ R v w := by
  constructor
  · intro h
    cases h with
    | leaf _ hw h => exact ⟨hw, h⟩
    | _ => simp [isNode] at hv
  · exact fun h => .leaf hv h.1 h.2

theorem Matches.kind_eq (h : Matches R v w) (hv : v.isNode = true) : v.kind = w.kind := by
  cases h with
  | leaf hleaf => simp [hleaf] at hv
  | _ => rfl

/-- What holds of values that match, if it holds once it does of their items or members. -/
theorem Matches.induct {motive : Value → Value → Prop}
    (onArray : ∀ node node' items items',
      List.Forall₂ motive items items' → motive (.array node items) (.array node' items'))
    (onObject : ∀ node node' members members',
      (∀ name, Option.Rel motive (Fields.get? members name) (Fields.get? members' name)) →
        motive (.object node members) (.object node' members'))
    (onLeaf : ∀ v w, v.isNode = false → w.isNode = false → R v w → motive v w)
    (h : Matches R v w) : motive v w := by
  induction v using rec_nodes generalizing w with
  | onArray node items ih =>
    cases h with
    | array h =>
      refine onArray _ _ _ _ ?_
      induction h with
      | nil => exact .nil
      | cons h _ ihrest =>
        obtain ⟨ih, ihs⟩ := List.forall_mem_cons.mp ih
        exact .cons (ih h) (ihrest ihs)
    | leaf hv hw h => exact onLeaf _ _ hv hw h
  | onObject node members ih =>
    cases h with
    | object h =>
      refine onObject _ _ _ _ fun name => ?_
      exact rel_imp (h name) fun v hv _ => ih (name, v) (Fields.mem_of_get? hv)
    | leaf hv hw h => exact onLeaf _ _ hv hw h
  | onLeaf v harray hobject =>
    cases h with
    | leaf hv hw h => exact onLeaf _ _ hv hw h
    | _ => simp [kind] at harray hobject

theorem Matches.mono (hRS : ∀ v w, R v w → S v w) (h : Matches R v w) : Matches S v w :=
  h.induct (fun _ _ _ _ => .array) (fun _ _ _ _ => .object)
    fun v w hv hw h => .leaf hv hw (hRS v w h)

/-- Values that match do so from the other side. -/
theorem Matches.flip (h : Matches R v w) : Matches (fun v w => R w v) w v := by
  refine h.induct (motive := fun v w => Matches (fun v w => R w v) w v) ?_ ?_ ?_
  · exact fun _ _ _ _ h => .array h.flip
  · refine fun _ _ _ _ h => .object fun name => ?_
    have hrel := h name
    revert hrel
    cases Fields.get? _ name <;> cases Fields.get? _ name <;> simp
  · exact fun _ _ hv hw h => .leaf hw hv h

/-- The same value but for the order of members, at any depth, and the nodes that it is made of. -/
abbrev Reordered : Value → Value → Prop :=
  Matches (· = ·)

theorem Reordered.refl (v : Value) : Reordered v v := by
  induction v using rec_nodes with
  | onArray node items ih => exact .array (List.forall₂_same.mpr ih)
  | onObject node members ih =>
    refine .object fun name => ?_
    cases hget : Fields.get? members name with
    | none => exact .none
    | some v => exact .some (ih (name, v) (Fields.mem_of_get? hget))
  | onLeaf v harray hobject =>
    have hv := isNode_of_kind_ne harray hobject
    exact .leaf hv hv rfl

theorem Reordered.of_perm {members members' : Fields Value} (hnames : members.names.Nodup)
    (h : members.Perm members') : Reordered (object node members) (object node' members') := by
  have hnames' : members'.names.Nodup := (h.map _).nodup_iff.mp hnames
  refine .object ((Fields.rel_get?_iff hnames hnames').mpr ⟨h.length_eq, fun m hm => ?_⟩)
  exact ⟨m.2, (Fields.mem_iff_get? hnames' m.1 m.2).mp (h.mem_iff.mp hm), Reordered.refl m.2⟩

/-- What a value matches, it matches with its members in another order. -/
theorem Matches.of_reordered {v' : Value} (h : Matches R v w) (hv : Reordered v v') :
    Matches R v' w := by
  refine hv.induct (motive := fun v v' => ∀ w, Matches R v w → Matches R v' w) ?_ ?_ ?_ w h
  · intro node node' items items' hitems w h
    cases h with
    | array h =>
      rename_i ws
      refine .array ?_
      induction hitems generalizing ws with
      | nil => simpa using h
      | cons hv _ ih =>
        obtain ⟨w, ws, hvw, hrest, rfl⟩ := List.forall₂_cons_left_iff.mp h
        exact .cons (hv w hvw) (ih hrest)
    | leaf hv => simp [isNode] at hv
  · intro node node' members members' hmembers w h
    cases h with
    | object h =>
      refine .object fun name => ?_
      have hrel := h name
      have hrel' := hmembers name
      revert hrel hrel'
      cases Fields.get? members name <;> cases Fields.get? members' name <;>
        cases Fields.get? _ name <;> simp
      exact fun h h' => h' _ h
    | leaf hv => simp [isNode] at hv
  · rintro v _ hv hv' rfl w h
    exact h

theorem matches_congr {v' w' : Value} (hv : Reordered v v') (hw : Reordered w w') :
    Matches R v w ↔ Matches R v' w' := by
  have himp {v v' w w' : Value} (hv : Reordered v v') (hw : Reordered w w')
      (h : Matches R v w) : Matches R v' w' :=
    ((h.of_reordered hv).flip.of_reordered hw).flip
  have hsymm {v w : Value} (h : Reordered v w) : Reordered w v := h.flip.mono fun _ _ => Eq.symm
  exact ⟨himp hv hw, himp (hsymm hv) (hsymm hw)⟩

/-- The function compares by shape down to `scalars`, the equality of values that hold no others. It
looks up the members of the left object in the right one. -/
structure Compares (f scalars : Value → Value → Bool) : Prop where
  onArrays (node node' : Node) (items items' : List Value) :
    f (array node items) (array node' items') ↔ List.Forall₂ (fun v w => f v w) items items'
  onObjects (node node' : Node) (members members' : Fields Value) :
    f (object node members) (object node' members') ↔ members.length = members'.length ∧
      ∀ m ∈ members, ∃ w, members'.get? m.1 = some w ∧ f m.2 w
  otherwise (v w : Value) : v.kind ≠ w.kind ∨ v.isNode = false → f v w = scalars v w
  onLeaves (v w : Value) : scalars v w → v.isNode = false ∧ w.isNode = false

theorem forall₂_congr_of_mem {as bs : List Value}
    (h : ∀ a ∈ as, ∀ b ∈ bs, R a b ↔ S a b) : List.Forall₂ R as bs ↔ List.Forall₂ S as bs := by
  rw [List.forall₂_iff_zip, List.forall₂_iff_zip]
  refine and_congr_right fun _ => forall_congr' fun a => forall_congr' fun b => ?_
  exact imp_congr_right fun hab => h a (List.of_mem_zip hab).1 b (List.of_mem_zip hab).2

theorem Distinct.item {items : List Value} (h : Distinct (array node items)) (hv : v ∈ items) :
    Distinct v :=
  fun u hu => h u (mem_parts_of_item hv hu)

theorem Compares.kind_eq {f scalars : Value → Value → Bool} (h : Compares f scalars)
    (hf : f v w) (hv : v.isNode = true) : v.kind = w.kind := by
  by_contra hkind
  rw [h.otherwise v w (.inl hkind)] at hf
  simp [(h.onLeaves v w hf).1] at hv

/-- A function that compares finds out whether two values match. -/
theorem Compares.iff_matches {f scalars : Value → Value → Bool} (h : Compares f scalars)
    (hv : v.Distinct) (hw : w.Distinct) : f v w ↔ Matches (fun v w => scalars v w) v w := by
  induction v using rec_nodes generalizing w with
  | onArray node items ih =>
    cases w with
    | array node' items' =>
      rw [h.onArrays, matches_array_iff]
      exact forall₂_congr_of_mem fun v hv' w hw' => ih v hv' (hv.item hv') (hw.item hw')
    | _ =>
      exact iff_of_false (fun hf => nomatch h.kind_eq hf rfl) fun hm => nomatch hm.kind_eq rfl
  | onObject node members ih =>
    cases w with
    | object node' members' =>
      rw [h.onObjects, matches_object_iff, Fields.rel_get?_iff hv.nodup_names hw.nodup_names]
      refine and_congr_right fun _ => forall₂_congr fun m hm => exists_congr fun w => ?_
      exact and_congr_right fun hget =>
        ih m hm (hv.member hm) (hw.member (Fields.mem_of_get? hget))
    | _ =>
      exact iff_of_false (fun hf => nomatch h.kind_eq hf rfl) fun hm => nomatch hm.kind_eq rfl
  | onLeaf v harray hobject =>
    have hleaf := isNode_of_kind_ne harray hobject
    rw [h.otherwise v w (.inr hleaf), matches_leaf_iff hleaf]
    exact ⟨fun heq => ⟨(h.onLeaves v w heq).2, heq⟩, And.right⟩

theorem equalItems_iff {as bs : List Value} :
    equalItems as bs ↔ List.Forall₂ (fun v w => v.equals w) as bs := by
  induction as generalizing bs with
  | nil => cases bs <;> simp [equalItems]
  | cons a as ih => cases bs <;> simp [equalItems, ih]

theorem equalMembers_iff {as bs : Fields Value} :
    equalMembers as bs ↔ ∀ m ∈ as, ∃ w, bs.get? m.1 = some w ∧ m.2.equals w := by
  induction as with
  | nil => simp [equalMembers]
  | cons m as ih =>
    rw [equalMembers, Bool.and_eq_true, ih, List.forall_mem_cons]
    cases bs.get? m.1 <;> simp

theorem compares_equals : Compares equals equalScalars where
  onArrays _ _ _ _ := by rw [equals, equalItems_iff]
  onObjects _ _ _ _ := by rw [equals, Bool.and_eq_true, decide_eq_true_eq, equalMembers_iff]
  otherwise v w := by cases v <;> cases w <;> simp [equals, kind, isNode]
  onLeaves v w := by cases v <;> cases w <;> simp [equalScalars, equalNumbers, number?, isNode]

theorem sameItems_iff {as bs : List Value} :
    sameItems as bs ↔ List.Forall₂ (fun v w => v.same w) as bs := by
  induction as generalizing bs with
  | nil => cases bs <;> simp [sameItems]
  | cons a as ih => cases bs <;> simp [sameItems, ih]

theorem sameMembers_iff {as bs : Fields Value} :
    sameMembers as bs ↔ ∀ m ∈ as, ∃ w, bs.get? m.1 = some w ∧ m.2.same w := by
  induction as with
  | nil => simp [sameMembers]
  | cons m as ih =>
    rw [sameMembers, Bool.and_eq_true, ih, List.forall_mem_cons]
    cases bs.get? m.1 <;> simp

theorem compares_same : Compares same sameScalars where
  onArrays _ _ _ _ := by rw [same, sameItems_iff]
  onObjects _ _ _ _ := by rw [same, Bool.and_eq_true, decide_eq_true_eq, sameMembers_iff]
  otherwise v w := by cases v <;> cases w <;> simp [same, kind, isNode]
  onLeaves v w := by cases v <;> cases w <;> simp [sameScalars, isNode]

end Value
end Stencil

import Stencil.Proofs.Merge.Members

/-!
# Merging a parent again

A value absorbs a parent if merging it changes nothing. A copy absorbs its original, and what a
merge comes to absorbs the parent, as long as no array grows and no deletion is used up. A `null`
that came from the parent is no obstacle: it stands where the parent has no object.
-/

namespace Stencil.Value

/-- Merging the parent changes nothing. -/
def Absorbs (v parent : Value) : Prop :=
  v.merged parent = ⟨v, none⟩

theorem absorbs_of_not_isNode {parent : Value} (hparent : parent.isNode = false) (v : Value) :
    v.Absorbs parent := by
  rw [Absorbs, merged]
  unfold mergeAt
  cases parent with
  | array | object => simp [isNode] at hparent
  | _ => cases v <;> simp [sameNode]

theorem Absorbs.isDeletion {node : Node} {members : Fields Value} {v : Value}
    (h : v.Absorbs (object node members)) : v.isDeletion = false := by
  cases v with
  | null => simp [Absorbs, merged, mergeAt, sameNode] at h
  | string s => simp [Absorbs, merged, mergeAt, sameNode] at h
  | _ => rfl

theorem Absorbs.sameNode {parent v : Value} (h : v.Absorbs parent) : v.sameNode parent = false := by
  by_contra hsame
  rw [Bool.not_eq_false] at hsame
  rw [Absorbs, merged] at h
  unfold mergeAt at h
  simp [hsame] at h

/-- A member whose value absorbs that of the parent. -/
theorem mergeMember_of_absorbs {k : String} {u v : Value} {own : Fields Value}
    (hu : u.kind ≠ .array) (hv : own.get? k = some v) (h : v.Absorbs u) (path : Path) :
    mergeMember path k u own = ⟨own, none⟩ := by
  have hsame := h.sameNode
  rw [mergeMember, hv]
  cases u with
  | array => simp [kind] at hu
  | object node members =>
    have hdel := h.isDeletion
    rw [Absorbs] at h
    simp [hsame, hdel, mergeAt_eq_below, h, Merged.below, Fields.insert_of_get? hv]
  | _ => simp [hsame]

theorem absorbs_object {node : Node} {own members : Fields Value}
    (h : ∀ m ∈ members, m.2.kind ≠ .array ∧ ∃ v, own.get? m.1 = some v ∧ v.Absorbs m.2) :
    (ofMembers own).Absorbs (object node members) := by
  have hmembers : mergeMembers .root members own = ⟨own, none⟩ := by
    induction members with
    | nil => rfl
    | cons m rest ih =>
      obtain ⟨⟨hkind, v, hv, habsorbs⟩, hrest⟩ := List.forall_mem_cons.mp h
      rw [mergeMembers_cons, mergeMember_of_absorbs hkind hv habsorbs]
      exact ih hrest
  simp [Absorbs, merged, mergeAt, ofMembers, sameNode, hmembers]

/-- A copy absorbs what it is a copy of. -/
theorem absorbs_deepCopy {v : Value} (hdistinct : v.Distinct)
    (harray : ∀ u ∈ v.parts, u.kind ≠ .array) : v.deepCopy.Absorbs v := by
  induction v using rec_nodes with
  | onArray node items ih => exact absurd rfl (harray _ (mem_parts_self _))
  | onLeaf v hleaf hobject =>
    apply absorbs_of_not_isNode
    cases v <;> first | rfl | simp [kind] at hleaf hobject
  | onObject node members ih =>
    rw [deepCopy, copyMembers_eq_map]
    apply absorbs_object
    intro m hm
    have hinner : ∀ u ∈ m.2.parts, u.kind ≠ .array :=
      fun u hu => harray u (mem_parts_of_member hm hu)
    refine ⟨hinner _ (mem_parts_self _), m.2.deepCopy, ?_, ih m hm (hdistinct.member hm) hinner⟩
    rw [Fields.get?_map, (Fields.mem_iff_get? hdistinct.nodup_names m.1 m.2).mp hm, Option.map_some]

/-- What one name comes to absorbs the value that the parent has for it. -/
theorem absorbs_of_mergesTo {u : Value} {own result : Option Value} (h : u.MergesTo own result)
    (hu : u.kind ≠ .array) (hcopy : u.deepCopy.Absorbs u)
    (hown : ∀ v, own = some v → v.kind ≠ .array ∧ v.isDeletion = false)
    (hsame : ∀ v, own = some v → v.sameNode u = false)
    (hmerge : ∀ v, own = some v → ∀ w, v.merge u = .ok w → w.Absorbs u) :
    ∃ w, result = some w ∧ w.Absorbs u := by
  cases h with
  | copied => exact ⟨_, rfl, hcopy⟩
  | kept hleaf => exact ⟨_, rfl, absorbs_of_not_isNode hleaf _⟩
  | removed _ hdel => simp [(hown _ rfl).2] at hdel
  | joined hparent =>
    subst hparent
    exact absurd rfl hu
  | appended => exact absurd rfl (hown _ rfl).1
  | @merged path node own node' members hparent hconflict =>
    subst hparent
    exact ⟨_, rfl, hmerge _ rfl _ (merge_object (hsame _ rfl) path hconflict)⟩

/-- What a merge comes to absorbs the parent. -/
theorem absorbs_of_merge {template parent r : Value} (hdistinct : parent.Distinct)
    (htemplate : ∀ v ∈ template.parts, v.kind ≠ .array ∧ v.isDeletion = false)
    (hparent : ∀ v ∈ parent.parts, v.kind ≠ .array) (h : template.merge parent = .ok r) :
    r.Absorbs parent := by
  induction parent using rec_nodes generalizing template r with
  | onArray node items ih => exact absurd rfl (hparent _ (mem_parts_self _))
  | onLeaf v harray hobject =>
    apply absorbs_of_not_isNode
    cases v <;> first | rfl | simp [kind] at harray hobject
  | onObject node members ih =>
    cases template with
    | array node' items => exact absurd rfl (htemplate _ (mem_parts_self _)).1
    | object node' own =>
      obtain ⟨hconflict, rfl⟩ := merge_object_eq_ok h
      have hnames := hdistinct.nodup_names
      apply absorbs_object
      intro m hm
      have hget := (Fields.mem_iff_get? hnames m.1 m.2).mp hm
      have hinner : ∀ u ∈ m.2.parts, u.kind ≠ .array :=
        fun u hu => hparent u (mem_parts_of_member hm hu)
      have hown (v : Value) (hv : Fields.get? own m.1 = some v) :
          ∀ u ∈ v.parts, u.kind ≠ .array ∧ u.isDeletion = false :=
        fun u hu => htemplate u (mem_parts_of_member (Fields.mem_of_get? hv) hu)
      refine ⟨hinner _ (mem_parts_self _), ?_⟩
      apply absorbs_of_mergesTo (mergesTo_of_mergeMembers hnames hconflict hget)
      · exact hinner _ (mem_parts_self _)
      · exact absorbs_deepCopy (hdistinct.member hm) hinner
      · exact fun v hv => hown v hv v (mem_parts_self v)
      · exact fun v hv => sameNode_of_mergeMembers hnames hconflict hget hv
      · exact fun v hv w hw => ih m hm (hdistinct.member hm) (hown v hv) hinner hw
    | _ => simp [merge, merged, mergeAt, sameNode] at h

/-- Merging a parent a second time changes nothing, if there are no arrays and the template has no
deletions. -/
theorem merge_merge {template parent r : Value} (hdistinct : parent.Distinct)
    (htemplate : ∀ v ∈ template.parts, v.kind ≠ .array ∧ v.isDeletion = false)
    (hparent : ∀ v ∈ parent.parts, v.kind ≠ .array) (h : template.merge parent = .ok r) :
    r.merge parent = .ok r := by
  have habsorbs := absorbs_of_merge hdistinct htemplate hparent h
  rw [Absorbs] at habsorbs
  rw [merge, habsorbs]

/-- A template, and a parent that brings deletions of its own. -/
def settled : Value :=
  .object (some 0) [("a", .integer 1), ("inner", .object (some 1) [("x", .boolean true)])]

def settledParent : Value :=
  .object (some 10) [("new", .object (some 11) [("gone", .null), ("text", .string "null")]),
    ("inner", .object (some 12) [("y", .null), ("x", .boolean false),
      ("z", .object (some 13) [])]), ("a", .null)]

theorem merge_merge_settled :
    settledParent.Distinct ∧ (∀ v ∈ settled.parts, v.kind ≠ .array ∧ v.isDeletion = false) ∧
      (∀ v ∈ settledParent.parts, v.kind ≠ .array) ∧
      ∃ r, settled.merge settledParent = .ok r ∧ r.merge settledParent = .ok r ∧
        r.display = "\x7b\"a\":1,\"inner\":\x7b\"x\":true,\"y\":null,\"z\":\x7b\x7d\x7d," ++
          "\"new\":\x7b\"gone\":null,\"text\":\"null\"\x7d\x7d" := by
  have hdistinct : settledParent.Distinct := by decide
  have htemplate : ∀ v ∈ settled.parts, v.kind ≠ .array ∧ v.isDeletion = false := by decide
  have hparent : ∀ v ∈ settledParent.parts, v.kind ≠ .array := by decide
  have h : settled.merge settledParent =
      .ok (ofMembers [("a", .integer 1),
        ("inner", ofMembers [("x", .boolean true), ("y", .null), ("z", ofMembers [])]),
        ("new", ofMembers [("gone", .null), ("text", .string "null")])]) := by
    cbv
  exact ⟨hdistinct, htemplate, hparent, _, h, merge_merge hdistinct htemplate hparent h, by decide⟩

end Stencil.Value

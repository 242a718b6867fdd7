import Stencil.Proofs.Merge.Conflicts

/-!
# Nodes in a merged value

A merge makes copies of what it takes from the parent, and a node of the template that it changes
becomes a new one. So the marked nodes in its result are nodes of the template, with all that they
held before, and a parent that had no node in common with the template has none with the result. It
can be merged again and again, and if that was possible once it always is.
-/

namespace Stencil.Value

/-- The mark of an array or object. -/
def mark? : Value → Node
  | array node _ | object node _ => node
  | _ => none

theorem sameNode_of_mark?_eq_none {v : Value} (h : v.mark? = none) (w : Value) :
    v.sameNode w = false := by
  cases v with
  | array node items =>
    obtain rfl : node = none := h
    rfl
  | object node members =>
    obtain rfl : node = none := h
    rfl
  | _ => rfl

/-- The marked nodes in a value stand in another one too, as they are. -/
def NodesFrom (w v : Value) : Prop :=
  ∀ u ∈ w.parts, u.mark? ≠ none → u ∈ v.parts

theorem NodesFrom.refl (v : Value) : v.NodesFrom v :=
  fun _ hu _ => hu

theorem NodesFrom.trans {u v w : Value} (h : w.NodesFrom v) (h' : v.NodesFrom u) : w.NodesFrom u :=
  fun a ha hmark => h' a (h a ha hmark) hmark

theorem Apart.of_nodesFrom {w v parent : Value} (hfrom : w.NodesFrom v) (h : v.Apart parent) :
    w.Apart parent := by
  intro a ha b hb
  by_cases hmark : a.mark? = none
  · exact sameNode_of_mark?_eq_none hmark b
  · exact h a (hfrom a ha hmark) b hb

theorem Apart.of_member {v : Value} {node : Node} {members : Fields Value} {m : String × Value}
    (h : v.Apart (object node members)) (hm : m ∈ members) : v.Apart m.2 :=
  fun a ha b hb => h a ha b (mem_parts_of_member hm hb)

/-- What the marked nodes of a value are is what a memory holds for their marks. -/
def HeldIn (memory : Nat → Value) (v : Value) : Prop :=
  ∀ u ∈ v.parts, ∀ mark, u.mark? = some mark → memory mark = u

theorem HeldIn.of_nodesFrom {memory : Nat → Value} {w v : Value} (hfrom : w.NodesFrom v)
    (h : v.HeldIn memory) : w.HeldIn memory :=
  fun u hu mark hmark => h u (hfrom u hu (by simp [hmark])) mark hmark

theorem nodesFrom_ofItems {items : List Value} {v : Value} :
    (ofItems items).NodesFrom v ↔ ∀ u ∈ items, u.NodesFrom v := by
  simp only [NodesFrom, ofItems, parts, itemParts_eq_flatMap, List.forall_mem_cons, mark?,
    List.mem_flatMap, ne_eq, not_true_eq_false, false_implies, true_and]
  constructor
  · exact fun h u hu a ha => h a ⟨u, hu, ha⟩
  · rintro h a ⟨u, hu, ha⟩
    exact h u hu a ha

theorem nodesFrom_ofMembers {members : Fields Value} {v : Value} :
    (ofMembers members).NodesFrom v ↔ ∀ m ∈ members, m.2.NodesFrom v := by
  simp only [NodesFrom, ofMembers, parts, memberParts_eq_flatMap, List.forall_mem_cons, mark?,
    List.mem_flatMap, ne_eq, not_true_eq_false, false_implies, true_and]
  constructor
  · exact fun h m hm a ha => h a ⟨m, hm, ha⟩
  · rintro h a ⟨m, hm, ha⟩
    exact h m hm a ha

theorem nodesFrom_deepCopy (v w : Value) : v.deepCopy.NodesFrom w := by
  induction v using rec_nodes with
  | onArray node items ih =>
    rw [deepCopy, nodesFrom_ofItems, copyItems_eq_map]
    exact List.forall_mem_map.mpr ih
  | onObject node members ih =>
    rw [deepCopy, nodesFrom_ofMembers, copyMembers_eq_map]
    exact List.forall_mem_map.mpr ih
  | onLeaf v harray hobject =>
    cases v with
    | array => simp [kind] at harray
    | object => simp [kind] at hobject
    | _ => simp [NodesFrom, deepCopy, parts, mark?]

theorem nodesFrom_item {node : Node} {items : List Value} {v : Value} (hv : v ∈ items) :
    v.NodesFrom (array node items) :=
  fun _ hu _ => mem_parts_of_item hv hu

theorem nodesFrom_member {node : Node} {members : Fields Value} {name : String} {v : Value}
    (hv : members.get? name = some v) : v.NodesFrom (object node members) :=
  fun _ hu _ => mem_parts_of_member (Fields.mem_of_get? hv) hu

theorem nodesFrom_members (node : Node) (members : Fields Value) :
    (ofMembers members).NodesFrom (object node members) :=
  nodesFrom_ofMembers.mpr fun _ hm _ hu _ => mem_parts_of_member hm hu

theorem nodesFrom_insert {own : Fields Value} {name : String} {v w : Value}
    (hown : (ofMembers own).NodesFrom w) (hv : v.NodesFrom w) :
    (ofMembers (own.insert name v)).NodesFrom w := by
  rw [nodesFrom_ofMembers] at hown ⊢
  intro m hm
  rcases Fields.mem_insert hm with hm | rfl
  · exact hown m hm
  · exact hv

theorem nodesFrom_erase {own : Fields Value} {name : String} {w : Value}
    (hown : (ofMembers own).NodesFrom w) : (ofMembers (own.erase name)).NodesFrom w := by
  rw [nodesFrom_ofMembers] at hown ⊢
  exact fun m hm => hown m (List.mem_filter.mp hm).1

theorem nodesFrom_joined (own : Value) (items : List Value) :
    (own.joined items).NodesFrom own := by
  have hcopies : ∀ v ∈ copyItems items, v.NodesFrom own := by
    rw [copyItems_eq_map]
    exact List.forall_mem_map.mpr fun v _ => nodesFrom_deepCopy v own
  cases own with
  | array node front =>
    exact nodesFrom_ofItems.mpr
      (List.forall_mem_append.mpr ⟨fun v hv => nodesFrom_item hv, hcopies⟩)
  | _ => exact nodesFrom_ofItems.mpr (List.forall_mem_cons.mpr ⟨.refl _, hcopies⟩)

theorem nodesFrom_mergeMember {path : Path} {name : String} {parent : Value}
    (hparent : ∀ path v, (mergeAt path parent v).result.NodesFrom v) {own : Fields Value}
    {w : Value} (hown : (ofMembers own).NodesFrom w) :
    (ofMembers (mergeMember path name parent own).result).NodesFrom w := by
  rw [mergeMember]
  cases hget : own.get? name with
  | none => exact nodesFrom_insert hown (nodesFrom_deepCopy parent w)
  | some v =>
    have hv : v.NodesFrom w := (nodesFrom_member hget).trans hown
    by_cases hsame : v.sameNode parent
    · simpa [hsame] using hown
    · by_cases hdel : v.isDeletion
      · cases parent with
        | array | object => simpa [hsame, hdel] using nodesFrom_erase hown
        | _ => simpa [hsame] using hown
      · cases parent with
        | array node items =>
          simpa [hsame, hdel] using nodesFrom_insert hown ((nodesFrom_joined v items).trans hv)
        | object node members =>
          simpa [hsame, hdel] using nodesFrom_insert hown ((hparent (path.field name) v).trans hv)
        | _ => simpa [hsame] using hown

theorem nodesFrom_mergeMembers {members : List (String × Value)}
    (hmembers : ∀ m ∈ members, ∀ path v, (mergeAt path m.2 v).result.NodesFrom v) {path : Path}
    {own : Fields Value} {w : Value} (hown : (ofMembers own).NodesFrom w) :
    (ofMembers (mergeMembers path members own).result).NodesFrom w := by
  induction members generalizing own with
  | nil => exact hown
  | cons m rest ih =>
    rcases m with ⟨name, parent⟩
    have hfirst : (ofMembers (mergeMember path name parent own).result).NodesFrom w :=
      nodesFrom_mergeMember (hmembers _ List.mem_cons_self) hown
    rw [mergeMembers_cons]
    cases (mergeMember path name parent own).conflict with
    | some c => exact hfirst
    | none => exact ih (fun m hm => hmembers m (List.mem_cons_of_mem _ hm)) hfirst

/-- A merge, also one that fails, takes nodes from the template alone. -/
theorem nodesFrom_mergeAt (parent : Value) (path : Path) (template : Value) :
    (mergeAt path parent template).result.NodesFrom template := by
  induction parent using rec_nodes generalizing path template with
  | onArray node items ih =>
    unfold mergeAt
    by_cases hsame : template.sameNode (array node items)
    · simpa [hsame] using .refl template
    · cases template with
      | array node' own => simpa [hsame] using nodesFrom_joined _ items
      | _ => simpa [hsame] using .refl _
  | onObject node members ih =>
    unfold mergeAt
    by_cases hsame : template.sameNode (object node members)
    · simpa [hsame] using .refl template
    · cases template with
      | object node' own =>
        simpa [hsame] using nodesFrom_mergeMembers ih (nodesFrom_members node' own)
      | array node' own =>
        have hitems : ∀ v ∈ own ++ [(object node members).deepCopy],
            v.NodesFrom (array node' own) :=
          List.forall_mem_append.mpr
            ⟨fun v hv => nodesFrom_item hv, by simpa using nodesFrom_deepCopy _ _⟩
        simpa [hsame] using nodesFrom_ofItems.mpr hitems
      | _ => simpa [hsame] using .refl _
  | onLeaf v harray hobject =>
    unfold mergeAt
    cases v with
    | array => simp [kind] at harray
    | object => simp [kind] at hobject
    | _ => cases template <;> simpa [sameNode] using .refl _

theorem sameNode_deepCopy (v w : Value) : v.deepCopy.sameNode w = false := by
  cases v <;> rfl

theorem fault_mergeMember {path : Path} {name : String} {parent : Value} {own : Fields Value}
    (hparent : ∀ path v c, v.Apart parent → (mergeAt path parent v).conflict = some c →
      c.fault ≠ .itself) (hown : (ofMembers own).Apart parent) {c : MergeConflict}
    (h : (mergeMember path name parent own).conflict = some c) : c.fault ≠ .itself := by
  rw [mergeMember] at h
  cases hget : own.get? name with
  | none => simp [hget] at h
  | some v =>
    have hv : v.Apart parent := hown.of_nodesFrom (nodesFrom_member hget)
    simp only [hget, hv.sameNode] at h
    by_cases hdel : v.isDeletion
    · cases parent <;> simp [hdel] at h
    · cases parent with
      | object node members =>
        simp only [hdel] at h
        exact hparent _ v c hv h
      | _ => simp [hdel] at h

theorem fault_mergeMembers {members : List (String × Value)}
    (hmembers : ∀ m ∈ members, ∀ path v c, v.Apart m.2 → (mergeAt path m.2 v).conflict = some c →
      c.fault ≠ .itself) {path : Path} {own : Fields Value}
    (hown : ∀ m ∈ members, (ofMembers own).Apart m.2) {c : MergeConflict}
    (h : (mergeMembers path members own).conflict = some c) : c.fault ≠ .itself := by
  induction members generalizing own with
  | nil => simp [mergeMembers] at h
  | cons m rest ih =>
    rcases m with ⟨name, parent⟩
    obtain ⟨hparent, hrest⟩ := List.forall_mem_cons.mp hmembers
    obtain ⟨hfirst, hothers⟩ := List.forall_mem_cons.mp hown
    rw [mergeMembers_cons] at h
    cases hconflict : (mergeMember path name parent own).conflict with
    | some c' =>
      simp only [hconflict, Option.some.injEq] at h
      exact fault_mergeMember hparent hfirst (h ▸ hconflict)
    | none =>
      simp only [hconflict] at h
      refine ih hrest (fun m hm => ?_) h
      -- Nothing that has been taken over so far is a node of the parent.
      exact (hothers m hm).of_nodesFrom
        (nodesFrom_mergeMember (fun path v => nodesFrom_mergeAt parent path v) (.refl _))

/-- Values that have no node in common do not meet themselves in a merge. -/
theorem fault_mergeAt (parent : Value) (path : Path) (template : Value) (c : MergeConflict)
    (hapart : template.Apart parent) (h : (mergeAt path parent template).conflict = some c) :
    c.fault ≠ .itself := by
  induction parent using rec_nodes generalizing path template c with
  | onArray node items ih =>
    unfold mergeAt at h
    rw [if_neg (by simp [hapart.sameNode])] at h
    cases template with
    | array node' own => simp at h
    | _ =>
      rw [Option.some.injEq] at h
      simp [← h]
  | onObject node members ih =>
    unfold mergeAt at h
    rw [if_neg (by simp [hapart.sameNode])] at h
    cases template with
    | object node' own =>
      have hown := hapart.of_nodesFrom (nodesFrom_members node' own)
      exact fault_mergeMembers ih (fun m hm => hown.of_member hm) h
    | array node' own => simp at h
    | _ =>
      rw [Option.some.injEq] at h
      simp [← h]
  | onLeaf v harray hobject =>
    unfold mergeAt at h
    cases v with
    | array => simp [kind] at harray
    | object => simp [kind] at hobject
    | _ => cases template <;> simp [sameNode] at h

theorem merged_object {node node' : Node} {own members : Fields Value}
    (hsame : (object node own).sameNode (object node' members) = false) :
    (object node own).merged (object node' members) =
      ⟨ofMembers (mergeMembers .root members own).result,
        (mergeMembers .root members own).conflict⟩ := by
  rw [merged, mergeAt, hsame]
  rfl

theorem merged_array {node node' : Node} {own items : List Value}
    (hsame : (array node own).sameNode (array node' items) = false) :
    (array node own).merged (array node' items) = ⟨ofItems (own ++ copyItems items), none⟩ := by
  rw [merged, mergeAt, hsame]
  rfl

theorem merged_array_object (node node' : Node) (own : List Value) (members : Fields Value) :
    (array node own).merged (object node' members) =
      ⟨ofItems (own ++ [(object node' members).deepCopy]), none⟩ := by
  cases node <;> rfl

/-- Two objects can be merged if the values of each name can that are both arrays or objects. -/
theorem conflict_merged_object_eq_none_iff {node node' : Node} {own members : Fields Value}
    (hnames : members.names.Nodup)
    (hsame : (object node own).sameNode (object node' members) = false)
    (hmembers : ∀ m ∈ members, ∀ v, own.get? m.1 = some v → v.sameNode m.2 = false) :
    ((object node own).merged (object node' members)).conflict = none ↔
      ∀ m ∈ members, ∀ v, own.get? m.1 = some v → m.2.kind = .object → v.isDeletion = false →
        (v.merged m.2).conflict = none := by
  rw [merged_object hsame, conflict_mergeMembers hnames, List.findSome?_eq_none_iff]
  refine forall₂_congr fun m hm => ?_
  cases hget : own.get? m.1 with
  | none => simp [mergeMember, hget]
  | some v =>
    rw [conflict_mergeMember hget (hmembers m hm v hget)]
    by_cases hboth : m.2.kind = .object ∧ v.isDeletion = false
    · simp [hboth]
    · simp only [hboth, if_false, true_iff]
      rintro _ ⟨⟩ hkind hdel
      exact absurd ⟨hkind, hdel⟩ hboth

theorem conflict_merged_deepCopy {v : Value} (hdistinct : v.Distinct) :
    (v.deepCopy.merged v).conflict = none := by
  induction v using rec_nodes with
  | onArray node items ih => simp [merged, mergeAt, deepCopy, ofItems, sameNode]
  | onLeaf v harray hobject =>
    cases v with
    | array => simp [kind] at harray
    | object => simp [kind] at hobject
    | _ => simp [merged, mergeAt, deepCopy, sameNode]
  | onObject node members ih =>
    have hcopy {m : String × Value} (hm : m ∈ members) {v : Value}
        (hv : (copyMembers members).get? m.1 = some v) : v = m.2.deepCopy := by
      have hget := (Fields.mem_iff_get? hdistinct.nodup_names m.1 m.2).mp hm
      rw [copyMembers_eq_map, Fields.get?_map, hget] at hv
      exact (Option.some.inj hv).symm
    rw [deepCopy, ofMembers, conflict_merged_object_eq_none_iff hdistinct.nodup_names rfl]
    · intro m hm v hv _ _
      rw [hcopy hm hv]
      exact ih m hm (hdistinct.member hm)
    · intro m hm v hv
      rw [hcopy hm hv, sameNode_deepCopy]

/-- A value that one name came to by a merge takes the parent's value for it again. -/
theorem conflict_merged_of_mergesTo {u w : Value} {own : Option Value}
    (h : u.MergesTo own (some w)) (hu : u.kind = .object) (hdistinct : u.Distinct)
    (hsame : ∀ v, own = some v → v.sameNode u = false)
    (hagain : ∀ v, own = some v → (v.merged u).conflict = none →
      ((v.merged u).result.merged u).conflict = none) : (w.merged u).conflict = none := by
  cases h with
  | copied => exact conflict_merged_deepCopy hdistinct
  | kept hleaf => cases u <;> simp [isNode, kind] at hleaf hu
  | joined hparent => simp [hparent, kind] at hu
  | appended hparent =>
    subst hparent
    rw [ofItems, merged_array_object]
  | @merged path node own node' members hparent hconflict =>
    subst hparent
    have hsame := hsame _ rfl
    obtain ⟨hroot, hresult⟩ := merge_object_eq_ok (merge_object hsame path hconflict)
    have hagain := hagain _ rfl
    rw [merged_object hsame] at hagain
    exact hresult ▸ hagain hroot

/-- A parent that could be merged can be merged again. -/
theorem conflict_merged_again {template parent : Value} (hdistinct : parent.Distinct)
    (hapart : template.Apart parent) (h : (template.merged parent).conflict = none) :
    ((template.merged parent).result.merged parent).conflict = none := by
  induction parent using rec_nodes generalizing template with
  | onLeaf v harray hobject =>
    cases v with
    | array => simp [kind] at harray
    | object => simp [kind] at hobject
    | _ => simp [merged, mergeAt, sameNode]
  | onArray node items ih =>
    cases template with
    | array node' own => rw [merged_array hapart.sameNode, ofItems, merged_array rfl]
    | _ => simp [merged, mergeAt, sameNode] at h
  | onObject node members ih =>
    cases template with
    | array node' own => rw [merged_array_object, ofItems, merged_array_object]
    | object node' own =>
      have hnames := hdistinct.nodup_names
      have hget {m : String × Value} (hm : m ∈ members) : Fields.get? members m.1 = some m.2 :=
        (Fields.mem_iff_get? hnames m.1 m.2).mp hm
      have hresult := hapart.of_nodesFrom (nodesFrom_mergeAt (object node members) .root _)
      rw [← merged] at hresult
      rw [merged_object hapart.sameNode] at h hresult ⊢
      rw [ofMembers, conflict_merged_object_eq_none_iff hnames rfl
        fun m hm w hw => (hresult.member hw (hget hm)).sameNode]
      intro m hm w hw hkind _
      have hown (v : Value) (hv : Fields.get? own m.1 = some v) : v.Apart m.2 :=
        hapart.member hv (hget hm)
      apply conflict_merged_of_mergesTo (hw ▸ mergesTo_of_mergeMembers hnames h (hget hm)) hkind
      · exact hdistinct.member hm
      · exact fun v hv => (hown v hv).sameNode
      · exact fun v hv => ih m hm (hdistinct.member hm) (hown v hv)
    | _ => simp [merged, mergeAt, sameNode] at h

/-- The template after the parent was merged into it so many times, whether or not that failed. -/
def mergedTimes (parent : Value) : Nat → Value → Value
  | 0, template => template
  | n + 1, template => ((mergedTimes parent n template).merged parent).result

theorem nodesFrom_mergedTimes (parent : Value) (n : Nat) (template : Value) :
    (mergedTimes parent n template).NodesFrom template := by
  induction n with
  | zero => exact .refl template
  | succ n ih => exact (nodesFrom_mergeAt parent .root _).trans ih

/-- However often a parent is merged, the template has no node in common with it, and all nodes hold
what they did. It never meets itself, and it can be merged each time if it can be once. -/
theorem apart_of_mergedTimes {template parent : Value} (hapart : template.Apart parent)
    (hdistinct : parent.Distinct) (n : Nat) :
    (mergedTimes parent n template).Apart parent ∧
    (∀ memory, template.HeldIn memory → (mergedTimes parent n template).HeldIn memory) ∧
    (∀ c, ((mergedTimes parent n template).merged parent).conflict = some c →
      c.fault ≠ .itself) ∧
    ((template.merged parent).conflict = none →
      ((mergedTimes parent n template).merged parent).conflict = none) := by
  have happart (n : Nat) : (mergedTimes parent n template).Apart parent :=
    hapart.of_nodesFrom (nodesFrom_mergedTimes parent n template)
  refine ⟨happart n, ?_, ?_, fun h => ?_⟩
  · exact fun memory h => h.of_nodesFrom (nodesFrom_mergedTimes parent n template)
  · exact fun c => fault_mergeAt parent .root _ c (happart n)
  · induction n with
    | zero => exact h
    | succ n ih => exact conflict_merged_again hdistinct (happart n) ih

/-- A template whose deletion is used up by the first merge, and a parent whose arrays are added
each time. -/
def growing : Value :=
  .object (some 0)
    [("list", .array (some 1) [.integer 1]), ("inner", .object (some 2) [("x", .null)])]

def growingParent : Value :=
  .object (some 10)
    [("list", .array (some 11) [.object (some 12) []]),
      ("inner", .object (some 13) [("x", .object (some 14) [])]),
      ("new", .array (some 15) [.integer 2])]

theorem apart_of_growing :
    growing.Apart growingParent ∧ growingParent.Distinct ∧
      (growing.merged growingParent).conflict = none ∧
      (mergedTimes growingParent 2 growing).Apart growingParent ∧
      ((mergedTimes growingParent 2 growing).merged growingParent).conflict = none ∧
      (mergedTimes growingParent 2 growing).display =
        "\x7b\"list\":[1,\x7b\x7d,\x7b\x7d],\"inner\":\x7b\"x\":\x7b\x7d\x7d," ++
          "\"new\":[2,2]\x7d" := by
  have hapart : growing.Apart growingParent := by decide
  have hdistinct : growingParent.Distinct := by decide
  have hfirst : (growing.merged growingParent).conflict = none := by decide
  obtain ⟨happart, -, -, hagain⟩ := apart_of_mergedTimes hapart hdistinct 2
  exact ⟨hapart, hdistinct, hfirst, happart, hagain hfirst, by decide⟩

end Stencil.Value

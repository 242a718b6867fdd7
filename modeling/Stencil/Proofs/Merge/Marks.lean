import Stencil.Proofs.Merge.Sharing

/-!
# Marks

A value without marks shares nothing, and what is copied or merged into it has no marks either.
Marks that are given out one after another are never given twice.
-/

namespace Stencil.Value

/-- The value is made of nodes without a mark, each of which is in one place only. -/
def Unmarked (v : Value) : Prop :=
  ∀ u ∈ v.parts, u.mark? = none

theorem unmarked_deepCopy (v : Value) : v.deepCopy.Unmarked := by
  intro u hu
  by_contra hmark
  obtain rfl := List.mem_singleton.mp (nodesFrom_deepCopy v null u hu hmark)
  exact hmark rfl

theorem Unmarked.of_nodesFrom {v w : Value} (hfrom : w.NodesFrom v) (h : v.Unmarked) :
    w.Unmarked := by
  intro u hu
  by_contra hmark
  exact hmark (h u (hfrom u hu hmark))

theorem Unmarked.apart {v : Value} (h : v.Unmarked) (w : Value) : v.Apart w :=
  fun a ha b _ => sameNode_of_mark?_eq_none (h a ha) b

theorem unmarked_of_isLeaf {v : Value} (h : v.isNode = false) : v.Unmarked := by
  cases v <;> simp [isNode, Unmarked, parts, mark?] at h ⊢

theorem unmarked_ofItems {items : List Value} (h : ∀ v ∈ items, v.Unmarked) :
    (ofItems items).Unmarked :=
  .of_nodesFrom (v := null)
    (nodesFrom_ofItems.mpr fun v hv u hu hmark => absurd (h v hv u hu) hmark)
    (unmarked_of_isLeaf rfl)

theorem unmarked_ofMembers {members : Fields Value} (h : ∀ m ∈ members, m.2.Unmarked) :
    (ofMembers members).Unmarked :=
  .of_nodesFrom (v := null)
    (nodesFrom_ofMembers.mpr fun m hm u hu hmark => absurd (h m hm u hu) hmark)
    (unmarked_of_isLeaf rfl)

theorem Unmarked.item {node : Node} {items : List Value} (h : (array node items).Unmarked)
    {v : Value} (hv : v ∈ items) : v.Unmarked :=
  h.of_nodesFrom (nodesFrom_item hv)

theorem Unmarked.member {node : Node} {members : Fields Value} (h : (object node members).Unmarked)
    {m : String × Value} (hm : m ∈ members) : m.2.Unmarked :=
  fun u hu => h u (mem_parts_of_member hm hu)

/-- A copy of a value without marks does not differ from it. -/
theorem Unmarked.deepCopy_eq {v : Value} (h : v.Unmarked) : v.deepCopy = v := by
  induction v using rec_nodes with
  | onArray node items ih =>
    obtain rfl : node = none := h _ (mem_parts_self _)
    rw [deepCopy, copyItems_eq_map, List.map_congr_left fun v hv => ih v hv (h.item hv),
      List.map_id']
    rfl
  | onObject node members ih =>
    obtain rfl : node = none := h _ (mem_parts_self _)
    have hcopies : members.map (fun m => (m.1, m.2.deepCopy)) = members.map id :=
      List.map_congr_left fun m hm => by rw [ih m hm (h.member hm), id]
    rw [deepCopy, copyMembers_eq_map, hcopies, List.map_id]
    rfl
  | onLeaf v harray hobject =>
    cases v with
    | array => simp [kind] at harray
    | object => simp [kind] at hobject
    | _ => rfl

theorem unmarked_ofJson (v : Json) : (ofJson v).Unmarked := by
  induction v using Json.rec_nodes with
  | onArray items ih =>
    rw [ofJson, ofJsonItems_eq_map]
    exact unmarked_ofItems (List.forall_mem_map.mpr ih)
  | onObject members ih =>
    rw [ofJson, ofJsonMembers_eq_map]
    exact unmarked_ofMembers (List.forall_mem_map.mpr ih)
  | onLeaf v harray hobject =>
    cases v with
    | array items => exact absurd rfl (harray items)
    | object members => exact absurd rfl (hobject members)
    | _ => exact unmarked_of_isLeaf rfl

theorem nodesFrom_of_merge {template parent v : Value} (h : template.merge parent = .ok v) :
    v.NodesFrom template := by
  rw [merge] at h
  cases hconflict : (template.merged parent).conflict with
  | some c => simp [hconflict] at h
  | none =>
    simp only [hconflict, Except.ok.injEq] at h
    exact h ▸ nodesFrom_mergeAt parent .root template

theorem fault_of_merge {template parent : Value} {c : MergeConflict}
    (hapart : template.Apart parent) (h : template.merge parent = .error c) : c.fault ≠ .itself :=
  fault_mergeAt parent .root template c hapart (merge_eq_error_iff.mp h)

/-- The marks in a value are among those from `first` on and before `next`. -/
def MarkedIn (first next : Nat) (v : Value) : Prop :=
  ∀ u ∈ v.parts, ∀ mark, u.mark? = some mark → first ≤ mark ∧ mark < next

theorem MarkedIn.mono {first first' next next' : Nat} {v : Value} (h : v.MarkedIn first next)
    (hfirst : first' ≤ first) (hnext : next ≤ next') : v.MarkedIn first' next' := by
  intro u hu mark hmark
  have := h u hu mark hmark
  omega

theorem Unmarked.markedIn {v : Value} (h : v.Unmarked) (first next : Nat) :
    v.MarkedIn first next := by
  intro u hu mark hmark
  rw [h u hu] at hmark
  simp at hmark

theorem mark?_of_sameNode {v w : Value} (h : v.sameNode w) :
    ∃ mark, v.mark? = some mark ∧ w.mark? = some mark := by
  unfold sameNode at h
  split at h
  · exact ⟨_, rfl, by simp [mark?, of_decide_eq_true h]⟩
  · exact ⟨_, rfl, by simp [mark?, of_decide_eq_true h]⟩
  · simp at h

theorem MarkedIn.apart {first next next' : Nat} {v w : Value} (hv : v.MarkedIn next next')
    (hw : w.MarkedIn first next) : v.Apart w := by
  intro a ha b hb
  rw [Bool.eq_false_iff]
  intro hsame
  obtain ⟨mark, hmark, hmark'⟩ := mark?_of_sameNode hsame
  have := hv a ha mark hmark
  have := hw b hb mark hmark'
  omega

theorem markedIn_array {first next mark : Nat} {items : List Value}
    (hmark : first ≤ mark ∧ mark < next) (h : ∀ v ∈ items, v.MarkedIn first next) :
    (array (some mark) items).MarkedIn first next := by
  intro u hu
  rw [parts, itemParts_eq_flatMap] at hu
  rcases List.mem_cons.mp hu with rfl | hu
  · rintro _ ⟨⟩
    exact hmark
  · obtain ⟨v, hv, hu⟩ := List.mem_flatMap.mp hu
    exact h v hv u hu

theorem markedIn_object {first next mark : Nat} {members : Fields Value}
    (hmark : first ≤ mark ∧ mark < next) (h : ∀ m ∈ members, m.2.MarkedIn first next) :
    (object (some mark) members).MarkedIn first next := by
  intro u hu
  rw [parts, memberParts_eq_flatMap] at hu
  rcases List.mem_cons.mp hu with rfl | hu
  · rintro _ ⟨⟩
    exact hmark
  · obtain ⟨m, hm, hu⟩ := List.mem_flatMap.mp hu
    exact h m hm u hu

theorem sameNode_marked {v : Value} {next : Nat} (h : (v.marked next).1.isNode) :
    (v.marked next).1.sameNode (v.marked next).1 := by
  cases v with
  | array node items => cases node <;> simp [marked, markNode, sameNode]
  | object node members => cases node <;> simp [marked, markNode, sameNode]
  | _ => cases h

theorem sameNode_of_mem_markMembers {members : Fields Value} {next : Nat} {m : String × Value}
    (hm : m ∈ (markMembers next members).1) (h : m.2.isNode) : m.2.sameNode m.2 := by
  induction members generalizing next with
  | nil => cases hm
  | cons field members ih =>
    rcases List.mem_cons.mp hm with rfl | hm
    · exact sameNode_marked h
    · exact ih hm

/-- A value with marks from `next` on in it, and the mark after them: it is a copy of `v`. -/
structure MarksNew (v : Value) (next : Nat) (marked : Value × Nat) : Prop where
  le : next ≤ marked.2
  deepCopy_eq : marked.1.deepCopy = v
  markedIn : marked.1.MarkedIn next marked.2

/-- Members with marks from `next` on in them, and the mark after them: they are copies. -/
structure MarksNewMembers (members : Fields Value) (next : Nat) (marked : Fields Value × Nat) :
    Prop where
  le : next ≤ marked.2
  copyMembers_eq : copyMembers marked.1 = members
  markedIn : ∀ m ∈ marked.1, m.2.MarkedIn next marked.2

theorem markItems_spec {items : List Value}
    (h : ∀ v ∈ items, ∀ next, v.MarksNew next (v.marked next)) (next : Nat) :
    next ≤ (markItems next items).2 ∧ copyItems (markItems next items).1 = items ∧
      ∀ v ∈ (markItems next items).1, v.MarkedIn next (markItems next items).2 := by
  induction items generalizing next with
  | nil => simp [markItems, copyItems]
  | cons v vs ih =>
    obtain ⟨hv, hvs⟩ := List.forall_mem_cons.mp h
    obtain ⟨hle, hcopy, hmarked⟩ := hv next
    obtain ⟨hle', hcopies, hrest⟩ := ih hvs (v.marked next).2
    simp only [markItems]
    refine ⟨hle.trans hle', by rw [copyItems, hcopy, hcopies], ?_⟩
    exact List.forall_mem_cons.mpr
      ⟨hmarked.mono (le_refl _) hle', fun u hu => (hrest u hu).mono hle (le_refl _)⟩

theorem marksNew_markMembers {members : Fields Value}
    (h : ∀ m ∈ members, ∀ next, m.2.MarksNew next (m.2.marked next)) (next : Nat) :
    MarksNewMembers members next (markMembers next members) := by
  induction members generalizing next with
  | nil => exact ⟨le_refl _, rfl, by simp [markMembers]⟩
  | cons m ms ih =>
    rcases m with ⟨name, v⟩
    obtain ⟨hv, hms⟩ := List.forall_mem_cons.mp h
    obtain ⟨hle, hcopy, hmarked⟩ := hv next
    obtain ⟨hle', hcopies, hrest⟩ := ih hms (v.marked next).2
    refine ⟨hle.trans hle', by rw [markMembers, copyMembers, hcopy, hcopies], ?_⟩
    exact List.forall_mem_cons.mpr
      ⟨hmarked.mono (le_refl _) hle', fun u hu => (hrest u hu).mono hle (le_refl _)⟩

theorem Unmarked.marksNew {v : Value} (h : v.Unmarked) (next : Nat) :
    v.MarksNew next (v.marked next) := by
  induction v using rec_nodes generalizing next with
  | onArray node items ih =>
    obtain rfl : node = none := h _ (mem_parts_self _)
    obtain ⟨hle, hcopy, hmarked⟩ := markItems_spec (fun v hv => ih v hv (h.item hv)) (next + 1)
    refine ⟨by simp only [marked, markNode]; omega, ?_, ?_⟩
    · simp only [marked, markNode, deepCopy, hcopy]
      rfl
    · exact markedIn_array ⟨le_refl _, hle⟩ fun v hv => (hmarked v hv).mono (by omega) (le_refl _)
  | onObject node members ih =>
    obtain rfl : node = none := h _ (mem_parts_self _)
    obtain ⟨hle, hcopy, hmarked⟩ :=
      marksNew_markMembers (fun m hm => ih m hm (h.member hm)) (next + 1)
    refine ⟨by simp only [marked, markNode]; omega, ?_, ?_⟩
    · simp only [marked, markNode, deepCopy, hcopy]
      rfl
    · exact markedIn_object ⟨le_refl _, hle⟩ fun m hm => (hmarked m hm).mono (by omega) (le_refl _)
  | onLeaf v harray hobject =>
    cases v with
    | array => simp [kind] at harray
    | object => simp [kind] at hobject
    | _ => exact ⟨le_refl _, rfl, (unmarked_of_isLeaf rfl).markedIn _ _⟩

end Stencil.Value

import Stencil.Proofs.Agreement
import Stencil.Proofs.Comment.Removal
import Stencil.Proofs.Merge.Settling

/-!
# Merging with and without comments

Comments are merged like all other members. What a merge makes of the rest does not depend on
them, but two comments that do not go together can make the merge fail.
-/

namespace Stencil

open Template (commentKey)

/-- A conflict at a comment or below one. -/
def MergeConflict.InComment (c : MergeConflict) : Prop :=
  .field commentKey ∈ c.path.segments

namespace Merged

variable {α β : Type}

def map (f : α → β) (m : Merged α) : Merged β :=
  ⟨f m.result, m.conflict⟩

def FailsInComment (m : Merged α) : Prop :=
  ∃ c, m.conflict = some c ∧ c.InComment

end Merged

namespace Value

theorem prefix_of_mergeMember_conflict {path : Path} {name : String} {parent : Value}
    (hparent : ∀ path v c, (mergeAt path parent v).conflict = some c →
      path.segments <+: c.path.segments) {own : Fields Value} {c : MergeConflict}
    (h : (mergeMember path name parent own).conflict = some c) :
    (path.field name).segments <+: c.path.segments := by
  rw [mergeMember] at h
  cases hget : own.get? name with
  | none => simp [hget] at h
  | some v =>
    simp only [hget] at h
    by_cases hsame : v.sameNode parent
    · rw [if_pos hsame, Option.some.injEq] at h
      exact h ▸ List.prefix_refl _
    · rw [if_neg hsame] at h
      by_cases hdel : v.isDeletion
      · cases parent <;> simp [hdel] at h
      · cases parent with
        | object node members =>
          simp only [if_neg hdel] at h
          exact hparent _ _ _ h
        | _ => simp [hdel] at h

theorem prefix_of_mergeMembers_conflict {members : List (String × Value)}
    (hmembers : ∀ m ∈ members, ∀ path v c, (mergeAt path m.2 v).conflict = some c →
      path.segments <+: c.path.segments) {path : Path} {own : Fields Value} {c : MergeConflict}
    (h : (mergeMembers path members own).conflict = some c) :
    path.segments <+: c.path.segments := by
  induction members generalizing own with
  | nil => simp [mergeMembers] at h
  | cons m rest ih =>
    rcases m with ⟨name, parent⟩
    rw [mergeMembers_cons] at h
    cases hconflict : (mergeMember path name parent own).conflict with
    | some conflict =>
      simp only [hconflict, Option.some.injEq] at h
      rw [h] at hconflict
      have hfield := prefix_of_mergeMember_conflict (hmembers _ List.mem_cons_self) hconflict
      exact (List.prefix_append _ _).trans hfield
    | none =>
      simp only [hconflict] at h
      exact ih (fun m hm => hmembers m (List.mem_cons_of_mem _ hm)) h

/-- A conflict is at the place of the merge or below it. -/
theorem prefix_of_mergeAt_conflict {parent : Value} (path : Path) (template : Value)
    (c : MergeConflict) (h : (mergeAt path parent template).conflict = some c) :
    path.segments <+: c.path.segments := by
  induction parent using rec_nodes generalizing path template c with
  | onArray node items ih =>
    unfold mergeAt at h
    by_cases hsame : template.sameNode (array node items)
    · rw [if_pos hsame, Option.some.injEq] at h
      exact h ▸ List.prefix_refl _
    · rw [if_neg hsame] at h
      cases template with
      | array node' items' => simp at h
      | _ =>
        rw [Option.some.injEq] at h
        exact h ▸ List.prefix_refl _
  | onObject node members ih =>
    unfold mergeAt at h
    by_cases hsame : template.sameNode (object node members)
    · rw [if_pos hsame, Option.some.injEq] at h
      exact h ▸ List.prefix_refl _
    · rw [if_neg hsame] at h
      cases template with
      | object node' own =>
        exact prefix_of_mergeMembers_conflict ih h
      | array node' items => simp at h
      | _ =>
        rw [Option.some.injEq] at h
        exact h ▸ List.prefix_refl _
  | onLeaf v harray hobject =>
    cases v with
    | array => simp [kind] at harray
    | object => simp [kind] at hobject
    | _ =>
      unfold mergeAt at h
      cases template <;> simp [sameNode] at h

/-- A comment of the parent changes nothing but comments. -/
theorem mergeMember_comment (path : Path) (parent : Value) (own : Fields Value) :
    (mergeMember path commentKey parent own).FailsInComment ∨
      (mergeMember path commentKey parent own).conflict = none ∧
        stripCommentMembers (mergeMember path commentKey parent own).result =
          stripCommentMembers own := by
  cases hconflict : (mergeMember path commentKey parent own).conflict with
  | some c =>
    have hprefix := prefix_of_mergeMember_conflict prefix_of_mergeAt_conflict hconflict
    refine .inl ⟨c, hconflict, hprefix.subset ?_⟩
    simp [Path.field]
  | none =>
    refine .inr ⟨rfl, ?_⟩
    rw [mergeMember]
    cases own.get? commentKey with
    | none => exact stripCommentMembers_insert_comment _ _
    | some v =>
      by_cases hsame : v.sameNode parent
      · simp [hsame]
      · by_cases hdel : v.isDeletion
        · cases parent <;> simp [hsame, hdel, stripCommentMembers_erase_comment]
        · cases parent <;> simp [hsame, hdel, stripCommentMembers_insert_comment]

/-- How merging a parent goes with taking the comments out. -/
def MergesUncommented (parent : Value) : Prop :=
  ∀ path template, (mergeAt path parent template).FailsInComment ∨
    mergeAt path parent.stripComments template.stripComments =
      (mergeAt path parent template).map stripComments

theorem mergeMember_stripComments {path : Path} {name : String} (hname : name ≠ commentKey)
    {parent : Value} (hparent : parent.MergesUncommented) (own : Fields Value) :
    (mergeMember path name parent own).FailsInComment ∨
      mergeMember path name parent.stripComments (stripCommentMembers own) =
        (mergeMember path name parent own).map stripCommentMembers := by
  rw [mergeMember, mergeMember, get?_stripCommentMembers hname]
  cases own.get? name with
  | none =>
    refine .inr ?_
    simp [Merged.map, stripCommentMembers_insert hname, deepCopy_stripComments]
  | some v =>
    simp only [Option.map_some, sameNode_stripComments, isDeletion_stripComments]
    by_cases hsame : v.sameNode parent
    · simp [hsame, Merged.map]
    · by_cases hdel : v.isDeletion
      · refine .inr ?_
        cases parent <;>
          simp [hsame, hdel, stripComments, Merged.map, stripCommentMembers_erase]
      · cases parent with
        | array node items =>
          refine .inr ?_
          simp [hsame, hdel, stripComments, Merged.map, stripCommentMembers_insert hname,
            joined_stripComments]
        | object node members =>
          rcases hparent (path.field name) v with hfails | hmerge
          · refine .inl ?_
            simp only [hsame, hdel, Bool.false_eq_true, if_false]
            exact hfails
          · refine .inr ?_
            rw [stripComments] at hmerge ⊢
            simp [hsame, hdel, hmerge, Merged.map, stripCommentMembers_insert hname]
        | _ =>
          refine .inr ?_
          simp [hsame, stripComments, Merged.map]

theorem mergeMembers_stripComments {path : Path} {members : List (String × Value)}
    (hmembers : ∀ m ∈ members, m.2.MergesUncommented) (own : Fields Value) :
    (mergeMembers path members own).FailsInComment ∨
      mergeMembers path (stripCommentMembers members) (stripCommentMembers own) =
        (mergeMembers path members own).map stripCommentMembers := by
  induction members generalizing own with
  | nil => exact .inr rfl
  | cons m rest ih =>
    rcases m with ⟨name, parent⟩
    have hrest := fun own => ih (fun m hm => hmembers m (List.mem_cons_of_mem _ hm)) own
    rw [mergeMembers_cons, stripCommentMembers]
    by_cases hname : name = commentKey
    · subst hname
      rw [if_pos rfl]
      rcases mergeMember_comment path parent own with ⟨c, hc, hcomment⟩ | ⟨hnone, hsame⟩
      · refine .inl ⟨c, ?_, hcomment⟩
        rw [hc]
      · rw [hnone, ← hsame]
        exact hrest _
    · rw [if_neg hname, mergeMembers_cons]
      rcases mergeMember_stripComments hname (hmembers _ List.mem_cons_self) own with
        ⟨c, hc, hcomment⟩ | hmerge
      · refine .inl ⟨c, ?_, hcomment⟩
        rw [hc]
      · rw [hmerge, Merged.map]
        cases (mergeMember path name parent own).conflict with
        | some c => exact .inr rfl
        | none => exact hrest _

theorem mergesUncommented (parent : Value) : parent.MergesUncommented := by
  induction parent using rec_nodes with
  | onArray node items ih =>
    intro path template
    refine .inr ?_
    have hnode := sameNode_stripComments template (array node items)
    by_cases hsame : template.sameNode (array node items)
    · rw [mergeAt_of_sameNode hsame, mergeAt_of_sameNode (hnode.trans hsame), Merged.map]
    · rw [Bool.not_eq_true] at hsame
      rw [hsame] at hnode
      unfold mergeAt
      rw [hnode, hsame]
      have hjoined := joined_stripComments template items
      cases template <;> simp_all [stripComments, Merged.map, kind]
  | onObject node members ih =>
    intro path template
    have hnode := sameNode_stripComments template (object node members)
    by_cases hsame : template.sameNode (object node members)
    · rw [mergeAt_of_sameNode hsame, mergeAt_of_sameNode (hnode.trans hsame), Merged.map]
      exact .inr rfl
    · rw [Bool.not_eq_true] at hsame
      rw [hsame] at hnode
      unfold mergeAt
      rw [hnode, hsame]
      cases template with
      | object node' own =>
        rcases @mergeMembers_stripComments path members ih own with hfails | hmerge
        · exact .inl hfails
        · refine .inr ?_
          simp [stripComments, hmerge, Merged.map, ofMembers]
      | array node' items =>
        refine .inr ?_
        have hcopy := deepCopy_stripComments (object node members)
        simp [stripComments, Merged.map, ofItems, ← hcopy, stripCommentItems_eq_map]
      | _ => exact .inr (by simp [stripComments, Merged.map, kind])
  | onLeaf v harray hobject =>
    intro path template
    refine .inr ?_
    cases v with
    | array => simp [kind] at harray
    | object => simp [kind] at hobject
    | _ =>
      unfold mergeAt
      cases template <;> simp [stripComments, sameNode, Merged.map]

/-- Merging goes with taking the comments out unless it fails at a comment. -/
theorem merge_stripComments (template parent : Value) :
    AgreeUnless MergeConflict.InComment (template.stripComments.merge parent.stripComments)
      (stripComments <$> template.merge parent) := by
  rw [merge, merge, merged, merged]
  rcases mergesUncommented parent .root template with ⟨c, hc, hcomment⟩ | hmerge
  · rw [hc]
    exact .inr ⟨c, rfl, hcomment⟩
  · rw [hmerge, Merged.map]
    cases (mergeAt .root parent template).conflict with
    | some c => exact .refl _ _
    | none => exact .refl _ _

end Value

end Stencil

import Stencil.Proofs.Merge.Members

/-!
# Conflicts of a merge

Two objects without a node in common can be merged unless they clash: names lead through objects of
both to an object of the parent and a value of the template that an object cannot be merged into.
The conflict is at the first such place on a walk through the members of the parent.
-/

namespace Stencil

namespace Value

/-- A value that has no place for an object and is no deletion. -/
def resists : Value → Bool
  | boolean _ | integer _ | float _ | lambda .. | function _ => true
  | string s => s ≠ "null"
  | _ => false

/-- The names lead through objects to the value `w` of the template and an object of the parent that
cannot be merged into it. -/
inductive Clash : (template parent : Value) → List String → (w : Value) → Prop
  | here {w node members} : w.resists → Clash w (object node members) [] w
  | inside {node own node' members k v u ks w} : Fields.get? own k = some v →
      Fields.get? members k = some u → Clash v u ks w →
      Clash (object node own) (object node' members) (k :: ks) w

/-- A walk through all members, each followed by what is below it, comes to the first path before
the second. -/
inductive Before : Value → List String → List String → Prop
  | above {v k ks} : Before v [] (k :: ks)
  | beside {node members k k' ks ks'} : [k, k'].Sublist (Fields.names members) →
      Before (object node members) (k :: ks) (k' :: ks')
  | inside {node members k u ks ks'} : Fields.get? members k = some u → Before u ks ks' →
      Before (object node members) (k :: ks) (k :: ks')

structure FirstClash (template parent : Value) (ks : List String) (w : Value) : Prop where
  clash : Clash template parent ks w
  first : ∀ ks' w', Clash template parent ks' w' → ks' = ks ∨ Before parent ks ks'

/-- The conflict that a clash leads to. -/
def clashConflict (ks : List String) (w : Value) : MergeConflict :=
  ⟨⟨ks.map .field⟩, .kinds .object w.kind⟩

theorem Clash.kind_parent {template parent w : Value} {ks : List String}
    (h : Clash template parent ks w) : parent.kind = .object := by
  cases h <;> rfl

theorem Clash.isDeletion_template {template parent w : Value} {ks : List String}
    (h : Clash template parent ks w) : template.isDeletion = false := by
  cases h with
  | here hw => cases template <;> simp_all [resists, isDeletion]
  | inside => rfl

theorem not_clash_array {node : Node} {items : List Value} {parent w : Value} {ks : List String} :
    ¬ Clash (array node items) parent ks w := by
  rintro ⟨hw⟩
  simp [resists] at hw

theorem firstClash_of_resists {v : Value} (hv : v.resists) (node : Node)
    (members : Fields Value) : FirstClash v (object node members) [] v := by
  refine ⟨.here hv, fun ks w h => ?_⟩
  cases h with
  | here => exact .inl rfl
  | inside => simp [resists] at hv

/-- What merging a parent reports: the first clash, or that there is none. -/
def Reports (template parent : Value) (conflict : Option MergeConflict) : Prop :=
  match conflict with
  | none => ∀ ks w, ¬ Clash template parent ks w
  | some c => ∃ ks w, FirstClash template parent ks w ∧ c = clashConflict ks w

/-- A conflict at a member is one in its value. -/
theorem conflict_mergeMember {k : String} {u v : Value} {own : Fields Value}
    (hv : own.get? k = some v) (hsame : v.sameNode u = false) :
    (mergeMember .root k u own).conflict =
      if u.kind = .object ∧ v.isDeletion = false then
        (v.merged u).conflict.map (.below (Path.root.field k))
      else none := by
  rw [mergeMember, hv]
  by_cases hdel : v.isDeletion
  · cases u <;> simp [hsame, hdel]
  · cases u with
    | object node members => simp [hsame, hdel, kind, mergeAt_eq_below, Merged.below]
    | _ => simp [hsame, hdel, kind]

/-- What a member adds to the clashes: those of its value, below its name. -/
theorem reports_mergeMember {k : String} {u v : Value} {own : Fields Value}
    (hu : u.kind = .object → v.isDeletion = false → Reports v u (v.merged u).conflict)
    (hv : own.get? k = some v) (hsame : v.sameNode u = false) :
    match (mergeMember .root k u own).conflict with
    | none => ∀ ks w, ¬ Clash v u ks w
    | some c => ∃ ks w, FirstClash v u ks w ∧ c = clashConflict (k :: ks) w := by
  rw [conflict_mergeMember hv hsame]
  by_cases hclash : u.kind = .object ∧ v.isDeletion = false
  · have hreports := hu hclash.1 hclash.2
    rw [if_pos hclash]
    cases hconflict : (v.merged u).conflict with
    | none =>
      rw [hconflict] at hreports
      exact hreports
    | some c =>
      rw [hconflict] at hreports
      obtain ⟨ks, w, hfirst, rfl⟩ := hreports
      exact ⟨ks, w, hfirst, rfl⟩
  · rw [if_neg hclash]
    exact fun ks w h => hclash ⟨h.kind_parent, h.isDeletion_template⟩

/-- A clash in the first member that has one comes before those in other members. -/
theorem firstClash_of_member {node node' : Node} {own front rest : Fields Value} {k : String}
    {v u w : Value} {ks : List String} (hv : own.get? k = some v)
    (hmembers : (Fields.names (front ++ (k, u) :: rest)).Nodup) (h : FirstClash v u ks w)
    (hfront : ∀ m ∈ front, ∀ v, own.get? m.1 = some v → ∀ ks w, ¬ Clash v m.2 ks w) :
    FirstClash (object node own) (object node' (front ++ (k, u) :: rest)) (k :: ks) w := by
  have hget : Fields.get? (front ++ (k, u) :: rest) k = some u :=
    (Fields.mem_iff_get? hmembers k u).mp (by simp)
  refine ⟨.inside hv hget h.clash, fun ks' w' hclash => ?_⟩
  cases hclash with
  | here hw => simp [resists] at hw
  | @inside _ _ _ _ k' v' u' ks' _ hv' hu' hclash =>
    by_cases hk : k' = k
    · subst hk
      obtain rfl := Option.some.inj (hv.symm.trans hv')
      obtain rfl := Option.some.inj (hget.symm.trans hu')
      rcases h.first ks' w' hclash with rfl | hbefore
      · exact .inl rfl
      · exact .inr (.inside hget hbefore)
    · have hmem : (k', u') ∈ front ++ (k, u) :: rest := Fields.mem_of_get? hu'
      have hrest : (k', u') ∈ rest := by
        simp only [List.mem_append, List.mem_cons, Prod.mk.injEq, hk, false_and, false_or] at hmem
        exact hmem.resolve_left fun hmem => hfront _ hmem v' hv' ks' w' hclash
      refine .inr (.beside ?_)
      rw [Fields.names, List.map_append, List.map_cons]
      apply List.Sublist.trans _ (List.sublist_append_right _ _)
      rw [List.cons_sublist_cons, List.singleton_sublist]
      exact List.mem_map_of_mem hrest

theorem reports_merged_object {node node' : Node} {own members : Fields Value}
    (hapart : Apart (object node own) (object node' members)) (hmembers : members.names.Nodup)
    (hinner : ∀ m ∈ members, ∀ v, own.get? m.1 = some v → m.2.kind = .object →
      v.isDeletion = false → Reports v m.2 (v.merged m.2).conflict) :
    Reports (object node own) (object node' members)
      ((object node own).merged (object node' members)).conflict := by
  have hreports {k : String} {u v : Value} (hu : (k, u) ∈ members) (hv : own.get? k = some v) :=
    reports_mergeMember (hinner (k, u) hu v hv) hv
      (hapart.member hv ((Fields.mem_iff_get? hmembers k u).mp hu)).sameNode
  have hconflict : ((object node own).merged (object node' members)).conflict =
      members.findSome? fun m => (mergeMember .root m.1 m.2 own).conflict := by
    rw [merged, mergeAt, hapart.sameNode, ← conflict_mergeMembers hmembers]
    rfl
  have hnone {k : String} {u v : Value} (hu : (k, u) ∈ members) (hv : own.get? k = some v)
      (h : (mergeMember .root k u own).conflict = none) : ∀ ks w, ¬ Clash v u ks w := by
    have h' := hreports hu hv
    rwa [h] at h'
  rw [hconflict]
  cases hfind : members.findSome? fun m => (mergeMember .root m.1 m.2 own).conflict with
  | none =>
    rw [List.findSome?_eq_none_iff] at hfind
    intro ks w hclash
    cases hclash with
    | here hw => simp [resists] at hw
    | inside hv hu hclash =>
      have hu := Fields.mem_of_get? hu
      exact hnone hu hv (hfind _ hu) _ _ hclash
  | some c =>
    obtain ⟨front, ⟨k, u⟩, rest, rfl, hc, hfront⟩ := List.findSome?_eq_some_iff.mp hfind
    have hu : (k, u) ∈ front ++ (k, u) :: rest := by simp
    cases hv : own.get? k with
    | none => simp [mergeMember, hv] at hc
    | some v =>
      have hfirst := hreports hu hv
      rw [hc] at hfirst
      obtain ⟨ks, w, hfirst, rfl⟩ := hfirst
      refine ⟨k :: ks, w, firstClash_of_member hv hmembers hfirst ?_, rfl⟩
      exact fun m hm v hv => hnone (List.mem_append_left _ hm) hv (hfront m hm)

theorem reports_merged (parent template : Value) (hapart : Apart template parent)
    (hdistinct : parent.Distinct) (hparent : parent.kind = .object)
    (htemplate : template.isDeletion = false) :
    Reports template parent (template.merged parent).conflict := by
  induction parent using rec_nodes generalizing template with
  | onArray node items ih => simp [kind] at hparent
  | onLeaf v harray hobject => exact absurd hparent hobject
  | onObject node members ih =>
    have hresists (hv : template.resists) (hmerged : template.merged (object node members) =
        ⟨template, some ⟨.root, .kinds .object template.kind⟩⟩) :
        Reports template (object node members) (template.merged (object node members)).conflict := by
      rw [hmerged]
      exact ⟨[], template, firstClash_of_resists hv node members, rfl⟩
    cases template with
    | object node' own =>
      refine reports_merged_object hapart hdistinct.nodup_names fun m hm v hv hkind hdel => ?_
      have hget := (Fields.mem_iff_get? hdistinct.nodup_names m.1 m.2).mp hm
      exact ih m hm v (hapart.member hv hget) (hdistinct.member hm) hkind hdel
    | array node' items =>
      have hmerged : ((array node' items).merged (object node members)).conflict = none := by
        simp [merged, mergeAt, sameNode]
      rw [hmerged]
      exact fun ks w => not_clash_array
    | null => simp [isDeletion] at htemplate
    | string s =>
      exact hresists (by simpa [resists, isDeletion] using htemplate)
        (by simp [merged, mergeAt, sameNode, kind])
    | _ => exact hresists rfl (by simp [merged, mergeAt, sameNode, kind])

theorem merge_eq_error_iff {template parent : Value} {c : MergeConflict} :
    template.merge parent = .error c ↔ (template.merged parent).conflict = some c := by
  rw [merge]
  cases (template.merged parent).conflict <;> simp

/-- A merge of two objects without a node in common fails exactly if they clash, and then with a
conflict at the first clash. -/
theorem conflict_of_merge {node node' : Node} {own members : Fields Value}
    (hapart : Apart (object node own) (object node' members))
    (hdistinct : Distinct (object node' members)) :
    ((∃ c, (object node own).merge (object node' members) = .error c) ↔
      ∃ ks w, ks ≠ [] ∧ Clash (object node own) (object node' members) ks w) ∧
    ∀ c, (object node own).merge (object node' members) = .error c →
      ∃ ks w, FirstClash (object node own) (object node' members) ks w ∧
        c = clashConflict ks w := by
  have hreports := reports_merged (object node' members) (object node own) hapart hdistinct rfl rfl
  have hne {ks : List String} {w : Value}
      (h : Clash (object node own) (object node' members) ks w) : ks ≠ [] := by
    rintro rfl
    cases h with
    | here hw => simp [resists] at hw
  simp only [merge_eq_error_iff]
  cases hconflict : ((object node own).merged (object node' members)).conflict with
  | none =>
    rw [hconflict] at hreports
    exact ⟨⟨nofun, fun ⟨ks, w, _, h⟩ => absurd h (hreports ks w)⟩, nofun⟩
  | some c =>
    rw [hconflict] at hreports
    obtain ⟨ks, w, hfirst, rfl⟩ := hreports
    refine ⟨⟨fun _ => ⟨ks, w, hne hfirst.clash, hfirst.clash⟩, fun _ => ⟨_, rfl⟩⟩, fun c hc => ?_⟩
    exact ⟨ks, w, hfirst, (Option.some.inj hc).symm⟩

/-- Three clashes, which the template has in another order than the parent. -/
def clashing : Fields Value :=
  [("b", .integer 5), ("c", .null), ("a", .object (some 1) [("x", .string "s"),
    ("y", .object (some 2) [("z", .boolean true)])])]

def clashingParent : Fields Value :=
  [("c", .object (some 11) []), ("a", .object (some 12) [("w", .object (some 13) []),
    ("y", .object (some 14) [("z", .object (some 15) [])]), ("x", .object (some 16) [])]),
    ("b", .object (some 17) [])]

theorem conflict_of_clashing :
    Apart (object (some 0) clashing) (object (some 10) clashingParent) ∧
      Distinct (object (some 10) clashingParent) ∧
      ∃ c ks w, (object (some 0) clashing).merge (object (some 10) clashingParent) = .error c ∧
        FirstClash (object (some 0) clashing) (object (some 10) clashingParent) ks w ∧
        c = clashConflict ks w ∧ c.path.render = "#/a/y/z" := by
  have hapart : Apart (object (some 0) clashing) (object (some 10) clashingParent) := by decide
  have hdistinct : Distinct (object (some 10) clashingParent) := by decide
  have h : (object (some 0) clashing).merge (object (some 10) clashingParent) =
      .error ⟨⟨[.field "a", .field "y", .field "z"]⟩, .kinds .object .boolean⟩ := by
    cbv
  obtain ⟨ks, w, hfirst, hc⟩ := (conflict_of_merge hapart hdistinct).2 _ h
  exact ⟨hapart, hdistinct, _, ks, w, h, hfirst, hc, by decide⟩

end Value

end Stencil

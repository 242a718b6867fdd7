import Stencil.Proofs.Success
import Stencil.Proofs.Value.Induction
import Stencil.Template.Resolve

/-!
# Merging, name by name

A merge puts the members of a parent under an object one after another. `MergesTo` lists all that
one of them can make of the value its name has, and `Settles` what a row of them makes of it. Every
successful merge settles each name by the values that the parent gives to it, in their order, and
so does a row of merges into one object.
-/

namespace Stencil

/-- The values of a name, of which an object as it is read has at most one. -/
def Fields.valuesOf {α : Type} (fs : Fields α) (name : String) : List α :=
  (fs.filter (·.1 = name)).map (·.2)

theorem Fields.valuesOf_eq_nil_iff {α : Type} (fs : Fields α) (name : String) :
    valuesOf fs name = [] ↔ fs.has name = false := by
  rw [Bool.eq_false_iff, ne_eq, has_iff_mem_names]
  simp only [valuesOf, List.map_eq_nil_iff, List.filter_eq_nil_iff, names, List.mem_map,
    decide_eq_true_eq]
  constructor
  · rintro h ⟨f, hf, hname⟩
    exact h f hf hname
  · exact fun h f hf hname => h ⟨f, hf, hname⟩

theorem Fields.mem_valuesOf_iff {α : Type} {fs : Fields α} {name : String} {a : α} :
    a ∈ fs.valuesOf name ↔ (name, a) ∈ fs := by
  simp [valuesOf]

theorem Fields.valuesOf_of_nodup {α : Type} {fs : Fields α} (h : fs.names.Nodup)
    (name : String) : valuesOf fs name = (fs.get? name).toList := by
  induction fs with
  | nil => rfl
  | cons f fs ih =>
    obtain ⟨hnew, hrest⟩ := List.nodup_cons.mp h
    rw [get?_cons]
    by_cases hname : name = f.1
    · subst hname
      have hnone : valuesOf fs f.1 = [] := by
        rw [valuesOf_eq_nil_iff, Bool.eq_false_iff, ne_eq, has_iff_mem_names]
        exact hnew
      simpa [valuesOf] using hnone
    · rw [if_neg hname, ← ih hrest]
      simp [valuesOf, Ne.symm hname]

namespace Value

def isNode : Value → Bool
  | array .. | object .. => true
  | _ => false

/-- The values that a parent has for a name. -/
def given (parent : Value) (name : String) : List Value :=
  match parent with
  | object _ members => Fields.valuesOf members name
  | _ => []

/-- What a name comes to when a parent's value is merged under the value that it has. -/
inductive MergesTo (parent : Value) : Option Value → Option Value → Prop
  | copied : MergesTo parent none (some parent.deepCopy)
  | kept {own} : parent.isNode = false → MergesTo parent (some own) (some own)
  | removed {own} : parent.isNode → own.isDeletion → MergesTo parent (some own) none
  | joined {own node items} : parent = array node items → own.isDeletion = false →
      MergesTo parent (some own) (some (own.joined items))
  | appended {node items node' members} : parent = object node' members →
      MergesTo parent (some (array node items)) (some (ofItems (items ++ [parent.deepCopy])))
  | merged {path node own node' members} : parent = object node' members →
      (mergeMembers path members own).conflict = none →
      MergesTo parent (some (object node own))
        (some (ofMembers (mergeMembers path members own).result))

/-- What a name comes to when values are merged under it one after another. -/
inductive Settles : List Value → Option Value → Option Value → Prop
  | nil {o} : Settles [] o o
  | cons {v vs o o' o''} : MergesTo v o o' → Settles vs o' o'' → Settles (v :: vs) o o''

theorem Settles.append {vs ws : List Value} {o o' o'' : Option Value} (h : Settles vs o o')
    (h' : Settles ws o' o'') : Settles (vs ++ ws) o o'' := by
  induction h with
  | nil => exact h'
  | cons hstep _ ih => exact .cons hstep (ih h')

theorem Settles.of_nil {o o' : Option Value} (h : Settles [] o o') : o' = o := by
  cases h
  rfl

theorem Settles.invariant {P : Option Value → Prop} {vs : List Value} {o o' : Option Value}
    (hstep : ∀ v ∈ vs, ∀ o o', P o → MergesTo v o o' → P o') (h : Settles vs o o') (ho : P o) :
    P o' := by
  induction h with
  | nil => exact ho
  | cons hv _ ih =>
    obtain ⟨hfirst, hrest⟩ := List.forall_mem_cons.mp hstep
    exact ih hrest (hfirst _ _ ho hv)

/-- One member of a parent, merged into an object. -/
def mergeMember (path : Path) (name : String) (parent : Value) (own : Fields Value) :
    Merged (Fields Value) :=
  match own.get? name with
  | none => ⟨own.insert name parent.deepCopy, none⟩
  | some v =>
    if v.sameNode parent then ⟨own, some ⟨path.field name, .itself⟩⟩
    else
      match parent with
      | array _ items =>
        if v.isDeletion then ⟨own.erase name, none⟩ else ⟨own.insert name (v.joined items), none⟩
      | object _ _ =>
        if v.isDeletion then ⟨own.erase name, none⟩
        else
          let merged := mergeAt (path.field name) parent v
          ⟨own.insert name merged.result, merged.conflict⟩
      | _ => ⟨own, none⟩

/-- The members of a parent are merged until one of them fails. -/
theorem mergeMembers_cons (path : Path) (name : String) (parent : Value)
    (rest : List (String × Value)) (own : Fields Value) :
    mergeMembers path ((name, parent) :: rest) own =
      match (mergeMember path name parent own).conflict with
      | some conflict => ⟨(mergeMember path name parent own).result, some conflict⟩
      | none => mergeMembers path rest (mergeMember path name parent own).result := by
  rw [mergeMembers, mergeMember]
  cases own.get? name with
  | none => rfl
  | some v =>
    by_cases hsame : v.sameNode parent
    · simp [hsame]
    · by_cases hdel : v.isDeletion
      · cases parent <;> simp [hsame, hdel]
      · cases parent with
        | object node members =>
          cases hconflict : (mergeAt (path.field name) (object node members) v).conflict <;>
            simp [hsame, hdel, hconflict]
        | _ => simp [hsame, hdel]

theorem mergeAt_of_sameNode {path : Path} {parent template : Value}
    (h : template.sameNode parent) :
    mergeAt path parent template = ⟨template, some ⟨path, .itself⟩⟩ := by
  unfold mergeAt
  rw [if_pos h]

/-- An object or array under a value that is no deletion: the merge of the two. -/
theorem mergesTo_of_mergeAt {path : Path} {node : Node} {members : List (String × Value)}
    {own : Value} (hown : own.isDeletion = false)
    (h : (mergeAt path (object node members) own).conflict = none) :
    MergesTo (object node members) (some own)
      (some (mergeAt path (object node members) own).result) := by
  by_cases hsame : own.sameNode (object node members)
  · cases own <;> simp [mergeAt, hsame] at h
  · cases own with
    | object node' own =>
      rw [mergeAt, if_neg hsame] at h ⊢
      exact .merged rfl h
    | array node' items =>
      rw [mergeAt, if_neg hsame]
      exact .appended rfl
    | null => simp [isDeletion] at hown
    | _ => simp [mergeAt, hsame] at h

/-- Two objects that differ in the value of one name at most. -/
structure DiffersAt (name : String) (own next : Fields Value) : Prop where
  get? : ∀ k, k ≠ name → next.get? k = own.get? k
  nodup : own.names.Nodup → next.names.Nodup

theorem DiffersAt.refl (name : String) (own : Fields Value) : DiffersAt name own own :=
  ⟨fun _ _ => rfl, id⟩

theorem DiffersAt.insert (name : String) (own : Fields Value) (v : Value) :
    DiffersAt name own (own.insert name v) :=
  ⟨fun k hk => by rw [Fields.get?_insert, if_neg hk], fun h => Fields.nodup_names_insert h name v⟩

theorem DiffersAt.erase (name : String) (own : Fields Value) :
    DiffersAt name own (own.erase name) :=
  ⟨fun k hk => by rw [Fields.get?_erase, if_neg hk], fun h => Fields.nodup_names_erase h name⟩

/-- The first member of the parent is merged into an object that differs in its name only. -/
theorem mergesTo_of_mergeMember {path : Path} {name : String} {parent : Value}
    {own : Fields Value} (h : (mergeMember path name parent own).conflict = none) :
    DiffersAt name own (mergeMember path name parent own).result ∧
      MergesTo parent (own.get? name) ((mergeMember path name parent own).result.get? name) := by
  rw [mergeMember] at h ⊢
  cases hget : own.get? name with
  | none =>
    refine ⟨.insert name own _, ?_⟩
    rw [Fields.get?_insert, if_pos rfl]
    exact .copied
  | some v =>
    simp only [hget] at h ⊢
    by_cases hsame : v.sameNode parent
    · simp [hsame] at h
    · rw [if_neg hsame] at h ⊢
      by_cases hdel : v.isDeletion
      · have hremoved (hnode : parent.isNode) :
            DiffersAt name own (own.erase name) ∧
              MergesTo parent (some v) ((own.erase name).get? name) := by
          rw [Fields.get?_erase, if_pos rfl]
          exact ⟨.erase name own, .removed hnode hdel⟩
        cases parent with
        | array node items =>
          simp only [if_pos hdel]
          exact hremoved rfl
        | object node members =>
          simp only [if_pos hdel]
          exact hremoved rfl
        | _ => exact ⟨.refl name own, by rw [hget]; exact .kept rfl⟩
      · have hinsert (w : Value) (hw : MergesTo parent (some v) (some w)) :
            DiffersAt name own (own.insert name w) ∧
              MergesTo parent (some v) ((own.insert name w).get? name) := by
          rw [Fields.get?_insert, if_pos rfl]
          exact ⟨.insert name own w, hw⟩
        have hfalse : v.isDeletion = false := by simpa using hdel
        cases parent with
        | array node items =>
          simp only [if_neg hdel]
          exact hinsert _ (.joined rfl hfalse)
        | object node members =>
          simp only [if_neg hdel] at h ⊢
          exact hinsert _ (mergesTo_of_mergeAt hfalse h)
        | _ => exact ⟨.refl name own, by rw [hget]; exact .kept rfl⟩

/-- An object in which each name is settled by the values given for it, and stands once if it did
before. -/
structure SettlesTo (given : String → List Value) (own fields : Fields Value) : Prop where
  get? : ∀ k, Settles (given k) (own.get? k) (fields.get? k)
  nodup : own.names.Nodup → fields.names.Nodup

theorem SettlesTo.refl (own : Fields Value) : SettlesTo (fun _ => []) own own :=
  ⟨fun _ => .nil, id⟩

theorem SettlesTo.trans {given given' : String → List Value} {own fields fields' : Fields Value}
    (h : SettlesTo given own fields) (h' : SettlesTo given' fields fields') :
    SettlesTo (fun k => given k ++ given' k) own fields' :=
  ⟨fun k => (h.get? k).append (h'.get? k), fun hown => h'.nodup (h.nodup hown)⟩

theorem settlesTo_of_mergeMembers {path : Path} {members : List (String × Value)}
    {own : Fields Value} (h : (mergeMembers path members own).conflict = none) :
    SettlesTo (Fields.valuesOf members) own (mergeMembers path members own).result := by
  induction members generalizing own with
  | nil =>
    rw [mergeMembers]
    exact .refl own
  | cons m rest ih =>
    rcases m with ⟨name, parent⟩
    rw [mergeMembers_cons] at h ⊢
    cases hconflict : (mergeMember path name parent own).conflict with
    | some conflict => simp [hconflict] at h
    | none =>
    simp only [hconflict] at h ⊢
    rcases mergesTo_of_mergeMember hconflict with ⟨hdiffers, hname⟩
    refine ⟨fun k => ?_, fun hown => (ih h).nodup (hdiffers.nodup hown)⟩
    have hrest := (ih h).get? k
    by_cases hk : k = name
    · subst hk
      have hvalues : Fields.valuesOf ((k, parent) :: rest) k =
          parent :: Fields.valuesOf rest k := by simp [Fields.valuesOf]
      rw [hvalues]
      exact .cons hname hrest
    · have hvalues : Fields.valuesOf ((name, parent) :: rest) k = Fields.valuesOf rest k := by
        simp [Fields.valuesOf, Ne.symm hk]
      rw [hvalues, ← hdiffers.get? k hk]
      exact hrest

/-- Anything that merges into an object leaves an object. -/
theorem settlesTo_of_merge {node : Node} {own : Fields Value} {parent r : Value}
    (h : (object node own).merge parent = .ok r) :
    ∃ node' fields, r = object node' fields ∧ SettlesTo parent.given own fields := by
  rw [merge, merged] at h
  cases hconflict : (mergeAt .root parent (object node own)).conflict with
  | some conflict => simp [hconflict] at h
  | none =>
    simp only [hconflict, Except.ok.injEq] at h
    cases parent with
    | object node' members =>
      rw [mergeAt] at h hconflict
      split at hconflict
      · simp at hconflict
      · rename_i hsame
        rw [if_neg hsame] at h
        exact ⟨none, _, h.symm, settlesTo_of_mergeMembers hconflict⟩
    | array node' items =>
      simp [mergeAt, sameNode] at hconflict
    | _ => exact ⟨node, own, by simpa [mergeAt, sameNode] using h.symm, .refl own⟩

/-- A row of steps that each merge something into one object. -/
theorem settlesTo_of_foldlM {ε α : Type} {step : Value → α → Except ε Value}
    {given : α → String → List Value}
    (hstep : ∀ node own a r, step (object node own) a = .ok r →
      ∃ node' fields, r = object node' fields ∧ SettlesTo (given a) own fields)
    {as : List α} {node : Node} {own : Fields Value} {r : Value}
    (h : as.foldlM step (object node own) = .ok r) :
    ∃ node' fields, r = object node' fields ∧
      SettlesTo (fun k => as.flatMap (given · k)) own fields := by
  induction as generalizing node own with
  | nil =>
    rw [List.foldlM_nil, pure_eq_ok] at h
    exact ⟨node, own, h.symm, .refl own⟩
  | cons a as ih =>
    rw [List.foldlM_cons, bind_eq_ok] at h
    rcases h with ⟨v, hv, h⟩
    rcases hstep node own a v hv with ⟨node₁, fields₁, rfl, h₁⟩
    rcases ih h with ⟨node₂, fields₂, rfl, h₂⟩
    exact ⟨node₂, fields₂, rfl, h₁.trans h₂⟩

end Value

end Stencil

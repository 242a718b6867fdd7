import Stencil.Proofs.Merge.Settling
import Stencil.Proofs.Value.Places

/-!
# Callables inside values

`v.Holds c` says that the callable `c` stands somewhere in `v`. Copies hold the same callables, a
merge holds no others than the two values that it is made of, and stripping brings in none.
-/

namespace Stencil.Value

/-- The callable `c` is the value itself or stands in it at some depth. -/
def Holds (v c : Value) : Prop :=
  c.isCallable ∧ ∃ p, v.At p c

theorem holds_array {node : Node} {items : List Value} {c : Value} :
    (array node items).Holds c ↔ ∃ v ∈ items, v.Holds c := by
  constructor
  · rintro ⟨hc, p, h⟩
    cases h with
    | here => simp [isCallable] at hc
    | item hi h => exact ⟨_, List.mem_of_getElem? hi, hc, _, h⟩
  · rintro ⟨v, hv, hc, p, h⟩
    obtain ⟨i, hi⟩ := List.getElem?_of_mem hv
    exact ⟨hc, _, .item hi h⟩

theorem holds_object {node : Node} {members : List (String × Value)} {c : Value} :
    (object node members).Holds c ↔ ∃ m ∈ members, m.2.Holds c := by
  constructor
  · rintro ⟨hc, p, h⟩
    cases h with
    | here => simp [isCallable] at hc
    | member hm h => exact ⟨_, hm, hc, _, h⟩
  · rintro ⟨m, hm, hc, p, h⟩
    exact ⟨hc, _, .member hm h⟩

/-- A value without items and members holds at most itself. -/
theorem holds_leaf {v c : Value} (hv : v.isNode = false) :
    v.Holds c ↔ v.isCallable ∧ c = v := by
  constructor
  · rintro ⟨hc, p, h⟩
    cases h with
    | here => exact ⟨hc, rfl⟩
    | item | member => simp [isNode] at hv
  · rintro ⟨hc, rfl⟩
    exact ⟨hc, [], .here⟩

theorem holds_ofItems {items : List Value} {c : Value} :
    (ofItems items).Holds c ↔ ∃ v ∈ items, v.Holds c :=
  holds_array

theorem holds_ofMembers {members : Fields Value} {c : Value} :
    (ofMembers members).Holds c ↔ ∃ m ∈ members, m.2.Holds c :=
  holds_object

@[simp] theorem holds_deepCopy {v c : Value} : v.deepCopy.Holds c ↔ v.Holds c := by
  induction v using rec_nodes with
  | onArray node items ih =>
    rw [deepCopy, copyItems_eq_map, holds_ofItems, holds_array]
    simp only [List.mem_map, exists_exists_and_eq_and]
    exact exists_congr fun v => and_congr_right fun hv => ih v hv
  | onObject node members ih =>
    rw [deepCopy, copyMembers_eq_map, holds_ofMembers, holds_object]
    simp only [List.mem_map, exists_exists_and_eq_and]
    exact exists_congr fun m => and_congr_right fun hm => ih m hm
  | onLeaf v harray hobject => cases v <;> first | rfl | simp [kind] at harray hobject

theorem holds_of_stripNulls {v c : Value} (h : v.stripNulls.Holds c) : v.Holds c := by
  induction v using rec_nodes with
  | onArray node items ih =>
    rw [stripNulls, stripItems_eq_map, holds_ofItems] at h
    obtain ⟨_, hmem, h⟩ := h
    obtain ⟨v, hv, rfl⟩ := List.mem_map.mp hmem
    have hv := (List.mem_filter.mp hv).1
    exact holds_array.mpr ⟨v, hv, ih v hv h⟩
  | onObject node members ih =>
    rw [stripNulls, stripMembers_eq_map, holds_ofMembers] at h
    obtain ⟨_, hmem, h⟩ := h
    obtain ⟨m, hm, rfl⟩ := List.mem_map.mp hmem
    have hm := (List.mem_filter.mp hm).1
    exact holds_object.mpr ⟨m, hm, ih m hm h⟩
  | onLeaf v harray hobject => cases v <;> first | exact h | simp [kind] at harray hobject

theorem holds_insert {own : Fields Value} {name : String} {v c : Value}
    (h : (ofMembers (own.insert name v)).Holds c) : v.Holds c ∨ (ofMembers own).Holds c := by
  obtain ⟨m, hm, h⟩ := holds_ofMembers.mp h
  rcases Fields.mem_insert hm with hm | rfl
  · exact .inr (holds_ofMembers.mpr ⟨m, hm, h⟩)
  · exact .inl h

theorem holds_erase {own : Fields Value} {name : String} {c : Value}
    (h : (ofMembers (own.erase name)).Holds c) : (ofMembers own).Holds c := by
  obtain ⟨m, hm, h⟩ := holds_ofMembers.mp h
  exact holds_ofMembers.mpr ⟨m, (List.mem_filter.mp hm).1, h⟩

theorem holds_of_get? {own : Fields Value} {name : String} {v c : Value}
    (hget : own.get? name = some v) (h : v.Holds c) : (ofMembers own).Holds c :=
  holds_ofMembers.mpr ⟨_, Fields.mem_of_get? hget, h⟩

theorem holds_joined {own c : Value} {node : Node} {items : List Value}
    (h : (own.joined items).Holds c) : (array node items).Holds c ∨ own.Holds c := by
  have hcopies {v : Value} (hv : v ∈ copyItems items) (h : v.Holds c) :
      (array node items).Holds c := by
    rw [copyItems_eq_map] at hv
    obtain ⟨w, hw, rfl⟩ := List.mem_map.mp hv
    exact holds_array.mpr ⟨w, hw, holds_deepCopy.mp h⟩
  have hfront (front : List Value) (hjoined : (ofItems (front ++ copyItems items)).Holds c) :
      (array node items).Holds c ∨ ∃ v ∈ front, v.Holds c := by
    obtain ⟨v, hv, h⟩ := holds_ofItems.mp hjoined
    rcases List.mem_append.mp hv with hv | hv
    · exact .inr ⟨v, hv, h⟩
    · exact .inl (hcopies hv h)
  cases own with
  | array node' own => exact (hfront own h).imp_right holds_array.mpr
  | _ => exact (hfront [_] h).imp_right fun h => by simpa using h

variable {c : Value}

theorem holds_mergeMember {path : Path} {name : String} {parent : Value}
    (hparent : ∀ path v, (mergeAt path parent v).result.Holds c → parent.Holds c ∨ v.Holds c)
    {own : Fields Value} (h : (ofMembers (mergeMember path name parent own).result).Holds c) :
    parent.Holds c ∨ (ofMembers own).Holds c := by
  rw [mergeMember] at h
  cases hget : own.get? name with
  | none =>
    simp only [hget] at h
    exact (holds_insert h).imp_left holds_deepCopy.mp
  | some v =>
    have hmember (w : Value) (hw : w.Holds c → parent.Holds c ∨ v.Holds c)
        (h : (ofMembers (own.insert name w)).Holds c) :
        parent.Holds c ∨ (ofMembers own).Holds c := by
      rcases holds_insert h with h | h
      · exact (hw h).imp_right (holds_of_get? hget)
      · exact .inr h
    simp only [hget] at h
    split at h
    · exact .inr h
    · split at h
      · split at h
        · exact .inr (holds_erase h)
        · exact hmember _ holds_joined h
      · split at h
        · exact .inr (holds_erase h)
        · exact hmember _ (hparent _ v) h
      · exact .inr h

theorem holds_mergeMembers {members : List (String × Value)}
    (hmembers : ∀ m ∈ members, ∀ path v,
      (mergeAt path m.2 v).result.Holds c → m.2.Holds c ∨ v.Holds c)
    {path : Path} {own : Fields Value}
    (h : (ofMembers (mergeMembers path members own).result).Holds c) :
    (ofMembers members).Holds c ∨ (ofMembers own).Holds c := by
  induction members generalizing own with
  | nil => exact .inr (by rwa [mergeMembers] at h)
  | cons m rest ih =>
    obtain ⟨name, parent⟩ := m
    have hfirst (h : (ofMembers (mergeMember path name parent own).result).Holds c) :
        (ofMembers ((name, parent) :: rest)).Holds c ∨ (ofMembers own).Holds c :=
      (holds_mergeMember (hmembers _ List.mem_cons_self) h).imp_left fun h =>
        holds_ofMembers.mpr ⟨_, List.mem_cons_self, h⟩
    rw [mergeMembers_cons] at h
    split at h
    · exact hfirst h
    · rcases ih (fun m hm => hmembers m (List.mem_cons_of_mem _ hm)) h with h | h
      · obtain ⟨m, hm, h⟩ := holds_ofMembers.mp h
        exact .inl (holds_ofMembers.mpr ⟨m, List.mem_cons_of_mem _ hm, h⟩)
      · exact hfirst h

/-- A merge holds no callable but those of the two values. -/
theorem holds_mergeAt {parent : Value} (path : Path) (template : Value)
    (h : (mergeAt path parent template).result.Holds c) : parent.Holds c ∨ template.Holds c := by
  induction parent using rec_nodes generalizing path template with
  | onArray node items ih =>
    unfold mergeAt at h
    split at h
    · exact .inr h
    · cases template with
      | array node' own => exact holds_joined h
      | _ => exact .inr h
  | onObject node members ih =>
    unfold mergeAt at h
    split at h
    · exact .inr h
    · cases template with
      | object node' own =>
        have hmarks {mark : Node} {members : Fields Value} (h : (ofMembers members).Holds c) :
            (object mark members).Holds c := holds_object.mpr (holds_ofMembers.mp h)
        exact (holds_mergeMembers ih h).imp hmarks hmarks
      | array node' own =>
        obtain ⟨v, hv, h⟩ := holds_ofItems.mp h
        rcases List.mem_append.mp hv with hv | hv
        · exact .inr (holds_array.mpr ⟨v, hv, h⟩)
        · rw [List.mem_singleton.mp hv] at h
          exact .inl (holds_deepCopy.mp h)
      | _ => exact .inr h
  | onLeaf v harray hobject =>
    cases v with
    | array => simp [kind] at harray
    | object => simp [kind] at hobject
    | _ =>
      unfold mergeAt at h
      cases template <;> exact .inr (by simpa [sameNode] using h)

theorem holds_merge {template parent r : Value} (hr : template.merge parent = .ok r)
    (h : r.Holds c) : parent.Holds c ∨ template.Holds c := by
  rw [merge, merged] at hr
  split at hr
  · simp at hr
  · exact holds_mergeAt .root template (by rwa [Except.ok.inj hr])

theorem exists_of_toJsonItems_eq_error {vs : List Value} {k : Kind}
    (h : toJsonItems vs = .error k) : ∃ v ∈ vs, v.toJson = .error k := by
  induction vs with
  | nil => cases h
  | cons v vs ih =>
    simp only [toJsonItems, bind_eq_error, pure_ne_error, and_false, exists_false, or_false] at h
    rcases h with h | ⟨-, -, h⟩
    · exact ⟨v, List.mem_cons_self, h⟩
    · obtain ⟨w, hw, h⟩ := ih h
      exact ⟨w, List.mem_cons_of_mem _ hw, h⟩

theorem exists_of_toJsonMembers_eq_error {ms : List (String × Value)} {k : Kind}
    (h : toJsonMembers ms = .error k) : ∃ m ∈ ms, m.2.toJson = .error k := by
  induction ms with
  | nil => cases h
  | cons m ms ih =>
    simp only [toJsonMembers, bind_eq_error, pure_ne_error, and_false, exists_false, or_false] at h
    rcases h with h | ⟨-, -, h⟩
    · exact ⟨m, List.mem_cons_self, h⟩
    · obtain ⟨m', hm', h⟩ := ih h
      exact ⟨m', List.mem_cons_of_mem _ hm', h⟩

/-- A value that has no document holds a callable, of the kind that the failure names. -/
theorem holds_of_toJson_eq_error {v : Value} {k : Kind} (h : v.toJson = .error k) :
    ∃ c, v.Holds c ∧ c.kind = k := by
  induction v using rec_nodes with
  | onArray node items ih =>
    simp only [toJson, bind_eq_error, pure_ne_error, and_false, exists_false, or_false] at h
    obtain ⟨v, hv, h⟩ := exists_of_toJsonItems_eq_error h
    obtain ⟨c, hc, hkind⟩ := ih v hv h
    exact ⟨c, holds_array.mpr ⟨v, hv, hc⟩, hkind⟩
  | onObject node members ih =>
    simp only [toJson, bind_eq_error, pure_ne_error, and_false, exists_false, or_false] at h
    obtain ⟨m, hm, h⟩ := exists_of_toJsonMembers_eq_error h
    obtain ⟨c, hc, hkind⟩ := ih m hm h
    exact ⟨c, holds_object.mpr ⟨m, hm, hc⟩, hkind⟩
  | onLeaf v harray hobject =>
    cases v with
    | array => simp [kind] at harray
    | object => simp [kind] at hobject
    | lambda | function => exact ⟨_, (holds_leaf rfl).mpr ⟨rfl, rfl⟩, Except.error.inj h⟩
    | _ => cases h

/-- No callable stands in a document. -/
theorem not_holds_ofJson (v : Json) (c : Value) : ¬ (ofJson v).Holds c := by
  induction v using Json.rec_nodes with
  | onArray items ih =>
    rw [ofJson, holds_ofItems, ofJsonItems_eq_map]
    simpa using ih
  | onObject members ih =>
    rw [ofJson, holds_ofMembers, ofJsonMembers_eq_map]
    simpa using ih
  | onLeaf v harray hobject =>
    cases v with
    | array items => exact absurd rfl (harray items)
    | object members => exact absurd rfl (hobject members)
    | _ =>
      rw [ofJson, holds_leaf rfl]
      simp [isCallable]

end Stencil.Value

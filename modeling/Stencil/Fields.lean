/-!
# Fields

The members of an object: names with values in the order in which they were first given.
-/

namespace Stencil

abbrev Fields (α : Type) := List (String × α)

namespace Fields

variable {α : Type}

def get? (fs : Fields α) (name : String) : Option α :=
  fs.lookup name

def has (fs : Fields α) (name : String) : Bool :=
  (fs.lookup name).isSome

def names (fs : Fields α) : List String :=
  fs.map (·.1)

/-- A new name goes to the end, a known one keeps its place. -/
def insert (fs : Fields α) (name : String) (a : α) : Fields α :=
  match fs with
  | [] => [(name, a)]
  | f :: rest => if f.1 = name then (name, a) :: rest else f :: insert rest name a

def erase (fs : Fields α) (name : String) : Fields α :=
  fs.filter (·.1 ≠ name)

/-- The fields given one after another, of which the last value of a name counts. -/
def ofList (fs : List (String × α)) : Fields α :=
  fs.foldl (fun acc f => acc.insert f.1 f.2) []

theorem get?_cons (f : String × α) (fs : Fields α) (name : String) :
    get? (f :: fs) name = if name = f.1 then some f.2 else get? fs name := by
  obtain ⟨k, a⟩ := f
  by_cases h : name = k
  · simp [get?, h]
  · simp [get?, List.lookup_cons, beq_false_of_ne h, h]

theorem get?_insert (fs : Fields α) (name name' : String) (a : α) :
    get? (fs.insert name a) name' = if name' = name then some a else get? fs name' := by
  induction fs with
  | nil => simp [insert, get?_cons]
  | cons f fs ih => grind [insert, get?_cons]

theorem names_insert_of_has (fs : Fields α) (name : String) (a : α) (h : fs.has name) :
    (fs.insert name a).names = fs.names := by
  induction fs with
  | nil => simp [has] at h
  | cons f fs ih => grind [insert, names, has]

theorem insert_of_not_has (fs : Fields α) (name : String) (a : α) (h : fs.has name = false) :
    fs.insert name a = fs ++ [(name, a)] := by
  induction fs with
  | nil => rfl
  | cons f fs ih => grind [insert, has]

theorem insert_of_get? {fs : Fields α} {name : String} {a : α} (h : fs.get? name = some a) :
    fs.insert name a = fs := by
  induction fs with
  | nil => simp [get?] at h
  | cons f fs ih =>
    rw [get?_cons] at h
    rw [insert]
    by_cases hname : name = f.1
    · rw [if_pos hname, Option.some.injEq] at h
      rw [if_pos hname.symm, hname, ← h]
    · rw [if_neg hname] at h
      rw [if_neg (Ne.symm hname), ih h]

theorem mem_of_get? {fs : Fields α} {name : String} {a : α} (h : fs.get? name = some a) :
    (name, a) ∈ fs := by
  induction fs with
  | nil => simp [get?] at h
  | cons f fs ih =>
    obtain ⟨k, b⟩ := f
    rw [get?_cons] at h
    by_cases hk : name = k
    · subst hk
      simp_all
    · simp only [hk, if_false] at h
      exact List.mem_cons_of_mem _ (ih h)

theorem has_eq_isSome (fs : Fields α) (name : String) : fs.has name = (fs.get? name).isSome :=
  rfl

theorem has_iff_mem_names (fs : Fields α) (name : String) : fs.has name ↔ name ∈ fs.names := by
  induction fs with
  | nil => simp [has, names]
  | cons f fs ih =>
    rw [has_eq_isSome] at ih ⊢
    rw [get?_cons]
    by_cases h : name = f.1
    · simp [h, names]
    · simpa [h, names] using ih

theorem get?_eq_none_iff (fs : Fields α) (name : String) :
    fs.get? name = none ↔ name ∉ fs.names := by
  rw [← has_iff_mem_names, has_eq_isSome, Bool.not_eq_true, Option.isSome_eq_false_iff,
    Option.isNone_iff_eq_none]

theorem get?_erase (fs : Fields α) (name name' : String) :
    get? (fs.erase name) name' = if name' = name then none else get? fs name' := by
  induction fs with
  | nil => simp [erase, get?]
  | cons f fs ih =>
    rw [get?_cons]
    by_cases hf : f.1 = name
    · have hcons : erase (f :: fs) name = erase fs name := by simp [erase, hf]
      rw [hcons, ih]
      by_cases hn : name' = name <;> simp [hn, hf]
    · have hcons : erase (f :: fs) name = f :: erase fs name := by simp [erase, hf]
      rw [hcons, get?_cons, ih]
      by_cases hn : name' = f.1
      · simp [hn, hf]
      · simp [hn]

theorem names_erase (fs : Fields α) (name : String) :
    (fs.erase name).names = fs.names.filter (· ≠ name) := by
  rw [names, names, List.filter_map]
  rfl

theorem erase_erase (fs : Fields α) (name : String) :
    erase (fs.erase name) name = fs.erase name := by
  rw [erase, erase, List.filter_filter]
  simp

theorem erase_of_not_has {fs : Fields α} {name : String} (h : fs.has name = false) :
    fs.erase name = fs := by
  apply List.filter_eq_self.mpr
  intro f hf
  have hname : f.1 ≠ name := by
    rintro rfl
    rw [Bool.eq_false_iff] at h
    exact h ((has_iff_mem_names fs f.1).mpr (List.mem_map_of_mem hf))
  simpa using hname

theorem names_map {β : Type} (g : α → β) (fs : Fields α) :
    names (fs.map fun f => (f.1, g f.2)) = fs.names := by
  simp [names, Function.comp_def]

theorem get?_map {β : Type} (g : α → β) (fs : Fields α) (name : String) :
    get? (fs.map fun f => (f.1, g f.2)) name = (fs.get? name).map g := by
  induction fs with
  | nil => rfl
  | cons f fs ih =>
    rw [List.map_cons, get?_cons, get?_cons, ih]
    by_cases h : name = f.1 <;> simp [h]

theorem erase_map {β : Type} (g : α → β) (fs : Fields α) (name : String) :
    erase (fs.map fun f => (f.1, g f.2)) name = (fs.erase name).map fun f => (f.1, g f.2) := by
  rw [erase, erase, List.filter_map]
  rfl

theorem insert_map {β : Type} (g : α → β) (fs : Fields α) (name : String) (a : α) :
    insert (fs.map fun f => (f.1, g f.2)) name (g a) =
      (fs.insert name a).map fun f => (f.1, g f.2) := by
  induction fs with
  | nil => rfl
  | cons f fs ih =>
    rw [List.map_cons, insert, insert, ih]
    by_cases h : f.1 = name <;> simp [h]

theorem mem_iff_get? {fs : Fields α} (h : fs.names.Nodup) (name : String) (a : α) :
    (name, a) ∈ fs ↔ fs.get? name = some a := by
  refine ⟨fun hmem => ?_, mem_of_get?⟩
  induction fs with
  | nil => simp at hmem
  | cons f fs ih =>
    rw [get?_cons]
    obtain ⟨hnew, hrest⟩ := List.nodup_cons.mp h
    rcases List.mem_cons.mp hmem with rfl | hmem
    · simp
    · have hne : name ≠ f.1 := by
        rintro rfl
        exact hnew (List.mem_map.mpr ⟨_, hmem, rfl⟩)
      rw [if_neg hne]
      exact ih hrest hmem

theorem nodup_names_insert {fs : Fields α} (h : fs.names.Nodup) (name : String) (a : α) :
    (fs.insert name a).names.Nodup := by
  by_cases hname : name ∈ fs.names
  · rw [names_insert_of_has fs name a ((has_iff_mem_names fs name).mpr hname)]
    exact h
  · have hhas : fs.has name = false :=
      Bool.eq_false_iff.mpr fun hhas => hname ((has_iff_mem_names fs name).mp hhas)
    rw [insert_of_not_has fs name a hhas]
    simp only [names, List.map_append, List.map_cons, List.map_nil, List.nodup_append]
    refine ⟨h, by simp, ?_⟩
    rintro k hk _ hk' rfl
    exact hname (List.mem_singleton.mp hk' ▸ hk)

theorem nodup_names_erase {fs : Fields α} (h : fs.names.Nodup) (name : String) :
    (fs.erase name).names.Nodup :=
  List.Pairwise.sublist (List.filter_sublist.map _) h

theorem nodup_names_ofList (fs : List (String × α)) : (ofList fs).names.Nodup := by
  have hfold : ∀ (fs : List (String × α)) (acc : Fields α), acc.names.Nodup →
      (fs.foldl (fun acc f => acc.insert f.1 f.2) acc).names.Nodup := by
    intro fs
    induction fs with
    | nil => exact fun _ h => h
    | cons f fs ih => exact fun acc h => ih _ (nodup_names_insert h _ _)
  exact hfold fs [] (by simp [names])

theorem mem_insert {fs : Fields α} {name : String} {a : α} {f : String × α}
    (h : f ∈ fs.insert name a) : f ∈ fs ∨ f = (name, a) := by
  induction fs with
  | nil => simpa [insert] using h
  | cons g fs ih =>
    rw [insert] at h
    split at h
    · rcases List.mem_cons.mp h with h | h
      · exact .inr h
      · exact .inl (List.mem_cons_of_mem _ h)
    · rcases List.mem_cons.mp h with h | h
      · exact .inl (h ▸ List.mem_cons_self)
      · exact (ih h).imp_left (List.mem_cons_of_mem _)

theorem mem_of_mem_ofList {fs : List (String × α)} {f : String × α} (h : f ∈ ofList fs) :
    f ∈ fs := by
  have hfold : ∀ (fs : List (String × α)) (acc : Fields α),
      f ∈ fs.foldl (fun acc f => acc.insert f.1 f.2) acc → f ∈ acc ∨ f ∈ fs := by
    intro fs
    induction fs with
    | nil => exact fun _ h => .inl h
    | cons g fs ih =>
      intro acc h
      rcases ih _ h with h | h
      · exact (mem_insert h).imp_right fun heq => List.mem_cons.mpr (.inl heq)
      · exact .inr (List.mem_cons_of_mem _ h)
  simpa using hfold fs [] h

theorem has_ofList (fs : List (String × α)) (name : String) :
    (ofList fs).has name ↔ name ∈ names fs := by
  have hfold : ∀ (fs : List (String × α)) (acc : Fields α),
      (fs.foldl (fun acc f => acc.insert f.1 f.2) acc).has name ↔
        acc.has name ∨ name ∈ names fs := by
    intro fs
    induction fs with
    | nil => simp [names]
    | cons f fs ih =>
      intro acc
      rw [List.foldl_cons, ih, has_eq_isSome, has_eq_isSome, get?_insert]
      by_cases hname : name = f.1 <;> simp [names, hname]
  rw [ofList, hfold]
  simp [has]

theorem ofList_of_nodup {fs : List (String × α)} (h : (names fs).Nodup) : ofList fs = fs := by
  have hfold : ∀ (fs : List (String × α)) (acc : Fields α), (names (acc ++ fs)).Nodup →
      fs.foldl (fun acc f => acc.insert f.1 f.2) acc = acc ++ fs := by
    intro fs
    induction fs with
    | nil => simp
    | cons f fs ih =>
      intro acc hacc
      have hhas : acc.has f.1 = false := by
        simp only [names, List.map_append, List.map_cons, List.nodup_append] at hacc
        exact Bool.eq_false_iff.mpr fun hhas =>
          hacc.2.2 _ ((has_iff_mem_names acc f.1).mp hhas) _ (by simp) rfl
      rw [List.foldl_cons, insert_of_not_has acc _ _ hhas]
      have := ih (acc ++ [(f.1, f.2)]) (by simpa using hacc)
      simpa using this
  exact hfold fs [] (by simpa using h)

end Fields

end Stencil

import Stencil.Command.FilePath

/-!
# Steps of paths

The steps of a joined path are those of both parts, unless the second part starts at the root. What
is nested under a directory never does, and has no step upwards.
-/

namespace Stencil

section

variable {α : Type} [BEq α] [LawfulBEq α] {a : α}

theorem not_mem_of_mem_splitOn {xs l : List α} (h : l ∈ xs.splitOn a) : a ∉ l := by
  induction xs generalizing l with
  | nil => simp_all
  | cons x xs ih =>
    obtain ⟨first, others, hsplit⟩ := List.exists_cons_of_ne_nil (List.splitOn_ne_nil a xs)
    rw [List.splitOn_cons_eq_if_modifyHead] at h
    split at h
    · rcases List.mem_cons.mp h with rfl | h
      · simp
      · exact ih h
    · rename_i hx
      rw [hsplit] at h ih
      rcases List.mem_cons.mp h with rfl | h
      · rintro (_ | ⟨_, hmem⟩)
        · exact hx (beq_self_eq_true a)
        · exact ih List.mem_cons_self hmem
      · exact ih (List.mem_cons_of_mem _ h)

theorem splitOn_append_of_not_mem {ys : List α} (h : a ∉ ys) (xs : List α) :
    ∃ others last, xs.splitOn a = others ++ [last] ∧
      (xs ++ ys).splitOn a = others ++ [last ++ ys] := by
  induction xs with
  | nil => exact ⟨[], [], rfl, List.splitOn_eq_singleton h⟩
  | cons x xs ih =>
    obtain ⟨others, last, hxs, hall⟩ := ih
    rw [List.cons_append, List.splitOn_cons_eq_if_modifyHead, List.splitOn_cons_eq_if_modifyHead,
      hxs, hall]
    split
    · exact ⟨[] :: others, last, rfl, rfl⟩
    · cases others with
      | nil => exact ⟨[], x :: last, rfl, rfl⟩
      | cons first others => exact ⟨(x :: first) :: others, last, rfl, rfl⟩

end

namespace FilePath

variable {a b path : String}

theorem isAbsolute_eq (path : String) : isAbsolute path = (path.toList.head? == some '/') :=
  String.startsWith_char_eq_head?

theorem isAbsolute_of_not_mem (h : '/' ∉ path.toList) : isAbsolute path = false := by
  rw [isAbsolute_eq, beq_eq_false_iff_ne]
  exact fun hhead => h (List.mem_of_mem_head? hhead)

theorem isAbsolute_append (ha : a ≠ "") (b : String) : isAbsolute (a ++ b) = isAbsolute a := by
  obtain ⟨c, cs, hcs⟩ := List.exists_cons_of_ne_nil (mt String.toList_eq_nil_iff.mp ha)
  simp [isAbsolute_eq, hcs]

theorem pieces_append_slash (a b : String) : pieces (a ++ "/" ++ b) = pieces a ++ pieces b := by
  have hlist : (a ++ "/" ++ b).toList = a.toList ++ '/' :: b.toList := by simp
  rw [pieces, hlist, List.splitOn_append_cons_self, List.map_append]
  rfl

theorem steps_append_slash (a b : String) : steps (a ++ "/" ++ b) = steps a ++ steps b := by
  rw [steps, pieces_append_slash, List.filter_append]
  rfl

theorem join_of_isAbsolute (hb : isAbsolute b) : join a b = b := by
  simp [join, hb]

theorem isAbsolute_join_of_relative (hb : isAbsolute b = false) :
    isAbsolute (join a b) = isAbsolute a := by
  by_cases ha : a = ""
  · simp_all [join, isAbsolute_eq]
  · rw [join, if_neg (by simp [hb, ha])]
    split
    · exact isAbsolute_append ha b
    · rw [String.append_assoc]
      exact isAbsolute_append ha _

theorem steps_join_of_relative (hb : isAbsolute b = false) :
    steps (join a b) = steps a ++ steps b := by
  by_cases ha : a = ""
  · subst ha
    rw [join, if_pos (by simp)]
    rfl
  · rw [join, if_neg (by simp [hb, ha])]
    split
    · rename_i hslash
      obtain ⟨t, rfl⟩ := String.endsWith_char_iff_exists_append.mp hslash
      have hempty : steps (t ++ "/" ++ "") = steps t ++ [] := steps_append_slash t ""
      rw [String.append_empty, List.append_nil] at hempty
      exact (steps_append_slash t b).trans (congrArg (· ++ steps b) hempty.symm)
    · exact steps_append_slash a b

theorem mem_steps {s : String} (h : s ∈ steps path) : '/' ∉ s.toList ∧ s ≠ "" ∧ s ≠ "." := by
  obtain ⟨hmem, hkept⟩ := List.mem_filter.mp h
  obtain ⟨cs, hcs, rfl⟩ := List.mem_map.mp hmem
  refine ⟨?_, by simpa using hkept⟩
  rw [String.toList_ofList]
  exact not_mem_of_mem_splitOn hcs

variable {names : List String}

theorem steps_intercalate (h : ∀ s ∈ names, '/' ∉ s.toList ∧ s ≠ "" ∧ s ≠ ".") :
    steps ("/".intercalate names) = names := by
  by_cases hnames : names = []
  · subst hnames
    rfl
  · have hslash : ∀ l ∈ names.map String.toList, '/' ∉ l :=
      List.forall_mem_map.mpr fun s hs => (h s hs).1
    have hpieces : pieces ("/".intercalate names) = names := by
      have hsplit := List.splitOn_intercalate '/' hslash (by simpa using hnames)
      simp [pieces, String.toList_intercalate, hsplit]
    rw [steps, hpieces, List.filter_eq_self]
    intro s hs
    simpa using (h s hs).2

theorem isAbsolute_intercalate (h : ∀ s ∈ names, '/' ∉ s.toList ∧ s ≠ "" ∧ s ≠ ".") :
    isAbsolute ("/".intercalate names) = false := by
  match names with
  | [] => exact isAbsolute_of_not_mem (by simp)
  | [s] =>
    rw [String.intercalate_singleton]
    exact isAbsolute_of_not_mem (h s List.mem_cons_self).1
  | s :: t :: names =>
    obtain ⟨hs, hne, -⟩ := h s List.mem_cons_self
    rw [String.intercalate_cons_cons, String.append_assoc, isAbsolute_append hne]
    exact isAbsolute_of_not_mem hs

/-- The names that the directory of a source is nested under. -/
def innerSteps (path : String) : List String :=
  (steps path).dropLast.filter (· ≠ "..")

theorem mem_innerSteps {s : String} (h : s ∈ innerSteps path) :
    ('/' ∉ s.toList ∧ s ≠ "" ∧ s ≠ ".") ∧ s ≠ ".." := by
  obtain ⟨hmem, hup⟩ := List.mem_filter.mp h
  exact ⟨mem_steps (List.dropLast_subset _ hmem), by simpa using hup⟩

theorem steps_innerDirectory (path : String) : steps (innerDirectory path) = innerSteps path :=
  steps_intercalate fun _ hs => (mem_innerSteps hs).1

theorem isAbsolute_innerDirectory (path : String) : isAbsolute (innerDirectory path) = false :=
  isAbsolute_intercalate fun _ hs => (mem_innerSteps hs).1

theorem pieces_of_not_mem (h : '/' ∉ path.toList) : pieces path = [path] := by
  rw [pieces, List.splitOn_eq_singleton h]
  simp

theorem pieces_ne_nil (path : String) : pieces path ≠ [] :=
  mt List.map_eq_nil_iff.mp (List.splitOn_ne_nil _ _)

theorem getLast?_pieces_join (a b : String) :
    (pieces (join a b)).getLast? = (pieces b).getLast? := by
  have hend (t : String) : (pieces (t ++ "/" ++ b)).getLast? = (pieces b).getLast? := by
    rw [pieces_append_slash, List.getLast?_append,
      Option.or_of_isSome (List.getLast?_isSome.mpr (pieces_ne_nil b))]
  rw [join]
  split
  · rfl
  split
  · rename_i hslash
    obtain ⟨t, rfl⟩ := String.endsWith_char_iff_exists_append.mp hslash
    exact hend t
  · exact hend a

theorem getLast?_steps {s : String} (h : (pieces path).getLast? = some s) (hempty : s ≠ "")
    (hdot : s ≠ ".") : (steps path).getLast? = some s := by
  obtain ⟨others, hothers⟩ := List.getLast?_eq_some_iff.mp h
  simp [steps, hothers, hempty, hdot]

/-- An ending without a `/` lengthens the last piece. -/
theorem pieces_append (h : '/' ∉ b.toList) (a : String) :
    ∃ others last, pieces a = others ++ [last] ∧ pieces (a ++ b) = others ++ [last ++ b] := by
  obtain ⟨others, last, ha, hab⟩ := splitOn_append_of_not_mem h a.toList
  refine ⟨others.map String.ofList, String.ofList last, ?_, ?_⟩
  · rw [pieces, ha, List.map_append]
    rfl
  · rw [pieces, String.toList_append, hab, List.map_append, List.map_singleton,
      String.ofList_append, String.ofList_toList]

end FilePath

end Stencil

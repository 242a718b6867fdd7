import Stencil.Proofs.Command.Outputs

/-!
# Collected sources

Whatever is collected is a file: the path that a source is collected under leads to the place where
the source was found.
-/

namespace Stencil

/-- What a file or a directory can be called. -/
def IsName (s : String) : Prop :=
  '/' ∉ s.toList ∧ s ≠ "" ∧ s ≠ "." ∧ s ≠ ".."

instance (s : String) : Decidable (IsName s) :=
  inferInstanceAs (Decidable (_ ∧ _))

namespace Disk

open FilePath

variable {d : Disk} {p : Place} {path s : String}

/-- All places on the disk are made of names. -/
def HasNames (d : Disk) : Prop :=
  ∀ x ∈ d.entries, ∀ s ∈ x.1, IsName s

instance (d : Disk) : Decidable d.HasNames :=
  inferInstanceAs (Decidable (∀ x ∈ d.entries, ∀ s ∈ x.1, IsName s))

/-- There is a file where a path leads. -/
def HasFile (d : Disk) (path : String) : Prop :=
  ∃ c, d.entry? (d.place path) = some (.file c)

theorem isName_of_mem_names (h : d.HasNames) (hs : s ∈ d.names p) : IsName s := by
  rw [names, List.mem_mergeSort, List.mem_filterMap] at hs
  obtain ⟨⟨q, e⟩, hx, hname⟩ := hs
  obtain ⟨-, hlast⟩ := Option.ite_none_right_eq_some.mp hname
  exact h _ hx s (List.mem_of_getLast? hlast)

theorem place_join_of_isName (h : IsName s) (d : Disk) (path : String) :
    d.place (join path s) = d.place path ++ [s] := by
  obtain ⟨hslash, hempty, hdot, hup⟩ := h
  have hrelative := isAbsolute_of_not_mem hslash
  have hsteps : steps s = [s] := by
    simp [steps, pieces_of_not_mem hslash, hempty, hdot]
  rw [place, start, isAbsolute_join_of_relative hrelative, steps_join_of_relative hrelative, hsteps,
    List.foldl_append, List.foldl_cons, List.foldl_nil, Place.walk, if_neg hup]
  rfl

theorem hasFile_of_mem_filesFrom (h : d.HasNames) {fuel : Nat} {file : String}
    (hpath : d.place path = p) (hfile : file ∈ d.filesFrom fuel path p) : d.HasFile file := by
  fun_induction filesFrom d fuel path p with
  | case1 => cases hfile
  | case2 fuel path p c hc =>
    obtain rfl := List.mem_singleton.mp hfile
    exact ⟨c, hpath ▸ hc⟩
  | case3 fuel path p hdir ih =>
    obtain ⟨s, hs, hfile⟩ := List.mem_flatMap.mp hfile
    apply ih s _ hfile
    rw [place_join_of_isName (isName_of_mem_names h hs), hpath]
  | case4 => cases hfile

end Disk

namespace Compile

variable {d : Disk}

/-- All sources, in the order in which they are compiled. -/
def Sources.all (sources : Sources) : List String :=
  sources.modules ++ sources.templates

theorem hasFile_of_collectSources (h : d.HasNames) {paths : List String} {sources : Sources}
    (hsources : collectSources d paths = .ok sources) : ∀ s ∈ sources.all, d.HasFile s := by
  obtain ⟨lists, hlists, hsources⟩ := bind_eq_ok.mp hsources
  obtain rfl := pure_eq_ok.mp hsources
  have hfiles : ∀ s ∈ lists.flatten, d.HasFile s := by
    intro s hs
    obtain ⟨files, hfiles, hs⟩ := List.mem_flatten.mp hs
    obtain ⟨path, -, hpath⟩ := exists_of_mem_mapM hlists hfiles
    rw [filesAt, Disk.files?] at hpath
    split at hpath
    · rename_i htarget
      split at htarget <;> cases htarget
      cases hpath
      exact Disk.hasFile_of_mem_filesFrom h (Disk.target_eq_ok ‹_›).1.symm hs
    · cases hpath
  intro s hs
  rcases List.mem_append.mp hs with hs | hs
  · exact hfiles s (List.mem_of_mem_filter hs)
  · exact hfiles s (List.mem_of_mem_filter hs)

end Compile

end Stencil

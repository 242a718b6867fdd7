import Stencil.Command.Disk
import Stencil.Proofs.Command.Paths
import Stencil.Proofs.Success

/-!
# Places

Where a path leads can be told from its steps alone. What is there, and whether the steps can be
taken, depends on the directories on the way.
-/

namespace Stencil

/-- One step; the root is above itself. -/
def Place.walk (p : Place) (step : String) : Place :=
  if step = ".." then p.dropLast else p ++ [step]

def Target.place : Target → Place
  | entry place _ | free place => place

def Target.found : Target → Option Entry
  | entry _ e => some e
  | free _ => none

namespace Disk

open FilePath

variable {d d' : Disk} {p q : Place} {path : String} {t : Target} {e : Entry}

/-- Where a path starts. -/
def start (d : Disk) (path : String) : Place :=
  if isAbsolute path then [] else d.workingDirectory

/-- Where a path leads, whether or not there is something. -/
def place (d : Disk) (path : String) : Place :=
  (steps path).foldl Place.walk (d.start path)

theorem place_eq (h : d'.workingDirectory = d.workingDirectory) (path : String) :
    d'.place path = d.place path := by
  rw [place, place, start, start, h]

/-- Those of the pieces of a path that are steps. -/
def proper (pieces : List String) : List String :=
  pieces.filter fun s => s ≠ "" && s ≠ "."

theorem proper_cons_of_skipped {s : String} (h : s = "" ∨ s = ".") (ss : List String) :
    proper (s :: ss) = proper ss :=
  List.filter_cons_of_neg (by simpa [or_iff_not_imp_left] using h)

theorem proper_cons {s : String} (h : ¬ (s = "" ∨ s = ".")) (ss : List String) :
    proper (s :: ss) = s :: proper ss :=
  List.filter_cons_of_pos (by simpa using h)

theorem proper_eq_nil {ss : List String} (h : ss.all (· = "") = true) : proper ss = [] := by
  rw [proper, List.filter_eq_nil_iff]
  intro s hs
  simp [of_decide_eq_true (List.all_eq_true.mp h s hs)]

theorem follow_eq_ok {ss : List String} (h : d.follow p ss = .ok t) :
    t.place = (proper ss).foldl Place.walk p ∧ d.entry? t.place = t.found := by
  fun_induction follow d p ss with
  | case1 p e he =>
    cases h
    exact ⟨rfl, he⟩
  | case3 p s ss hdir hskipped ih =>
    rw [proper_cons_of_skipped (by simpa using hskipped)]
    exact ih h
  | case4 p ss hdir hskipped ih =>
    rw [proper_cons (by decide)]
    exact ih h
  | case6 p s ss hdir hskipped hup hlong e he ih =>
    rw [proper_cons (by simpa using hskipped), List.foldl_cons, Place.walk, if_neg hup]
    exact ih h
  | case7 p s ss hdir hskipped hup hlong hfree hempty =>
    cases h
    rw [proper_cons (by simpa using hskipped), proper_eq_nil hempty, List.foldl_cons, Place.walk,
      if_neg hup]
    exact ⟨rfl, hfree⟩
  | _ => cases h

/-- A path that is followed on one disk is followed on all. -/
theorem target_eq_follow (h : d.target path = .ok t) (d' : Disk) :
    d'.target path = d'.follow (d'.start path) (pieces path) := by
  rw [target] at h ⊢
  split at h
  · cases h
  split at h
  · cases h
  split at h
  · cases h
  rw [if_neg ‹_›, if_neg ‹_›, if_neg ‹_›]
  rfl

theorem target_eq_ok (h : d.target path = .ok t) :
    t.place = d.place path ∧ d.entry? t.place = t.found := by
  rw [target_eq_follow h] at h
  exact follow_eq_ok h

/-- No directory is lost. -/
structure KeepsDirectories (d d' : Disk) : Prop where
  workingDirectory : d'.workingDirectory = d.workingDirectory
  directory : ∀ p, d.entry? p = some .directory → d'.entry? p = some .directory

theorem KeepsDirectories.trans {d'' : Disk} (h : KeepsDirectories d d')
    (h' : KeepsDirectories d' d'') : KeepsDirectories d d'' :=
  ⟨h'.workingDirectory.trans h.workingDirectory, fun p hp => h'.directory p (h.directory p hp)⟩

theorem directory_of_follow_cons {s : String} {ss : List String}
    (h : d.follow p (s :: ss) = .ok t) : d.entry? p = some .directory := by
  rw [follow] at h
  split at h
  · assumption
  · cases h
  · cases h

/-- A path to a file, or to a place where a file is made, stays one. -/
theorem KeepsDirectories.follow_file (hkeeps : KeepsDirectories d d') {ss : List String}
    (h : d.follow p ss = .ok t) (hlast : ss.getLast? ≠ some "") (ht : t.found ≠ some .directory)
    {c : ByteArray} (hfile : d'.entry? t.place = some (.file c)) :
    d'.follow p ss = .ok (.entry t.place (.file c)) := by
  have hlast_tail {s : String} {ss : List String} (h : (s :: ss).getLast? ≠ some "") :
      ss.getLast? ≠ some "" := by
    cases ss with
    | nil => simp
    | cons s' ss => rwa [List.getLast?_cons_cons] at h
  fun_induction follow d p ss with
  | case1 p e he =>
    cases h
    rw [Target.place] at hfile
    rw [follow, hfile]
    rfl
  | case3 p s ss hdir hskipped ih =>
    rw [follow, hkeeps.directory p hdir]
    exact (if_pos hskipped).trans (ih h (hlast_tail hlast))
  | case4 p ss hdir hskipped ih =>
    rw [follow, hkeeps.directory p hdir]
    exact (if_neg hskipped).trans ((if_pos rfl).trans (ih h (hlast_tail hlast)))
  | case6 p s ss hdir hskipped hup hlong e he ih =>
    -- a directory on the way is kept, and the last step leads to the file itself
    have hsome : ∃ e', d'.entry? (p ++ [s]) = some e' := by
      cases ss with
      | nil =>
        rw [follow, he] at h
        cases h
        exact ⟨_, hfile⟩
      | cons s' ss => exact ⟨_, hkeeps.directory _ (directory_of_follow_cons h)⟩
    obtain ⟨e', he'⟩ := hsome
    simp only [follow, hkeeps.directory p hdir, hskipped, hup, hlong, he', if_false]
    exact ih h (hlast_tail hlast)
  | case7 p s ss hdir hskipped hup hlong hfree hempty =>
    cases h
    -- nothing but empty pieces could follow, and the last one is not empty
    obtain rfl : ss = [] := by
      by_contra hne
      obtain ⟨s', hs'⟩ := Option.isSome_iff_exists.mp (List.getLast?_isSome.mpr hne)
      have hmem := List.all_eq_true.mp hempty s' (List.mem_of_getLast? hs')
      exact hlast_tail hlast (hs'.trans (congrArg some (of_decide_eq_true hmem)))
    rw [Target.place] at hfile
    simp only [follow, hkeeps.directory p hdir, hskipped, hup, hlong, hfile, if_false]
    rfl
  | _ => cases h

theorem KeepsDirectories.target_file (hkeeps : KeepsDirectories d d') (h : d.target path = .ok t)
    (hlast : (pieces path).getLast? ≠ some "") (ht : t.found ≠ some .directory) {c : ByteArray}
    (hfile : d'.entry? t.place = some (.file c)) :
    d'.target path = .ok (.entry t.place (.file c)) := by
  rw [target_eq_follow h, start, hkeeps.workingDirectory]
  rw [target_eq_follow h] at h
  exact hkeeps.follow_file h hlast ht hfile

/-- A path to a file does not end in a `/`. -/
theorem getLast?_ne_of_follow {ss : List String} {c : ByteArray}
    (h : d.follow p ss = .ok (.entry q (.file c))) : ss.getLast? ≠ some "" := by
  fun_induction follow d p ss with
  | case1 => simp
  | case3 p s ss hdir hskipped ih =>
    cases ss with
    | nil =>
      rw [follow, hdir] at h
      cases h
    | cons => exact List.getLast?_cons_cons.symm ▸ ih h
  | case4 p ss hdir hskipped ih =>
    cases ss with
    | nil => simp
    | cons => exact List.getLast?_cons_cons.symm ▸ ih h
  | case6 p s ss hdir hskipped hup hlong e he ih =>
    cases ss with
    | nil =>
      rintro hs
      cases hs
      exact hskipped rfl
    | cons => exact List.getLast?_cons_cons.symm ▸ ih h
  | _ => cases h

/-- A path to a file leads nowhere once the file is gone. -/
theorem KeepsDirectories.follow_gone (hkeeps : KeepsDirectories d d') {ss : List String}
    {c : ByteArray} (h : d.follow p ss = .ok (.entry q (.file c))) (hgone : d'.entry? q = none) :
    (∃ r, d'.follow p ss = .ok (.free r)) ∨ d'.follow p ss = .error .notFound := by
  fun_induction follow d p ss with
  | case1 p e he =>
    cases h
    rw [follow, hgone]
    exact .inr rfl
  | case3 p s ss hdir hskipped ih =>
    simp only [follow, hkeeps.directory p hdir, hskipped, if_true]
    exact ih h
  | case4 p ss hdir hskipped ih =>
    simp only [follow, hkeeps.directory p hdir, hskipped, if_true]
    exact ih h
  | case6 p s ss hdir hskipped hup hlong e he ih =>
    cases hstep : d'.entry? (p ++ [s]) with
    | none =>
      simp only [follow, hkeeps.directory p hdir, hskipped, hup, hlong, hstep, if_false]
      by_cases hempty : ss.all (· = "") = true
      · exact .inl ⟨_, if_pos hempty⟩
      · exact .inr (if_neg hempty)
    | some e' =>
      simp only [follow, hkeeps.directory p hdir, hskipped, hup, hlong, hstep, if_false]
      exact ih h
  | _ => cases h

/-- A path to a file is one as long as the file, or another in its place, is there. -/
theorem KeepsDirectories.target_of_file (hkeeps : KeepsDirectories d d') {c c' : ByteArray}
    (h : d.target path = .ok (.entry p (.file c))) (hfile : d'.entry? p = some (.file c')) :
    d'.target path = .ok (.entry p (.file c')) := by
  have hfollow := h
  rw [target_eq_follow h] at hfollow
  exact hkeeps.target_file h (getLast?_ne_of_follow hfollow) (by simp [Target.found]) hfile

theorem KeepsDirectories.remove_gone (hkeeps : KeepsDirectories d d') {c : ByteArray}
    (h : d.target path = .ok (.entry p (.file c))) (hgone : d'.entry? p = none) :
    d'.remove path = .error .notFound := by
  have hfollow := h
  rw [target_eq_follow h] at hfollow
  have hstart : d'.start path = d.start path := by
    rw [start, start, hkeeps.workingDirectory]
  rw [remove, target_eq_follow h, hstart]
  rcases hkeeps.follow_gone hfollow hgone with ⟨r, hfree⟩ | herror
  · rw [hfree]
  · rw [herror]

theorem lookup_filter (entries : List (Place × Entry)) (p q : Place) :
    (entries.filter (·.1 ≠ p)).lookup q = if q = p then none else entries.lookup q := by
  induction entries with
  | nil => simp
  | cons x entries ih =>
    obtain ⟨r, e⟩ := x
    by_cases hr : r = p
    · subst hr
      rw [List.filter_cons_of_neg (by simp), ih]
      split
      · rfl
      · rw [List.lookup_cons, beq_false_of_ne ‹_›]
    · rw [List.filter_cons_of_pos (by simpa using hr), List.lookup_cons, List.lookup_cons, ih]
      by_cases hq : q = r
      · subst hq
        simp [hr]
      · simp [beq_false_of_ne hq]

theorem entry?_eq (d : Disk) (p : Place) :
    d.entry? p = if p = [] then some .directory else d.entries.lookup p := by
  unfold entry?
  simp only [List.isEmpty_iff]

theorem ne_nil_of_entry?_ne_directory (h : d.entry? p ≠ some .directory) : p ≠ [] := by
  rintro rfl
  exact h rfl

theorem entry?_put (h : d.entry? p ≠ some .directory) (e : Entry) (q : Place) :
    Disk.entry? (d.put p e) q = if q = p then some e else d.entry? q := by
  have hp := ne_nil_of_entry?_ne_directory h
  by_cases hq : q = []
  · subst hq
    rw [if_neg hp.symm]
    rfl
  · simp only [entry?_eq, if_neg hq, put, List.lookup_append, lookup_filter]
    split
    · simp_all
    · simp_all [List.lookup_cons, beq_false_of_ne]

/-- One place has something else than before. -/
structure Changes (d : Disk) (p : Place) (content : Option Entry) (d' : Disk) : Prop where
  workingDirectory : d'.workingDirectory = d.workingDirectory
  not_directory : d.entry? p ≠ some .directory
  lookup : ∀ q, d'.entry? q = if q = p then content else d.entry? q

theorem Changes.keepsDirectories {content : Option Entry} (h : Changes d p content d') :
    KeepsDirectories d d' := by
  refine ⟨h.workingDirectory, fun q hq => ?_⟩
  have hne : q ≠ p := by
    rintro rfl
    exact h.not_directory hq
  rw [h.lookup, if_neg hne, hq]

theorem changes_put (h : d.entry? p ≠ some .directory) (e : Entry) :
    Changes d p (some e) (d.put p e) :=
  ⟨rfl, h, entry?_put h e⟩

theorem target_of_write {c : ByteArray} (h : d.write path c = .ok d') :
    ∃ t, d.target path = .ok t ∧ t.found ≠ some .directory ∧ d' = d.put t.place (.file c) := by
  rw [write] at h
  split at h <;> cases h
  · exact ⟨_, ‹_›, by simp [Target.found], rfl⟩
  · exact ⟨_, ‹_›, by simp [Target.found], rfl⟩

theorem changes_of_write {c : ByteArray} (h : d.write path c = .ok d') :
    Changes d (d.place path) (some (.file c)) d' := by
  obtain ⟨t, ht, hfile, rfl⟩ := target_of_write h
  obtain ⟨hplace, hentry⟩ := target_eq_ok ht
  rw [← hplace]
  exact changes_put (hentry ▸ hfile) _

/-- What is written stands at its path. -/
theorem target_written {c : ByteArray} (h : d.write path c = .ok d')
    (hlast : (pieces path).getLast? ≠ some "") :
    d'.target path = .ok (.entry (d.place path) (.file c)) := by
  have hchanges := changes_of_write h
  obtain ⟨t, ht, hfile, -⟩ := target_of_write h
  rw [← (target_eq_ok ht).1] at hchanges ⊢
  exact hchanges.keepsDirectories.target_file ht hlast hfile (by simp [hchanges.lookup])

theorem changes_of_remove (h : d.remove path = .ok d') : Changes d (d.place path) none d' := by
  rw [remove] at h
  split at h <;> cases h
  rename_i p c htarget
  obtain ⟨hplace, hentry⟩ := target_eq_ok htarget
  have hne : d.entry? p ≠ some .directory := by
    rw [show d.entry? p = some (.file c) from hentry]
    nofun
  have hp := ne_nil_of_entry?_ne_directory hne
  rw [← hplace]
  refine ⟨rfl, hne, fun q => ?_⟩
  simp only [entry?_eq, lookup_filter, Target.place]
  by_cases hq : q = []
  · subst hq
    simp [hp.symm]
  · simp [hq]

/-- Nothing is lost. -/
structure Extends (d d' : Disk) : Prop where
  workingDirectory : d'.workingDirectory = d.workingDirectory
  keeps : ∀ p e, d.entry? p = some e → d'.entry? p = some e

theorem Extends.keepsDirectories (h : Extends d d') : KeepsDirectories d d' :=
  ⟨h.workingDirectory, fun p => h.keeps p .directory⟩

theorem Extends.refl (d : Disk) : Extends d d :=
  ⟨rfl, fun _ _ => id⟩

theorem Extends.trans {d'' : Disk} (h : Extends d d') (h' : Extends d' d'') : Extends d d'' :=
  ⟨h'.workingDirectory.trans h.workingDirectory, fun p e he => h'.keeps p e (h.keeps p e he)⟩

theorem extends_of_ensure (h : d.ensure path = .ok d') : Extends d d' := by
  rw [ensure] at h
  split at h
  · split at h
    · cases h
      exact .refl d
    · cases h
  · rename_i hmade
    cases h
    rw [makeDirectory] at hmade
    split at hmade <;> cases hmade
    rename_i p htarget
    have hfree : d.entry? p = none := (target_eq_ok htarget).2
    refine ⟨rfl, fun q e hq => ?_⟩
    have hne : q ≠ p := by
      rintro rfl
      rw [hfree] at hq
      cases hq
    rw [entry?_put (by simp [hfree]), if_neg hne, hq]

theorem extends_of_ensureSteps {ss : List String} (h : d.ensureSteps path ss = .ok d') :
    Extends d d' := by
  induction ss generalizing d' with
  | nil =>
    cases h
    exact .refl d
  | cons s earlier ih =>
    rw [ensureSteps] at h
    split at h
    · obtain ⟨d₁, hd₁, hd'⟩ := bind_eq_ok.mp h
      exact (ih hd₁).trans (extends_of_ensure hd')
    · exact extends_of_ensure h

theorem extends_of_makeParents (h : d.makeParents path = .ok d') : Extends d d' :=
  extends_of_ensureSteps h

theorem fromUTF8?_eq_some_iff {c : ByteArray} {s : String} :
    String.fromUTF8? c = some s ↔ c = s.toUTF8 := by
  rw [String.fromUTF8?]
  constructor
  · intro h
    split at h <;> cases h
    rfl
  · rintro rfl
    exact dif_pos s.isValidUTF8

theorem readText_of_target {s : String} (h : d.target path = .ok (.entry p (.file s.toUTF8))) :
    d.readText path = .ok s := by
  have hread : d.read path = .ok s.toUTF8 := by rw [read, h]
  refine bind_eq_ok.mpr ⟨_, hread, ?_⟩
  rw [fromUTF8?_eq_some_iff.mpr rfl]
  rfl

theorem entry?_of_readText {s : String} (h : d.readText path = .ok s) :
    d.entry? (d.place path) = some (.file s.toUTF8) := by
  obtain ⟨c, hread, htext⟩ := bind_eq_ok.mp h
  split at htext <;> cases htext
  obtain rfl := fromUTF8?_eq_some_iff.mp ‹_›
  rw [read] at hread
  split at hread <;> cases hread
  obtain ⟨hplace, hentry⟩ := target_eq_ok ‹_›
  exact hplace ▸ hentry

/-- Paths to the same place show the same text. -/
theorem text_unique {path' s s' : String} (h : d.readText path = .ok s)
    (h' : d.readText path' = .ok s') (hplace : d.place path = d.place path') : s = s' := by
  have hentry := entry?_of_readText h
  rw [hplace, entry?_of_readText h'] at hentry
  have hcontent := Entry.file.inj (Option.some.inj hentry)
  exact (String.toByteArray_inj.mp hcontent).symm

end Disk

end Stencil

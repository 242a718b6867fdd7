import Mathlib.Data.List.Nodup
import Stencil.Proofs.Command.Collection

/-!
# What a run does to its sources

Every source of a run is settled once for each time it was collected: it compiles, or it fails. No
source is touched before all are settled. Then those that compiled are deleted one after another,
which works out exactly if no two of them are at one place.
-/

namespace Stencil

namespace Disk

variable {d d' : Disk} {gone : List Place} {s : String}

/-- A path that is followed to a file. -/
def Reaches (d : Disk) (path : String) : Prop :=
  ∃ c, d.target path = .ok (.entry (d.place path) (.file c))

theorem reaches_of_readText {text : String} (h : d.readText s = .ok text) : d.Reaches s := by
  obtain ⟨c, hread, -⟩ := bind_eq_ok.mp h
  rw [read] at hread
  split at hread <;> cases hread
  rename_i htarget
  obtain rfl := (target_eq_ok htarget).1
  exact ⟨c, htarget⟩

/-- There is nothing left at some places, and all else is as before. -/
structure Deletes (d : Disk) (gone : List Place) (d' : Disk) : Prop where
  keepsDirectories : KeepsDirectories d d'
  lookup : ∀ p, d'.entry? p = if p ∈ gone then none else d.entry? p

theorem Deletes.refl (d : Disk) : Deletes d [] d :=
  ⟨(Extends.refl d).keepsDirectories, fun _ => rfl⟩

namespace Deletes

theorem remove (h : Deletes d gone d') (hs : d.Reaches s) (hplace : d.place s ∉ gone) :
    ∃ d'', d'.remove s = .ok d'' ∧ Deletes d (gone ++ [d.place s]) d'' := by
  obtain ⟨c, htarget⟩ := hs
  have hfile : d'.entry? (d.place s) = some (.file c) := by
    rw [h.lookup, if_neg hplace]
    exact (target_eq_ok htarget).2
  have hremove : ∃ d'', d'.remove s = .ok d'' := by
    rw [Disk.remove, h.keepsDirectories.target_of_file htarget hfile]
    exact ⟨_, rfl⟩
  obtain ⟨d'', hd''⟩ := hremove
  have hchanges := changes_of_remove hd''
  rw [place_eq h.keepsDirectories.workingDirectory] at hchanges
  refine ⟨d'', hd'', h.keepsDirectories.trans hchanges.keepsDirectories, fun p => ?_⟩
  rw [hchanges.lookup, h.lookup]
  by_cases hp : p = d.place s <;> simp [hp]

theorem remove_gone (h : Deletes d gone d') (hs : d.Reaches s) (hplace : d.place s ∈ gone) :
    d'.remove s = .error .notFound := by
  obtain ⟨c, htarget⟩ := hs
  exact h.keepsDirectories.remove_gone htarget (by rw [h.lookup, if_pos hplace])

/-- Files are deleted one after another as long as each is at a place of its own. -/
theorem removeAll (h : Deletes d gone d') (hgone : gone.Nodup) {sources : List String}
    (hsources : ∀ s ∈ sources, d.Reaches s) :
    ((gone ++ sources.map d.place).Nodup →
      ∃ d'', sources.foldlM Disk.remove d' = .ok d'' ∧ Deletes d (gone ++ sources.map d.place) d'') ∧
    (¬ (gone ++ sources.map d.place).Nodup →
      sources.foldlM Disk.remove d' = .error .notFound) := by
  induction sources generalizing gone d' with
  | nil =>
    rw [List.map_nil, List.append_nil]
    exact ⟨fun _ => ⟨d', rfl, h⟩, fun hrepeated => absurd hgone hrepeated⟩
  | cons s sources ih =>
    obtain ⟨hs, hsources⟩ := List.forall_mem_cons.mp hsources
    rw [List.map_cons, List.foldlM_cons]
    by_cases hplace : d.place s ∈ gone
    · rw [h.remove_gone hs hplace]
      refine ⟨fun hnodup => ?_, fun _ => rfl⟩
      have hnew := (List.nodup_cons.mp (List.nodup_middle.mp hnodup)).1
      exact absurd (List.mem_append_left _ hplace) hnew
    · obtain ⟨d'', hd'', hdeletes⟩ := h.remove hs hplace
      have hgone' := hgone.concat hplace
      rw [List.concat_eq_append] at hgone'
      rw [hd'', List.append_cons]
      exact ih hdeletes hgone' hsources

theorem hasFile_iff (h : Deletes d gone d') (hs : d.HasFile s) :
    d'.HasFile s ↔ d.place s ∉ gone := by
  obtain ⟨c, hc⟩ := hs
  rw [HasFile, place_eq h.keepsDirectories.workingDirectory, h.lookup]
  split
  · simp_all
  · simp_all

end Deletes

end Disk

section

variable {α β : Type} {f : α → β} {as bs cs : List α}

/-- An element is in the second part exactly if its value is not in the first, as long as the two
have no value in common. -/
theorem not_mem_map_iff_mem (h : (as ++ bs).Perm cs) :
    (∀ c ∈ cs, (f c ∉ as.map f ↔ c ∈ bs)) ↔ ∀ a ∈ as, f a ∉ bs.map f := by
  constructor
  · intro hparts a ha hother
    obtain ⟨b, hb, hsame⟩ := List.mem_map.mp hother
    have hnew := (hparts b (h.subset (List.mem_append_right _ hb))).mpr hb
    exact hnew (hsame ▸ List.mem_map_of_mem ha)
  · intro hother c hc
    constructor
    · intro hnew
      apply (List.mem_append.mp (h.symm.subset hc)).resolve_left
      exact fun ha => hnew (List.mem_map_of_mem ha)
    · intro hb hsame
      obtain ⟨a, ha, heq⟩ := List.mem_map.mp hsame
      exact hother a ha (heq ▸ List.mem_map_of_mem hb)

/-- The values of the first part are each there once. -/
theorem count_map_eq_one_iff [BEq β] [LawfulBEq β] (h : (as ++ bs).Perm cs) :
    (∀ a ∈ as, (cs.map f).count (f a) = 1) ↔
      (as.map f).Nodup ∧ ∀ a ∈ as, f a ∉ bs.map f := by
  have hcount (b : β) : (cs.map f).count b = (as.map f).count b + (bs.map f).count b := by
    rw [← List.count_append, ← List.map_append, (h.map f).count_eq]
  constructor
  · intro hone
    have hsum (a : α) (ha : a ∈ as) : (as.map f).count (f a) = 1 ∧ (bs.map f).count (f a) = 0 := by
      have hpos : 0 < (as.map f).count (f a) := List.count_pos_iff.mpr (List.mem_map_of_mem ha)
      have := (hcount (f a)).symm.trans (hone a ha)
      omega
    refine ⟨List.nodup_iff_count_eq_one.mpr (List.forall_mem_map.mpr fun a ha => (hsum a ha).1), ?_⟩
    exact fun a ha => List.count_eq_zero.mp (hsum a ha).2
  · rintro ⟨hnodup, hother⟩ a ha
    rw [hcount, List.count_eq_one_of_mem hnodup (List.mem_map_of_mem ha),
      List.count_eq_zero_of_not_mem (hother a ha)]

end

namespace Compile

variable {options : Options} {scope : Scope} {d d' : Disk} {run next : Run} {out source : String}
  {done : List String}

/-- No directory is lost, and no source is changed. -/
structure KeepsSources (d d' : Disk) : Prop where
  keepsDirectories : Disk.KeepsDirectories d d'
  entry : ∀ s e, IsSource s → d.entry? (d.place s) = some e → d'.entry? (d.place s) = some e

theorem keepsSources_of_extends (h : Disk.Extends d d') : KeepsSources d d' :=
  ⟨h.keepsDirectories, fun s e _ => h.keeps (d.place s) e⟩

theorem KeepsSources.refl (d : Disk) : KeepsSources d d :=
  keepsSources_of_extends (.refl d)

theorem KeepsSources.place (h : KeepsSources d d') (s : String) : d'.place s = d.place s :=
  Disk.place_eq h.keepsDirectories.workingDirectory s

theorem KeepsSources.trans {d'' : Disk} (h : KeepsSources d d') (h' : KeepsSources d' d'') :
    KeepsSources d d'' := by
  refine ⟨h.keepsDirectories.trans h'.keepsDirectories, fun s e hs he => ?_⟩
  have hentry := h'.entry s e hs
  rw [h.place] at hentry
  exact hentry (h.entry s e hs he)

theorem KeepsSources.reaches (h : KeepsSources d d') (hsource : IsSource source)
    (hreaches : d.Reaches source) : d'.Reaches source := by
  obtain ⟨c, htarget⟩ := hreaches
  have hfile := h.entry source _ hsource (Disk.target_eq_ok htarget).2
  exact ⟨c, h.place source ▸ h.keepsDirectories.target_of_file htarget hfile⟩

theorem KeepsSources.hasFile (h : KeepsSources d d') (hsource : IsSource source)
    (hfile : d.HasFile source) : d'.HasFile source := by
  obtain ⟨c, hc⟩ := hfile
  exact ⟨c, h.place source ▸ h.entry source _ hsource hc⟩

/-- An output never takes the place of a source. -/
theorem keepsSources_of_write {o : Output} {c : ByteArray}
    (h : d.write (o.path out) c = .ok d') : KeepsSources d d' := by
  have hchanges := Disk.changes_of_write h
  refine ⟨hchanges.keepsDirectories, fun s e hs he => ?_⟩
  rw [hchanges.lookup, if_neg (place_ne_of_isSource hs d out o), he]

theorem keepsSources_of_writeOutputs (out source : String) (run : Run)
    (pairs : List (String × String)) :
    KeepsSources run.disk (writeOutputs out source run pairs).1.disk := by
  fun_induction writeOutputs out source run pairs with
  | case1 => exact .refl _
  | case2 run name text pairs path disk d' hdisk ih =>
    obtain ⟨d₁, hparents, hwrite⟩ := bind_eq_ok.mp hdisk
    have hparents := keepsSources_of_extends (Disk.extends_of_makeParents hparents)
    have hwrite := keepsSources_of_write (o := ⟨source, name, text⟩) hwrite
    exact (hparents.trans hwrite).trans ih
  | case3 => exact .refl _

theorem compiled_of_writeOutputs (out source : String) (run : Run)
    (pairs : List (String × String)) :
    (writeOutputs out source run pairs).1.compiled = run.compiled := by
  fun_induction writeOutputs out source run pairs with
  | case1 => rfl
  | case2 run name text pairs path disk d' hdisk ih => exact ih
  | case3 => rfl

/-- A source compiles or fails, and no source is changed. -/
structure Settles (run : Run) (source : String) (next : Run) : Prop where
  keepsSources : KeepsSources run.disk next.disk
  outcome :
    (run.disk.Reaches source ∧ next.compiled = run.compiled ++ [source] ∧
      next.failures = run.failures) ∨
    ∃ e, next.compiled = run.compiled ∧ next.failures = run.failures ++ [(source, e)]

theorem settles_loadModule (scope : Scope) (run : Run) (source : String) :
    Settles run source (loadModule scope run source) := by
  simp only [loadModule]
  split
  · rename_i hloaded
    obtain ⟨text, htext, -⟩ := bind_eq_ok.mp hloaded
    have hreaches := Disk.reaches_of_readText (mapError_eq_ok.mp htext)
    exact ⟨.refl _, .inl ⟨hreaches, rfl, rfl⟩⟩
  · exact ⟨.refl _, .inr ⟨_, rfl, rfl⟩⟩

theorem settles_compileTemplate (options : Options) (scope : Scope) (run : Run) (source : String) :
    Settles run source (compileTemplate options scope run source) := by
  rw [compileTemplate]
  cases hrender : renderTemplate options.pretty scope run source with
  | error e => exact ⟨.refl _, .inr ⟨e, rfl, rfl⟩⟩
  | ok pairs =>
    obtain ⟨text, htext, -⟩ := bind_eq_ok.mp hrender
    have hreaches := Disk.reaches_of_readText (mapError_eq_ok.mp htext)
    cases options.out with
    | none => exact ⟨.refl _, .inl ⟨hreaches, rfl, rfl⟩⟩
    | some out =>
      have hkeeps := keepsSources_of_writeOutputs out source run pairs
      have hfailures := failures_of_writeOutputs (Prod.eta (writeOutputs out source run pairs)).symm
      have hcompiled := compiled_of_writeOutputs out source run pairs
      dsimp only
      split
      · exact ⟨hkeeps, .inr ⟨_, hcompiled, by rw [hfailures]⟩⟩
      · exact ⟨hkeeps, .inl ⟨hreaches, by rw [hcompiled], hfailures⟩⟩

/-- A run that has settled these sources. -/
structure Accounts (d : Disk) (done : List String) (run : Run) : Prop where
  keepsSources : KeepsSources d run.disk
  reaches : ∀ s ∈ run.compiled, IsSource s ∧ run.disk.Reaches s
  perm : (run.compiled ++ run.failures.map Prod.fst).Perm done

theorem Accounts.settle (h : Accounts d done run) (hsource : IsSource source)
    (hnext : Settles run source next) : Accounts d (done ++ [source]) next := by
  have hkeeps := h.keepsSources.trans hnext.keepsSources
  have hkept : ∀ s ∈ run.compiled, IsSource s ∧ next.disk.Reaches s := fun s hs =>
    ⟨(h.reaches s hs).1, hnext.keepsSources.reaches (h.reaches s hs).1 (h.reaches s hs).2⟩
  rcases hnext.outcome with ⟨hreaches, hcompiled, hfailures⟩ | ⟨e, hcompiled, hfailures⟩
  · have hnew := hnext.keepsSources.reaches hsource hreaches
    refine ⟨hkeeps, ?_, ?_⟩
    · rw [hcompiled]
      exact List.forall_mem_append.mpr ⟨hkept, List.forall_mem_singleton.mpr ⟨hsource, hnew⟩⟩
    · rw [hcompiled, hfailures, List.append_assoc, List.singleton_append]
      have hcons := List.perm_middle.trans (h.perm.cons source)
      exact hcons.trans (List.perm_append_singleton source done).symm
  · refine ⟨hkeeps, ?_, ?_⟩
    · rw [hcompiled]
      exact hkept
    · rw [hcompiled, hfailures, List.map_append, ← List.append_assoc]
      exact h.perm.append_right _

theorem Accounts.foldl {step : Run → String → Run} (hstep : ∀ run s, Settles run s (step run s))
    (h : Accounts d done run) {sources : List String} (hsources : ∀ s ∈ sources, IsSource s) :
    Accounts d (done ++ sources) (sources.foldl step run) := by
  induction sources generalizing done run with
  | nil => rwa [List.append_nil]
  | cons s sources ih =>
    obtain ⟨hs, hsources⟩ := List.forall_mem_cons.mp hsources
    rw [List.append_cons]
    exact ih (h.settle hs (hstep run s)) hsources

theorem accounts_of_compileAll {sources : Sources} (hscope : loadScope d options.scope = .ok scope)
    (hsources : collectSources d options.paths = .ok sources) :
    ∃ run, compileAll d options = .ok run ∧ Accounts d sources.all run := by
  obtain ⟨hmodules, htemplates⟩ := isSource_of_collectSources hsources
  have hstart : Accounts d [] ⟨d, .empty .standard, "", [], [], []⟩ := ⟨.refl d, nofun, .nil⟩
  have hloaded := hstart.foldl (settles_loadModule scope) hmodules
  have hcompiled := hloaded.foldl (settles_compileTemplate options scope) htemplates
  exact ⟨_, bind_eq_ok.mpr ⟨scope, hscope, bind_eq_ok.mpr ⟨sources, hsources, rfl⟩⟩, hcompiled⟩

theorem Accounts.places (h : Accounts d done run) :
    run.compiled.map run.disk.place = run.compiled.map d.place :=
  List.map_congr_left fun s _ => h.keepsSources.place s

theorem Accounts.removeCompiled (h : Accounts d done run)
    (hnodup : (run.compiled.map d.place).Nodup) :
    ∃ d', Compile.removeCompiled run = .ok { run with disk := d' } ∧
      run.disk.Deletes (run.compiled.map d.place) d' := by
  have hremove := (Disk.Deletes.refl run.disk).removeAll .nil fun s hs => (h.reaches s hs).2
  rw [List.nil_append, h.places] at hremove
  obtain ⟨d', hd', hdeletes⟩ := hremove.1 hnodup
  rw [Compile.removeCompiled, hd']
  exact ⟨d', rfl, hdeletes⟩

theorem Accounts.removeCompiled_repeated (h : Accounts d done run)
    (hrepeated : ¬ (run.compiled.map d.place).Nodup) :
    Compile.removeCompiled run = .error (.disk .notFound) := by
  have hremove := (Disk.Deletes.refl run.disk).removeAll .nil fun s hs => (h.reaches s hs).2
  rw [List.nil_append, h.places] at hremove
  rw [Compile.removeCompiled, hremove.2 hrepeated]
  rfl

/-- A template that compiles, and one that is no document. -/
def repeatedDisk : Disk where
  entries := [(["w"], .directory),
    (["w", "a.templ"], .file "\x7b\"$template\":\x7b\"a\":1\x7d\x7d".toUTF8),
    (["w", "b.templ"], .file "[".toUTF8)]
  workingDirectory := ["w"]

def repeatedOptions (paths : List String) : Options where
  paths := paths
  scope := []
  out := some "out"
  removeSources := true
  pretty := false

deriving instance DecidableEq for Sources

theorem collectSources_repeatedDisk :
    collectSources repeatedDisk ["a.templ", "b.templ"] = .ok ⟨[], ["a.templ", "b.templ"]⟩ ∧
      collectSources repeatedDisk ["a.templ", "b.templ", "./a.templ"] =
        .ok ⟨[], ["a.templ", "b.templ", "./a.templ"]⟩ := by
  rw [← toOption_eq_some_iff, ← toOption_eq_some_iff]
  decide +kernel

theorem compileAll_repeatedDisk :
    (compileAll repeatedDisk (repeatedOptions ["a.templ", "b.templ"])).toOption.map (·.compiled) =
        some ["a.templ"] ∧
      (compileAll repeatedDisk (repeatedOptions ["a.templ", "b.templ", "./a.templ"])).toOption.map
        (·.compiled) = some ["a.templ", "./a.templ"] := by
  decide +kernel

end Compile

end Stencil

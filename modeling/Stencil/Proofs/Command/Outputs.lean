import Stencil.Command.Compile
import Stencil.Proofs.Command.Places

/-!
# Outputs of a run

What a run makes of its templates, in the order in which it does. An output always ends up in a file
whose name has the same extension, so it never takes the place of a source.
-/

namespace Stencil.Compile

open FilePath

theorem toOption_eq_some_iff {ε α : Type} {x : Except ε α} {a : α} :
    x.toOption = some a ↔ x = .ok a := by
  cases x <;> simp [Except.toOption]

structure Output where
  source : String
  name : String
  text : String
deriving DecidableEq

/-- The name of the file of an output, which may be a path. -/
def Output.file (o : Output) : String :=
  o.name ++ ".json"

def Output.path (out : String) (o : Output) : String :=
  outputPath out o.source o.name

variable {options : Options} {scope : Scope} {d : Disk} {run run' : Run} {out source : String}

theorem path_eq_join (out : String) (o : Output) :
    o.path out = join (join out (innerDirectory o.source)) o.file :=
  rfl

theorem json_ne (s : String) {t : String} (ht : t.length < 5) : s ++ ".json" ≠ t := by
  rintro rfl
  have hlength : (s ++ ".json").length = s.length + 5 := String.length_append ..
  omega

theorem pieces_file (o : Output) : ∃ s, (pieces o.file).getLast? = some (s ++ ".json") := by
  obtain ⟨others, last, -, h⟩ := pieces_append (b := ".json") (by decide) o.name
  exact ⟨last, by rw [Output.file, h, List.getLast?_concat]⟩

theorem pieces_path (out : String) (o : Output) :
    (pieces (o.path out)).getLast? = (pieces o.file).getLast? :=
  getLast?_pieces_join _ _

theorem getLast?_path_ne_empty (out : String) (o : Output) :
    (pieces (o.path out)).getLast? ≠ some "" := by
  obtain ⟨s, hs⟩ := pieces_file o
  rw [pieces_path, hs]
  exact fun h => json_ne s (by decide) (Option.some.inj h)

theorem steps_file (out : String) (o : Output) :
    ∃ s, (steps o.file).getLast? = some (s ++ ".json") ∧
      (steps (o.path out)).getLast? = some (s ++ ".json") := by
  obtain ⟨s, hs⟩ := pieces_file o
  have hempty : s ++ ".json" ≠ "" := json_ne s (by decide)
  have hdot : s ++ ".json" ≠ "." := json_ne s (by decide)
  exact ⟨s, getLast?_steps hs hempty hdot,
    getLast?_steps ((pieces_path out o).trans hs) hempty hdot⟩

theorem splitPoint?_json {cs before after : List Char}
    (h : splitPoint? (cs ++ ".json".toList) = some (before, after)) : after = "json".toList := by
  have hreverse : (cs ++ ".json".toList).reverse =
      'n' :: 'o' :: 's' :: 'j' :: '.' :: cs.reverse := by
    simp
  rw [splitPoint?, hreverse] at h
  simp only [List.dropWhile, List.takeWhile] at h
  split at h <;> cases h
  rfl

/-- A module or a template. -/
def IsSource (path : String) : Prop :=
  extension? path = some moduleExtension ∨ extension? path = some templateExtension

theorem place_getLast? {path s : String} (h : (steps path).getLast? = some s) (hs : s ≠ "..")
    (d : Disk) : (d.place path).getLast? = some s := by
  obtain ⟨others, hothers⟩ := List.getLast?_eq_some_iff.mp h
  rw [Disk.place, hothers, List.foldl_append, List.foldl_cons, List.foldl_nil, Place.walk,
    if_neg hs, List.getLast?_concat]

theorem extension?_eq_some {path ext : String} (h : extension? path = some ext) :
    ∃ s before after, (steps path).getLast? = some s ∧
      splitPoint? s.toList = some (before, after) ∧ String.ofList after = ext := by
  rw [extension?, Option.map_eq_some_iff] at h
  obtain ⟨⟨before, after⟩, hsplit, hext⟩ := h
  cases hlast : (steps path).getLast? with
  | none =>
    rw [fileName, hlast] at hsplit
    cases hsplit
  | some s =>
    rw [fileName, hlast] at hsplit
    exact ⟨s, before, after, rfl, hsplit, hext⟩

theorem place_ne_of_isSource (h : IsSource source) (d : Disk) (out : String) (o : Output) :
    d.place source ≠ d.place (o.path out) := by
  obtain ⟨ext, hext, hjson, hempty⟩ :
      ∃ ext, extension? source = some ext ∧ ext ≠ "json" ∧ ext ≠ "" := by
    rcases h with h | h
    · exact ⟨_, h, by decide, by decide⟩
    · exact ⟨_, h, by decide, by decide⟩
  obtain ⟨s, before, after, hs, hsplit, rfl⟩ := extension?_eq_some hext
  obtain ⟨t, -, ht⟩ := steps_file out o
  have hup : s ≠ ".." := by
    rintro rfl
    cases hsplit
    exact hempty rfl
  intro heq
  -- paths to one place end in one name, and the extension is read off it
  have hlast := place_getLast? hs hup d
  rw [heq, place_getLast? ht (json_ne t (by decide)) d] at hlast
  rw [← Option.some.inj hlast, String.toList_append] at hsplit
  exact hjson (congrArg String.ofList (splitPoint?_json hsplit))

/-- What a template comes to at a moment of a run. -/
def outputsOf (options : Options) (scope : Scope) (run : Run) (source : String) : List Output :=
  match renderTemplate options.pretty scope run source with
  | .ok outputs => outputs.map fun (name, text) => ⟨source, name, text⟩
  | .error _ => []

/-- What templates come to, each in its turn. -/
def outputsFrom (options : Options) (scope : Scope) : Run → List String → List Output
  | _, [] => []
  | run, source :: sources =>
    outputsOf options scope run source ++
      outputsFrom options scope (compileTemplate options scope run source) sources

/-- A run in which the modules are loaded and no template is compiled. -/
def loaded (d : Disk) (scope : Scope) (modules : List String) : Run :=
  modules.foldl (loadModule scope) ⟨d, .empty .standard, "", [], [], []⟩

/-- Everything that a run makes of its templates. -/
def outputs (d : Disk) (options : Options) : Except CommandError (List Output) := do
  let scope ← loadScope d options.scope
  let sources ← collectSources d options.paths
  return outputsFrom options scope (loaded d scope sources.modules) sources.templates

/-- A template fails to be rendered, or one of its outputs cannot be written, or all are. -/
theorem compileTemplate_cases (hout : options.out = some out) (scope : Scope) (run : Run)
    (source : String) :
    (∃ e, renderTemplate options.pretty scope run source = .error e ∧
      compileTemplate options scope run source =
        { run with failures := run.failures ++ [(source, e)] }) ∨
    ∃ pairs, renderTemplate options.pretty scope run source = .ok pairs ∧ ∃ run',
      (∃ e, writeOutputs out source run pairs = (run', some e) ∧
        compileTemplate options scope run source =
          { run' with failures := run'.failures ++ [(source, .disk e)] }) ∨
      (writeOutputs out source run pairs = (run', none) ∧
        compileTemplate options scope run source =
          { run' with compiled := run'.compiled ++ [source] }) := by
  rw [compileTemplate, hout]
  cases hrender : renderTemplate options.pretty scope run source with
  | error e => exact .inl ⟨e, rfl, rfl⟩
  | ok pairs =>
    refine .inr ⟨pairs, rfl, ?_⟩
    cases hwrite : writeOutputs out source run pairs with
    | mk run' fault =>
      cases fault with
      | none => exact ⟨run', .inr ⟨rfl, by simp only [hwrite]⟩⟩
      | some e => exact ⟨run', .inl ⟨e, rfl, by simp only [hwrite]⟩⟩

theorem failures_of_writeOutputs {pairs : List (String × String)} {fault : Option DiskFault}
    (h : writeOutputs out source run pairs = (run', fault)) : run'.failures = run.failures := by
  induction pairs generalizing run with
  | nil =>
    cases h
    rfl
  | cons pair pairs ih =>
    rw [writeOutputs] at h
    split at h
    · have hrest := ih h
      exact hrest
    · cases h
      rfl

/-- A failure is never forgotten. -/
theorem failures_prefix_compileTemplate (hout : options.out = some out) (scope : Scope) (run : Run)
    (source : String) :
    run.failures <+: (compileTemplate options scope run source).failures := by
  rcases compileTemplate_cases hout scope run source with
    ⟨e, -, h⟩ | ⟨pairs, -, run', ⟨e, hwrite, h⟩ | ⟨hwrite, h⟩⟩ <;> rw [h]
  · exact List.prefix_append _ _
  · exact failures_of_writeOutputs hwrite ▸ List.prefix_append _ _
  · exact failures_of_writeOutputs hwrite ▸ List.prefix_rfl

theorem failures_prefix_templates (hout : options.out = some out) (scope : Scope) (run : Run)
    (sources : List String) :
    run.failures <+: (sources.foldl (compileTemplate options scope) run).failures := by
  induction sources generalizing run with
  | nil => exact List.prefix_rfl
  | cons source sources ih =>
    exact (failures_prefix_compileTemplate hout scope run source).trans (ih _)

/-- The last of the outputs that lead to a place. -/
def lastAt (d : Disk) (out : String) (os : List Output) (p : Place) : Option Output :=
  os.reverse.find? fun o => d.place (o.path out) = p

theorem lastAt_concat (d : Disk) (out : String) (os : List Output) (o : Output) (p : Place) :
    lastAt d out (os ++ [o]) p =
      if d.place (o.path out) = p then some o else lastAt d out os p := by
  rw [lastAt, List.reverse_concat, List.find?_cons]
  split <;> simp_all [lastAt]

theorem mem_of_lastAt {d : Disk} {out : String} {os : List Output} {p : Place} {o : Output}
    (h : lastAt d out os p = some o) : o ∈ os ∧ d.place (o.path out) = p :=
  ⟨List.mem_reverse.mp (List.mem_of_find?_eq_some h), by simpa using List.find?_some h⟩

def Output.content (o : Output) : ByteArray :=
  (o.text ++ "\n").toUTF8

/-- A run that has written these outputs: each path leads to what was last written there. -/
structure Wrote (d : Disk) (out : String) (os : List Output) (run : Run) : Prop where
  workingDirectory : run.disk.workingDirectory = d.workingDirectory
  written : run.written = os.map (Output.path out)
  file : ∀ o ∈ os, ∃ last, lastAt d out os (d.place (o.path out)) = some last ∧
    run.disk.target (o.path out) = .ok (.entry (d.place (o.path out)) (.file last.content))
  compiled : ∀ source ∈ run.compiled, IsSource source

namespace Wrote

variable {os : List Output} {o : Output} {d₁ d₂ : Disk}

theorem of_eq (h : Wrote d out os run) (hdisk : run'.disk = run.disk)
    (hwritten : run'.written = run.written) (hcompiled : run'.compiled = run.compiled) :
    Wrote d out os run' :=
  ⟨hdisk ▸ h.workingDirectory, hwritten ▸ h.written, hdisk ▸ h.file, hcompiled ▸ h.compiled⟩

theorem compile (h : Wrote d out os run) (hsource : IsSource source) :
    Wrote d out os { run with compiled := run.compiled ++ [source] } :=
  ⟨h.workingDirectory, h.written, h.file,
    List.forall_mem_append.mpr ⟨h.compiled, List.forall_mem_singleton.mpr hsource⟩⟩

theorem write (h : Wrote d out os run) (hparents : run.disk.makeParents (o.path out) = .ok d₁)
    (hwrite : d₁.write (o.path out) o.content = .ok d₂) :
    Wrote d out (os ++ [o]) { run with disk := d₂, written := run.written ++ [o.path out] } := by
  have hextends := Disk.extends_of_makeParents hparents
  have hchanges := Disk.changes_of_write hwrite
  have hkeeps := hextends.keepsDirectories.trans hchanges.keepsDirectories
  have hplace : d₁.place (o.path out) = d.place (o.path out) :=
    Disk.place_eq (hextends.workingDirectory.trans h.workingDirectory) _
  rw [hplace] at hchanges
  refine ⟨hkeeps.workingDirectory.trans h.workingDirectory, ?_, fun o' ho' => ?_, h.compiled⟩
  · rw [h.written, List.map_append, List.map_singleton]
  rw [lastAt_concat]
  rcases List.mem_append.mp ho' with ho' | ho'
  -- an earlier output is replaced exactly if the new one leads to the same place
  · obtain ⟨last, hlast, htarget⟩ := h.file o' ho'
    have hkept {c : ByteArray} (hfile : d₂.entry? (d.place (o'.path out)) = some (.file c)) :=
      hkeeps.target_file htarget (getLast?_path_ne_empty out o') (by simp [Target.found]) hfile
    by_cases hsame : d.place (o.path out) = d.place (o'.path out)
    · exact ⟨o, if_pos hsame, hkept (by rw [hchanges.lookup, if_pos hsame.symm])⟩
    · refine ⟨last, (if_neg hsame).trans hlast, hkept ?_⟩
      rw [hchanges.lookup, if_neg (Ne.symm hsame)]
      exact hextends.keeps _ _ (Disk.target_eq_ok htarget).2
  · obtain rfl := List.mem_singleton.mp ho'
    refine ⟨o', if_pos rfl, ?_⟩
    have htarget := Disk.target_written hwrite (getLast?_path_ne_empty out o')
    rwa [hplace] at htarget

theorem remove (h : Wrote d out os run) (hsource : IsSource source)
    (hremove : run.disk.remove source = .ok d₁) : Wrote d out os { run with disk := d₁ } := by
  have hchanges := Disk.changes_of_remove hremove
  rw [Disk.place_eq h.workingDirectory] at hchanges
  refine ⟨hchanges.workingDirectory.trans h.workingDirectory, h.written, fun o ho => ?_, h.compiled⟩
  obtain ⟨last, hlast, htarget⟩ := h.file o ho
  refine ⟨last, hlast, hchanges.keepsDirectories.target_file htarget
    (getLast?_path_ne_empty out o) (by simp [Target.found]) ?_⟩
  rw [hchanges.lookup]
  exact (if_neg (place_ne_of_isSource hsource d out o).symm).trans (Disk.target_eq_ok htarget).2

theorem writeOutputs (h : Wrote d out os run) {pairs : List (String × String)}
    {fault : Option DiskFault}
    (hwrite : Compile.writeOutputs out source run pairs = (run', fault)) :
    ∃ front, front <+: pairs ∧ (fault = none → front = pairs) ∧
      Wrote d out (os ++ front.map fun (name, text) => ⟨source, name, text⟩) run' := by
  induction pairs generalizing os run with
  | nil =>
    cases hwrite
    exact ⟨[], List.nil_prefix, fun _ => rfl, by simpa using h⟩
  | cons pair pairs ih =>
    obtain ⟨name, text⟩ := pair
    rw [Compile.writeOutputs] at hwrite
    split at hwrite
    · rename_i disk hdisk
      obtain ⟨d₁, hparents, hd₂⟩ := bind_eq_ok.mp hdisk
      have hone := h.write (o := ⟨source, name, text⟩) hparents hd₂
      obtain ⟨front, hfront, hall, hwrote⟩ := ih hone hwrite
      refine ⟨(name, text) :: front, ?_, fun hfault => by rw [hall hfault], ?_⟩
      · exact List.cons_prefix_cons.mpr ⟨rfl, hfront⟩
      · rwa [List.map_cons, List.append_cons]
    · cases hwrite
      exact ⟨[], List.nil_prefix, nofun, by simpa using h⟩

theorem compileTemplate (h : Wrote d out os run) (hout : options.out = some out)
    (hsource : IsSource source) :
    ∃ front, front <+: outputsOf options scope run source ∧
      ((Compile.compileTemplate options scope run source).failures = [] →
        front = outputsOf options scope run source) ∧
      Wrote d out (os ++ front) (Compile.compileTemplate options scope run source) := by
  rcases compileTemplate_cases hout scope run source with
    ⟨e, hrender, hnext⟩ | ⟨pairs, hrender, run', ⟨e, hwrite, hnext⟩ | ⟨hwrite, hnext⟩⟩ <;>
    rw [hnext, outputsOf, hrender]
  · refine ⟨[], List.nil_prefix, fun _ => rfl, ?_⟩
    rw [List.append_nil]
    exact h.of_eq rfl rfl rfl
  · obtain ⟨front, hfront, -, hwrote⟩ := h.writeOutputs hwrite
    refine ⟨_, hfront.map _, fun hfailures => ?_, ?_⟩
    · simp at hfailures
    · exact hwrote.of_eq rfl rfl rfl
  · obtain ⟨front, -, hall, hwrote⟩ := h.writeOutputs hwrite
    obtain rfl := hall rfl
    exact ⟨_, List.prefix_rfl, fun _ => rfl, hwrote.compile hsource⟩

theorem templates (h : Wrote d out os run) (hout : options.out = some out) {sources : List String}
    (hsources : ∀ source ∈ sources, IsSource source) :
    ∃ os', os'.Sublist (outputsFrom options scope run sources) ∧
      ((sources.foldl (Compile.compileTemplate options scope) run).failures = [] →
        os' = outputsFrom options scope run sources) ∧
      Wrote d out (os ++ os') (sources.foldl (Compile.compileTemplate options scope) run) := by
  induction sources generalizing os run with
  | nil => exact ⟨[], List.Sublist.refl _, fun _ => rfl, by rwa [List.append_nil]⟩
  | cons source sources ih =>
    obtain ⟨hsource, hsources⟩ := List.forall_mem_cons.mp hsources
    obtain ⟨front, hfront, hall, hwrote⟩ := h.compileTemplate hout hsource
    obtain ⟨os', hos', hall', hwrote'⟩ := ih hwrote hsources
    refine ⟨front ++ os', hfront.sublist.append hos', fun hfailures => ?_, ?_⟩
    · have hnext := failures_prefix_templates hout scope
        (Compile.compileTemplate options scope run source) sources
      rw [List.foldl_cons] at hfailures
      rw [hfailures] at hnext
      rw [hall (List.prefix_nil.mp hnext), hall' hfailures, outputsFrom]
    · rwa [List.append_assoc] at hwrote'

theorem loadModule (h : Wrote d out os run) (hsource : IsSource source) (scope : Scope) :
    Wrote d out os (Compile.loadModule scope run source) := by
  simp only [Compile.loadModule]
  split
  · exact (h.compile hsource).of_eq rfl rfl rfl
  · exact h.of_eq rfl rfl rfl

theorem modules (h : Wrote d out os run) {sources : List String}
    (hsources : ∀ source ∈ sources, IsSource source) (scope : Scope) :
    Wrote d out os (sources.foldl (Compile.loadModule scope) run) := by
  induction sources generalizing run with
  | nil => exact h
  | cons source sources ih =>
    obtain ⟨hsource, hsources⟩ := List.forall_mem_cons.mp hsources
    exact ih (h.loadModule hsource scope) hsources

theorem removeAll (h : Wrote d out os run) {sources : List String}
    (hsources : ∀ source ∈ sources, IsSource source)
    (hremove : sources.foldlM Disk.remove run.disk = .ok d₁) :
    Wrote d out os { run with disk := d₁ } := by
  induction sources generalizing run with
  | nil =>
    cases hremove
    exact h
  | cons source sources ih =>
    obtain ⟨hsource, hsources⟩ := List.forall_mem_cons.mp hsources
    obtain ⟨d₂, hd₂, hrest⟩ := bind_eq_ok.mp hremove
    have hremoved := ih (h.remove hsource hd₂) hsources hrest
    exact hremoved

end Wrote

theorem isSource_of_collectSources {paths : List String} {sources : Sources}
    (h : collectSources d paths = .ok sources) :
    (∀ path ∈ sources.modules, IsSource path) ∧ ∀ path ∈ sources.templates, IsSource path := by
  obtain ⟨files, -, hsources⟩ := bind_eq_ok.mp h
  obtain rfl := pure_eq_ok.mp hsources
  constructor <;> intro path hpath
  · exact .inl (of_decide_eq_true (List.mem_filter.mp hpath).2)
  · exact .inr (of_decide_eq_true (List.mem_filter.mp hpath).2)

/-- What a run has written is part of what it makes of its templates, and all of it if nothing
fails. -/
theorem wrote_of_execute (hout : options.out = some out) (h : execute d options = .ok run) :
    ∃ all os, outputs d options = .ok all ∧ os.Sublist all ∧ (run.failures = [] → os = all) ∧
      Wrote d out os run := by
  obtain ⟨run₁, hcompile, hremove⟩ := bind_eq_ok.mp h
  obtain ⟨scope, hscope, hcompile⟩ := bind_eq_ok.mp hcompile
  obtain ⟨sources, hsources, hcompile⟩ := bind_eq_ok.mp hcompile
  obtain rfl := pure_eq_ok.mp hcompile
  obtain ⟨hmodules, htemplates⟩ := isSource_of_collectSources hsources
  have hstart : Wrote d out [] ⟨d, .empty .standard, "", [], [], []⟩ := ⟨rfl, rfl, nofun, nofun⟩
  obtain ⟨os, hos, hall, hwrote⟩ :=
    (hstart.modules hmodules scope).templates hout htemplates
  have houtputs : outputs d options =
      .ok (outputsFrom options scope (loaded d scope sources.modules) sources.templates) :=
    bind_eq_ok.mpr ⟨scope, hscope, bind_eq_ok.mpr ⟨sources, hsources, rfl⟩⟩
  refine ⟨_, os, houtputs, hos, ?_⟩
  split at hremove
  -- only sources are removed, and no output is in the place of one
  · obtain ⟨d₁, hd₁, hrun⟩ := bind_eq_ok.mp hremove
    obtain rfl := pure_eq_ok.mp hrun
    exact ⟨hall, hwrote.removeAll hwrote.compiled (mapError_eq_ok.mp hd₁)⟩
  · obtain rfl := pure_eq_ok.mp hremove
    exact ⟨hall, hwrote⟩

/-- After a run without a failure every output's path leads to the last of the outputs that lead to
the same place. So all outputs are there exactly if those of one place have one text. -/
theorem last_outputs_of_execute (hout : options.out = some out) (h : execute d options = .ok run)
    (hfailures : run.failures = []) :
    ∃ os, outputs d options = .ok os ∧ run.written = os.map (Output.path out) ∧
      (∀ o ∈ os, ∃ last, lastAt d out os (d.place (o.path out)) = some last ∧
        run.disk.readText (o.path out) = .ok (last.text ++ "\n")) ∧
      ((∀ o ∈ os, run.disk.readText (o.path out) = .ok (o.text ++ "\n")) ↔
        ∀ o ∈ os, ∀ o' ∈ os, d.place (o.path out) = d.place (o'.path out) → o.text = o'.text) := by
  obtain ⟨all, os, houtputs, -, hall, hwrote⟩ := wrote_of_execute hout h
  obtain rfl := hall hfailures
  have hlast : ∀ o ∈ os, ∃ last, lastAt d out os (d.place (o.path out)) = some last ∧
      run.disk.readText (o.path out) = .ok (last.text ++ "\n") := by
    intro o ho
    obtain ⟨last, hlast, htarget⟩ := hwrote.file o ho
    exact ⟨last, hlast, Disk.readText_of_target htarget⟩
  refine ⟨os, houtputs, hwrote.written, hlast, fun hread o ho o' ho' hplace => ?_,
    fun hsame o ho => ?_⟩
  · have hplace' : run.disk.place (o.path out) = run.disk.place (o'.path out) := by
      rw [Disk.place_eq hwrote.workingDirectory, Disk.place_eq hwrote.workingDirectory, hplace]
    have htext := Disk.text_unique (hread o ho) (hread o' ho') hplace'
    simpa using htext
  · obtain ⟨last, hfound, hread⟩ := hlast o ho
    obtain ⟨hmem, hplace⟩ := mem_of_lastAt hfound
    rw [hread, hsame last hmem o ho hplace]

def sharingText (n : String) : String :=
  "\x7b\"$files\":\x7b\"array\":[0],\"fileName\":\"same\"\x7d," ++
    "\"$template\":\x7b\"n\":" ++ n ++ "\x7d\x7d"

/-- Two templates with different bodies, whose outputs have one name. -/
def sharingDisk : Disk where
  entries := [(["w"], .directory), (["w", "a.templ"], .file (sharingText "1").toUTF8),
    (["w", "b.templ"], .file (sharingText "2").toUTF8)]
  workingDirectory := ["w"]

def sharingOptions : Options where
  paths := ["a.templ", "b.templ"]
  scope := []
  out := some "out"
  removeSources := true
  pretty := false

theorem outputs_sharingDisk : outputs sharingDisk sharingOptions =
    .ok [⟨"a.templ", "same", "\x7b\"n\":1\x7d"⟩, ⟨"b.templ", "same", "\x7b\"n\":2\x7d"⟩] := by
  rw [← toOption_eq_some_iff]
  decide +kernel

theorem execute_sharingDisk :
    ∃ run, execute sharingDisk sharingOptions = .ok run ∧ run.failures = [] := by
  have h : (execute sharingDisk sharingOptions).toOption.map (·.failures.isEmpty) = some true := by
    decide +kernel
  obtain ⟨run, hrun, hfailures⟩ := Option.map_eq_some_iff.mp h
  exact ⟨run, toOption_eq_some_iff.mp hrun, List.isEmpty_iff.mp hfailures⟩

/-- The first of the two outputs is lost. -/
theorem last_outputs_of_sharingDisk :
    ∃ run, execute sharingDisk sharingOptions = .ok run ∧ run.failures = [] ∧
      ∃ os, outputs sharingDisk sharingOptions = .ok os ∧
        run.written = os.map (Output.path "out") ∧
        (∀ o ∈ os, ∃ last,
          lastAt sharingDisk "out" os (sharingDisk.place (o.path "out")) = some last ∧
            run.disk.readText (o.path "out") = .ok (last.text ++ "\n")) ∧
        ¬ ∀ o ∈ os, run.disk.readText (o.path "out") = .ok (o.text ++ "\n") := by
  obtain ⟨run, hrun, hfailures⟩ := execute_sharingDisk
  obtain ⟨os, houtputs, hwritten, hlast, hall⟩ := last_outputs_of_execute rfl hrun hfailures
  refine ⟨run, hrun, hfailures, os, houtputs, hwritten, hlast, fun hread => ?_⟩
  obtain rfl := Except.ok.inj (outputs_sharingDisk.symm.trans houtputs)
  have hsame := hall.mp hread ⟨"a.templ", "same", "\x7b\"n\":1\x7d"⟩ (by simp)
    ⟨"b.templ", "same", "\x7b\"n\":2\x7d"⟩ (by simp) (by decide +kernel)
  exact absurd hsame (by decide)

end Stencil.Compile

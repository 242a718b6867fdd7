import Stencil.Proofs.Command.Outputs

/-!
# Where outputs end up

The steps of a path come to a number of directories upwards and names downwards from there. An
output stays in the directory for outputs if its name does not lead further up than the directory of
its source was nested, or comes back to the directory that it left.
-/

namespace Stencil

/-- Up first, then down. -/
structure Route where
  up : Nat
  down : List String

namespace Route

def step (r : Route) (s : String) : Route :=
  if s = ".." then if r.down = [] then ⟨r.up + 1, []⟩ else ⟨r.up, r.down.dropLast⟩
  else ⟨r.up, r.down ++ [s]⟩

/-- The place that a route leads to; the root is above itself. -/
def lead (r : Route) (p : Place) : Place :=
  p.take (p.length - r.up) ++ r.down

theorem lead_step (r : Route) (s : String) (p : Place) :
    (r.step s).lead p = Place.walk (r.lead p) s := by
  rw [step, Place.walk]
  split
  · split
    · rename_i hdown
      simp only [lead, hdown, List.append_nil, List.dropLast_eq_take, List.length_take,
        List.take_take]
      congr 1
      omega
    · rename_i hdown
      exact (List.dropLast_append_of_ne_nil hdown).symm
  · exact (List.append_assoc ..).symm

theorem lead_foldl (r : Route) (steps : List String) (p : Place) :
    (steps.foldl step r).lead p = steps.foldl Place.walk (r.lead p) := by
  induction steps generalizing r with
  | nil => rfl
  | cons s steps ih => rw [List.foldl_cons, List.foldl_cons, ih, lead_step]

end Route

namespace Place

/-- A place below another one. -/
def Inside (p q : Place) : Prop :=
  p <+: q ∧ p ≠ q

instance (p q : Place) : Decidable (p.Inside q) :=
  inferInstanceAs (Decidable (p <+: q ∧ p ≠ q))

theorem inside_append_iff (r p q : Place) : Inside (r ++ p) (r ++ q) ↔ Inside p q := by
  simp [Inside]

theorem nil_inside_iff {p : Place} : Inside [] p ↔ p ≠ [] := by
  simp [Inside, eq_comm]

end Place

/-- What goes up and down from below a place ends below it exactly if it goes down to all the names
that it left. -/
theorem Route.inside_lead_iff {r : Route} (hdown : r.down ≠ []) (p q : Place) :
    p.Inside (r.lead (p ++ q)) ↔ Place.Inside (p.drop (p.length + q.length - r.up)) r.down := by
  rw [lead, List.length_append]
  generalize p.length + q.length - r.up = n
  rcases Nat.le_total n p.length with hn | hn
  · have h := Place.inside_append_iff (p.take n) (p.drop n) r.down
    rwa [List.take_append_drop, ← List.take_append_of_le_length hn] at h
  · have h := Place.inside_append_iff p [] (q.take (n - p.length) ++ r.down)
    rw [List.append_nil, ← List.append_assoc] at h
    rw [List.take_append, List.take_of_length_le hn, h, List.drop_of_length_le hn,
      Place.nil_inside_iff, Place.nil_inside_iff]
    simp [hdown]

namespace FilePath

variable {path : String}

/-- What the steps of a path come to. -/
def route (path : String) : Route :=
  (steps path).foldl Route.step ⟨0, []⟩

theorem route_down_ne_nil {s : String} (h : (steps path).getLast? = some s) (hs : s ≠ "..") :
    (route path).down ≠ [] := by
  obtain ⟨others, hothers⟩ := List.getLast?_eq_some_iff.mp h
  simp [route, hothers, Route.step, hs]

theorem foldl_walk_steps (path : String) (p : Place) :
    (steps path).foldl Place.walk p = (route path).lead p := by
  rw [route, Route.lead_foldl]
  simp [Route.lead]

theorem foldl_walk_innerSteps (source : String) (p : Place) :
    (innerSteps source).foldl Place.walk p = p ++ innerSteps source := by
  have hup : ∀ s ∈ innerSteps source, s ≠ ".." := fun s hs => (mem_innerSteps hs).2
  generalize innerSteps source = names at hup
  induction names generalizing p with
  | nil => simp
  | cons s names ih =>
    obtain ⟨hs, hnames⟩ := List.forall_mem_cons.mp hup
    rw [List.foldl_cons, ih _ hnames, Place.walk, if_neg hs, List.append_assoc]
    rfl

end FilePath

namespace Compile

open FilePath

variable {options : Options} {d : Disk} {run : Run} {out : String} {o : Output}

theorem place_path_of_isAbsolute (h : isAbsolute o.file = true) (d : Disk) :
    d.place (o.path out) = (route o.file).down := by
  rw [path_eq_join, join_of_isAbsolute h, Disk.place, Disk.start, if_pos h,
    foldl_walk_steps]
  simp [Route.lead]

theorem place_path_of_relative (h : isAbsolute o.file = false) (d : Disk) :
    d.place (o.path out) = (route o.file).lead (d.place out ++ innerSteps o.source) := by
  have hinner := isAbsolute_innerDirectory o.source
  have hstart : d.start (o.path out) = d.start out := by
    rw [Disk.start, Disk.start, path_eq_join, isAbsolute_join_of_relative h,
      isAbsolute_join_of_relative hinner]
  rw [Disk.place, hstart, path_eq_join, steps_join_of_relative h,
    steps_join_of_relative hinner, steps_innerDirectory, List.foldl_append, List.foldl_append,
    foldl_walk_steps o.file, foldl_walk_innerSteps]
  rfl

/-- The name of an output leads below a place for outputs: from the root, or from the directory that
its source is nested in. -/
def Output.StaysIn (o : Output) (p : Place) : Prop :=
  if isAbsolute o.file then p.Inside (route o.file).down
  else Place.Inside (p.drop (p.length + (innerSteps o.source).length - (route o.file).up))
    (route o.file).down

theorem down_ne_nil (o : Output) : (route o.file).down ≠ [] := by
  obtain ⟨s, hs, -⟩ := steps_file "" o
  exact route_down_ne_nil hs (json_ne s (by decide))

theorem inside_path_iff (d : Disk) (out : String) (o : Output) :
    Place.Inside (d.place out) (d.place (o.path out)) ↔ o.StaysIn (d.place out) := by
  rw [Output.StaysIn]
  split
  · rename_i h
    rw [place_path_of_isAbsolute h]
  · rename_i h
    rw [place_path_of_relative (Bool.not_eq_true _ ▸ h), Route.inside_lead_iff (down_ne_nil o)]

/-- A name that goes no further up than its source is nested. -/
theorem staysIn_of_up_le (h : isAbsolute o.file = false)
    (hup : (route o.file).up ≤ (innerSteps o.source).length) (p : Place) : o.StaysIn p := by
  rw [Output.StaysIn, if_neg (by simp [h]), List.drop_of_length_le (by omega),
    Place.nil_inside_iff]
  exact down_ne_nil o

theorem staysIn_of_slash_not_mem (h : '/' ∉ o.name.toList) (p : Place) : o.StaysIn p := by
  have hslash : '/' ∉ o.file.toList := by
    simpa [Output.file] using h
  have hlast : o.file ≠ "" ∧ o.file ≠ "." ∧ o.file ≠ ".." :=
    ⟨json_ne _ (by decide), json_ne _ (by decide), json_ne _ (by decide)⟩
  have hroute : route o.file = ⟨0, [o.file]⟩ := by
    simp [route, steps, pieces_of_not_mem hslash, Route.step, hlast]
  refine staysIn_of_up_le (isAbsolute_of_not_mem hslash) ?_ p
  rw [hroute]
  exact Nat.zero_le _

/-- Every path that a run has written is the path of one of its outputs, and which of these lie in
the directory for outputs can be told from their names. -/
theorem written_inside_of_execute (hout : options.out = some out)
    (h : execute d options = .ok run) :
    ∃ os, outputs d options = .ok os ∧ ∀ path ∈ run.written, ∃ o ∈ os, path = o.path out ∧
      (Place.Inside (d.place out) (d.place path) ↔ o.StaysIn (d.place out)) ∧
      ('/' ∉ o.name.toList → Place.Inside (d.place out) (d.place path)) := by
  obtain ⟨all, os, houtputs, hos, -, hwrote⟩ := wrote_of_execute hout h
  refine ⟨all, houtputs, fun path hpath => ?_⟩
  rw [hwrote.written] at hpath
  obtain ⟨o, ho, rfl⟩ := List.mem_map.mp hpath
  refine ⟨o, hos.subset ho, rfl, inside_path_iff d out o, fun hname => ?_⟩
  exact (inside_path_iff d out o).mpr (staysIn_of_slash_not_mem hname _)

def climbingText : String :=
  "\x7b\"$files\":\x7b\"array\":[\"../in\",\"../../out\",\"/w/out/in\"]," ++
    "\"fileName\":\"\x7b\x7bvalue\x7d\x7d\"\x7d,\"$template\":\x7b\"n\":1\x7d\x7d"

/-- A template with three outputs, whose names lead upwards or start at the root. -/
def climbingDisk : Disk where
  entries := [(["w"], .directory), (["w", "t"], .directory),
    (["w", "t", "a.templ"], .file climbingText.toUTF8)]
  workingDirectory := ["w"]

def climbingOptions : Options where
  paths := ["t/a.templ"]
  scope := []
  out := some "out"
  removeSources := false
  pretty := false

theorem execute_climbingDisk : ∃ run, execute climbingDisk climbingOptions = .ok run ∧
    run.written = ["out/t/../in.json", "out/t/../../out.json", "/w/out/in.json"] := by
  have h : (execute climbingDisk climbingOptions).toOption.map (·.written) =
      some ["out/t/../in.json", "out/t/../../out.json", "/w/out/in.json"] := by
    decide +kernel
  obtain ⟨run, hrun, hwritten⟩ := Option.map_eq_some_iff.mp h
  exact ⟨run, toOption_eq_some_iff.mp hrun, hwritten⟩

/-- Of the three outputs the second leaves the directory for outputs. -/
theorem written_inside_of_climbingDisk :
    ∃ run os, execute climbingDisk climbingOptions = .ok run ∧
      outputs climbingDisk climbingOptions = .ok os ∧
      (∀ path ∈ run.written, ∃ o ∈ os, path = o.path "out" ∧
        (Place.Inside (climbingDisk.place "out") (climbingDisk.place path) ↔
          o.StaysIn (climbingDisk.place "out")) ∧
        ('/' ∉ o.name.toList → Place.Inside (climbingDisk.place "out") (climbingDisk.place path))) ∧
      run.written.map (fun path =>
        decide (Place.Inside (climbingDisk.place "out") (climbingDisk.place path))) =
          [true, false, true] := by
  obtain ⟨run, hrun, hwritten⟩ := execute_climbingDisk
  obtain ⟨os, houtputs, hinside⟩ := written_inside_of_execute rfl hrun
  refine ⟨run, os, hrun, houtputs, hinside, ?_⟩
  rw [hwritten]
  decide +kernel

end Compile

end Stencil

import Stencil.Command.Compile
import Stencil.Proofs.Json.Finite
import Stencil.Proofs.Template.Nulls
import Stencil.Proofs.Value.Texts

/-!
# From values to documents and back

The document for a value is read back as a value that has the same document: what is lost on the
way, nodes and floats that are not finite, is lost the first time. Outputs are documents for values,
so it makes no difference whether their texts are made of them or of the values that they are read
back as.
-/

namespace Stencil

namespace Value

variable {v : Value} {j : Json}

theorem isFinite_of_toJson {x : Float} (h : v.toJson = .ok (.float x)) : x.isFinite := by
  cases v with
  | float y =>
    rw [toJson, Except.ok.injEq] at h
    split at h
    · rename_i hy
      exact Json.float.inj h ▸ hy
    · cases h
  | array node items =>
    obtain ⟨js, -, hjs⟩ := toJson_array.mp h
    cases hjs
  | object node members =>
    obtain ⟨js, -, hjs⟩ := toJson_object.mp h
    cases hjs
  | _ => cases h

/-- A document for a value holds no floats but finite ones. -/
theorem finite_of_toJson (h : v.toJson = .ok j) : j.Finite := by
  intro p x hx
  obtain ⟨w, -, hw⟩ := (at_toJson_iff h p _).mp hx
  exact isFinite_of_toJson hw

/-- A document with finite floats is the document for the value that it is read as. -/
theorem toJson_ofJson (h : j.Finite) : (ofJson j).toJson = .ok j := by
  induction j using Json.rec_nodes with
  | onArray items ih =>
    have hitems : toJsonItems (ofJsonItems items) = .ok items := by
      rw [toJsonItems_eq_ok, ofJsonItems_eq_map, List.map_map]
      exact List.map_congr_left fun v hv => ih v hv (h.item hv)
    exact toJson_array.mpr ⟨items, hitems, rfl⟩
  | onObject members ih =>
    have hmembers : toJsonMembers (ofJsonMembers members) = .ok members := by
      rw [toJsonMembers_eq_ok, ofJsonMembers_eq_map, List.map_map]
      exact List.map_congr_left fun m hm => congrArg (m.1, ·) (ih m hm (h.member hm))
    exact toJson_object.mpr ⟨members, hmembers, rfl⟩
  | onLeaf j harray hobject =>
    cases j with
    | array items => exact absurd rfl (harray items)
    | object members => exact absurd rfl (hobject members)
    | float x =>
      have hx : x.isFinite := h [] x .here
      rw [ofJson, toJson, if_pos hx]
    | _ => rfl

/-- Read back, the document for a value in which all floats are finite is a copy of the value. -/
theorem ofJson_of_toJson (hfinite : v.Finite) (h : v.toJson = .ok j) : ofJson j = v.deepCopy := by
  induction v using rec_nodes generalizing j with
  | onArray node items ih =>
    obtain ⟨js, hjs, rfl⟩ := toJson_array.mp h
    have hparts : items.map deepCopy = js.map ofJson :=
      map_eq_map_of_forall₂ (forall₂_of_toJsonItems hjs) fun v hv j hj =>
        (ih v hv (finite_array.mp hfinite v hv) hj).symm
    rw [ofJson, deepCopy, ofJsonItems_eq_map, copyItems_eq_map, hparts]
  | onObject node members ih =>
    obtain ⟨js, hjs, rfl⟩ := toJson_object.mp h
    have hparts : (members.map fun m => (m.1, m.2.deepCopy)) = js.map fun m => (m.1, ofJson m.2) :=
      map_eq_map_of_forall₂ (forall₂_of_toJsonMembers hjs) fun m hm j hj => by
        rw [hj.1, ih m hm (finite_object.mp hfinite m hm) hj.2]
    rw [ofJson, deepCopy, ofJsonMembers_eq_map, copyMembers_eq_map, hparts]
  | onLeaf v harray hobject =>
    cases v with
    | array => exact absurd rfl harray
    | object => exact absurd rfl hobject
    | float x =>
      have hx : x.isFinite := hfinite [] x .here
      rw [toJson, if_pos hx] at h
      cases h
      rfl
    | lambda | function => cases h
    | _ =>
      cases h
      rfl

/-- The text of the document for a value, on one line or on many, or that there is none. -/
def printed (pretty : Bool) (v : Value) : Except EvalError String :=
  (v.toJson.mapError fun kind => .type (.toJson kind)).map fun j =>
    if pretty then j.pretty else j.compact

theorem printed_ofJson (h : j.Finite) (pretty : Bool) :
    (ofJson j).printed pretty = .ok (if pretty then j.pretty else j.compact) := by
  rw [printed, toJson_ofJson h]
  rfl

end Value

namespace Compile

/-- The outputs of a template, as the texts of the values that they are read back as. -/
def renderValues (pretty : Bool) (scope : Scope) (run : Run) (path : String) :
    Except CommandError (List (String × String)) := do
  let text ← (run.disk.readText path).mapError .disk
  let outputs ←
    (run.workspace.compileDocument (FilePath.stem path) text scope).mapError .template
  outputs.mapM fun o => return (o.1, ← ((Value.ofJson o.2).printed pretty).mapError .eval)

variable {run : Run} {name text : String} {scope : Scope} {outputs : Fields Json}

theorem finite_of_compileDocument (h : run.workspace.compileDocument name text scope = .ok outputs)
    {o : String × Json} (ho : o ∈ outputs) : o.2.Finite := by
  obtain ⟨i, hi⟩ := List.mem_iff_getElem?.mp ho
  obtain ⟨fields, working, body, -, houtputs⟩ := Workspace.compileDocument_eq_ok h
  obtain ⟨v, -, hjson⟩ := Template.exists_outputValue houtputs hi
  exact Value.finite_of_toJson hjson

theorem renderTemplate_eq_renderValues (pretty : Bool) (scope : Scope) (run : Run) (path : String) :
    renderTemplate pretty scope run path = renderValues pretty scope run path := by
  rw [renderTemplate, renderValues]
  refine bind_congr fun text => ?_
  cases hcompile : run.workspace.compileDocument (FilePath.stem path) text scope with
  | error e => rfl
  | ok outputs =>
    have hprinted : ∀ o ∈ outputs,
        (do return (o.1, ← ((Value.ofJson o.2).printed pretty).mapError .eval) :
          Except CommandError (String × String)) =
        .ok (o.1, if pretty then o.2.pretty else o.2.compact) := by
      intro o ho
      rw [Value.printed_ofJson (finite_of_compileDocument hcompile ho)]
      rfl
    exact (mapM_eq_map hprinted).symm

end Compile

namespace Value

/-- A value without callables has a document, which is the document for the value that it is read
back as. If all floats in the value are finite, the value read back differs in nothing but nodes.
A template is rendered to the same texts, and fails with the same error, whether its outputs are
printed or the values that they are read back as. -/
theorem retraction_of_toJson :
    (∀ v : Value, (∀ c, ¬ v.Holds c) →
      ∃ j, v.toJson = .ok j ∧ (ofJson j).toJson = .ok j ∧ (v.Finite → v.Alike (ofJson j))) ∧
    ∀ pretty scope run path, Compile.renderTemplate pretty scope run path =
      Compile.renderValues pretty scope run path := by
  refine ⟨fun v hnone => ?_, Compile.renderTemplate_eq_renderValues⟩
  cases h : v.toJson with
  | error k =>
    obtain ⟨c, hc, -⟩ := holds_of_toJson_eq_error h
    exact absurd hc (hnone c)
  | ok j =>
    refine ⟨j, rfl, toJson_ofJson (finite_of_toJson h), fun hfinite => ?_⟩
    rw [ofJson_of_toJson hfinite h]
    exact alike_deepCopy v

/-- A whole float beside an integer, a negative zero, and a float that is not finite. -/
def measurements : Value :=
  .object (some 1)
    [("n", .array none [.integer 3, .float 3.0, .float (-0.0)]), ("mean", .float (0.0 / 0.0))]

/-- The document for them keeps all of it but the last float. -/
def measurementsJson : Json :=
  .object [("n", .array [.integer 3, .float 3.0, .float (-0.0)]), ("mean", .null)]

theorem toJson_measurements : measurements.toJson = .ok measurementsJson := by
  have hwhole : (3.0 : Float).isFinite := by decide +kernel
  have hzero : (-0.0 : Float).isFinite := by decide +kernel
  have hmean : (0.0 / 0.0 : Float).isFinite = false := by decide +kernel
  simp [measurements, measurementsJson, toJson, toJsonItems, toJsonMembers, hwhole, hzero, hmean,
    pure, Except.pure]

theorem retraction_of_measurements :
    (∀ c, ¬ measurements.Holds c) ∧ measurements.toJson = .ok measurementsJson ∧
    (ofJson measurementsJson).toJson = .ok measurementsJson ∧
    (∀ c, ¬ inventory.Holds c) ∧ inventory.Finite ∧
    ∃ j, inventory.toJson = .ok j ∧ inventory.Alike (ofJson j) := by
  have hmeasured : ∀ c, ¬ measurements.Holds c := fun c => not_holds_of_toJson toJson_measurements
  have hnone : ∀ c, ¬ inventory.Holds c := fun c =>
    not_holds_of_toJson (show inventory.toJson = .ok _ from rfl)
  obtain ⟨j, hj, hback, -⟩ := retraction_of_toJson.1 measurements hmeasured
  obtain rfl := Except.ok.inj (toJson_measurements.symm.trans hj)
  obtain ⟨j', hj', -, halike⟩ := retraction_of_toJson.1 inventory hnone
  exact ⟨hmeasured, hj, hback, hnone, finite_inventory, j', hj', halike finite_inventory⟩

end Value

end Stencil

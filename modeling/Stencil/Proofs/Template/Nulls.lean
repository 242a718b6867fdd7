import Stencil.Builtin
import Stencil.Json.Equality
import Stencil.Proofs.Template.FanOut
import Stencil.Proofs.Value.Places

/-!
# Nulls in outputs

Each output of a document is made of a value that its body resolves to, for that output alone.
Stripping removes all deletions below the root of the value, and the conversion to JSON that follows
writes a float that is not finite as null. So the text `null` is nowhere inside an output, and null
stands exactly where the stripped value has such a float.
-/

namespace Stencil

theorem Value.toJson_eq_null_iff {v : Value} :
    v.toJson = .ok .null ↔ v = null ∨ ∃ x, v = float x ∧ x.isFinite = false := by
  cases v with
  | float x => cases h : x.isFinite <;> simp [toJson, h]
  | _ => simp [toJson]

theorem Value.toJson_eq_string_iff {v : Value} {s : String} :
    v.toJson = .ok (.string s) ↔ v = string s := by
  cases v with
  | float x => cases h : x.isFinite <;> simp [toJson, h]
  | _ => simp [toJson]

namespace Template

/-- A stripped value has a document in which null stands for floats that are not finite, and for
nothing else. -/
theorem at_null_of_stripNulls {v : Value} {json : Json} (h : v.stripNulls.toJson = .ok json)
    {p : List Segment} (hp : p ≠ []) :
    ¬ json.At p (.string "null") ∧
      (json.At p .null ↔ ∃ x, v.stripNulls.At p (.float x) ∧ x.isFinite = false) := by
  constructor
  · rw [Value.at_toJson_iff h]
    rintro ⟨w, hw, hnull⟩
    have hdel := Value.isDeletion_of_at_stripNulls hp hw
    simp [Value.toJson_eq_string_iff.mp hnull, Value.isDeletion] at hdel
  · rw [Value.at_toJson_iff h]
    constructor
    · rintro ⟨w, hw, hnull⟩
      rcases Value.toJson_eq_null_iff.mp hnull with rfl | ⟨x, rfl, hx⟩
      · have hdel := Value.isDeletion_of_at_stripNulls hp hw
        simp [Value.isDeletion] at hdel
      · exact ⟨x, hw, hx⟩
    · rintro ⟨x, hw, hx⟩
      exact ⟨_, hw, Value.toJson_eq_null_iff.mpr (.inr ⟨x, rfl, hx⟩)⟩

/-- What the body of a document resolves to for the output with the number `i`: in the working
scope, or for `$files` with the element of that number and the number itself on top of it. -/
inductive OutputValue (resolve : Resolver) (working : Scope) (body : Value) :
    (files : Option Value) → (i : Nat) → Value → Prop
  | alone {v : Value} :
      resolve (Trail.part [] 1) (Path.root.field templateKey) working body = .ok v →
      OutputValue resolve working body none 0 v
  | round {node array fileName item v : Value} {items : List Value} {i : Nat} :
      filesOf (Path.root.field filesKey) node = .ok (array, fileName) →
      filesItems resolve (Trail.part [] 2) ((Path.root.field filesKey).field "array") working
        array = .ok items →
      items[i]? = some item →
      resolve ((Trail.round [] i).part 1) (Path.root.field templateKey)
        (roundBindings elementName i item :: working) body = .ok v →
      OutputValue resolve working body (some node) i v

theorem exists_outputValue {resolve : Resolver} {name : String} {working : Scope} {body : Value}
    {files : Option Value} {outputs : Fields Json}
    (h : documentOutputs resolve name working body files = .ok outputs) {i : Nat}
    {o : String × Json} (ho : outputs[i]? = some o) :
    ∃ v, OutputValue resolve working body files i v ∧ v.stripNulls.toJson = .ok o.2 := by
  cases files with
  | none =>
    obtain ⟨v, json, hv, hjson, rfl⟩ := documentOutputs_none.mp h
    cases i with
    | zero =>
      obtain rfl := Option.some.inj ho
      exact ⟨v, .alone hv, hjson⟩
    | succ i => cases ho
  | some node =>
    simp only [documentOutputs, bind_eq_ok] at h
    obtain ⟨⟨array, fileName⟩, hfiles, items, hitems, h⟩ := h
    have hnames : (Fields.names ([] : Fields Json)).Nodup := List.nodup_nil
    obtain ⟨outputs, rfl, -, hrounds⟩ := (fanOut_eq_ok hnames).mp h
    obtain ⟨hlength, hrounds⟩ := forall₂_zipIdx_iff.mp hrounds
    have hi : i < items.length := hlength ▸ (List.getElem?_eq_some_iff.mp ho).1
    obtain ⟨p, hp, hgives⟩ := hrounds i items[i] (List.getElem?_eq_getElem hi)
    obtain rfl := Option.some.inj (ho.symm.trans hp)
    obtain ⟨v, hv, hjson⟩ := hgives.output
    exact ⟨v, .round hfiles hitems (List.getElem?_eq_getElem hi) hv, hjson⟩

/-- The value that the output with the number `i` of a document is made of. -/
def BodyValue (ws : Workspace) (text : String) (scope : Scope) (i : Nat) (v : Value) : Prop :=
  ∃ fields working body, ws.Opens text scope fields working body ∧
    OutputValue ws.resolver working body ((Value.ofJsonMembers fields).get? filesKey) i v

/-- Where the nulls inside the outputs of a document come from. -/
theorem nulls_of_compileDocument {ws : Workspace} {name text : String} {scope : Scope}
    {outputs : Fields Json} (h : ws.compileDocument name text scope = .ok outputs) :
    ∀ i o, outputs[i]? = some o →
      ∃ v, BodyValue ws text scope i v ∧ v.stripNulls.toJson = .ok o.2 ∧ ∀ p, p ≠ [] →
        ¬ o.2.At p (.string "null") ∧
          (o.2.At p .null ↔ ∃ x, v.stripNulls.At p (.float x) ∧ x.isFinite = false) := by
  intro i o ho
  obtain ⟨fields, working, body, hopens, houtputs⟩ := Workspace.compileDocument_eq_ok h
  obtain ⟨v, hv, hjson⟩ := exists_outputValue houtputs ho
  exact ⟨v, ⟨fields, working, body, hopens, hv⟩, hjson, fun p hp => at_null_of_stripNulls hjson hp⟩

/-- The square of a number that is near the end of the range. -/
def overflowing : String :=
  "\x7b\"$scope\": \x7b\"x\": 1e200\x7d, \"$template\": \x7b\"a\": \"\x7b\x7bx * x\x7d\x7d\"\x7d\x7d"

theorem compileDocument_overflowing :
    Workspace.compileDocument ⟨Engine.standard, []⟩ "doc" overflowing [] =
      .ok [("doc", .object [("a", .null)])] := by
  decide +kernel

theorem null_inside_output :
    ∃ outputs, Workspace.compileDocument ⟨Engine.standard, []⟩ "doc" overflowing [] = .ok outputs ∧
      ∃ o ∈ outputs, o.2.At [.field "a"] .null :=
  ⟨_, compileDocument_overflowing, _, List.mem_singleton_self _, .member (by simp) .here⟩

theorem nulls_of_overflowing :
    ∃ v, BodyValue ⟨Engine.standard, []⟩ overflowing [] 0 v ∧
      v.stripNulls.toJson = .ok (.object [("a", .null)]) ∧
      ∃ x, v.stripNulls.At [.field "a"] (.float x) ∧ x.isFinite = false := by
  obtain ⟨v, hv, hjson, hnulls⟩ := nulls_of_compileDocument compileDocument_overflowing 0 _ rfl
  exact ⟨v, hv, hjson, (hnulls [.field "a"] (by simp)).2.mp (.member (by simp) .here)⟩

end Template

end Stencil

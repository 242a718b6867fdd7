import Mathlib
import Stencil.Proofs.Template.Directives

/-!
# One output for each element

A document with `$files` has a round for each element of its array. A round knows the working scope
and its own element, and nothing of the other rounds: so the document compiles exactly if each round
does and no two of them give their outputs the same name, and its outputs are those of the rounds.
-/

namespace Stencil

namespace Template

/-- The name and the output of the round of one element, taken by itself. -/
structure RoundGives (resolve : Resolver) (working : Scope) (fileName body : Value) (i : Nat)
    (item : Value) (o : String × Json) : Prop where
  name : ∃ v, resolve ((Trail.round [] i).part 3) ((Path.root.field filesKey).field "fileName")
      ([("index", .integer (.ofNat i)), ("value", item)] :: working) fileName = .ok v ∧ v.text = o.1
  output : ∃ v, resolve ((Trail.round [] i).part 1) (Path.root.field templateKey)
      ([("index", .integer (.ofNat i)), ("value", item)] :: working) body = .ok v ∧
    v.stripNulls.toJson = .ok o.2

variable {resolve : Resolver} {working : Scope} {fileName body : Value}

theorem RoundGives.unique {i : Nat} {item : Value} {o o' : String × Json}
    (h : RoundGives resolve working fileName body i item o)
    (h' : RoundGives resolve working fileName body i item o') : o = o' := by
  obtain ⟨⟨n, hn, htext⟩, ⟨v, hv, hjson⟩⟩ := h
  obtain ⟨⟨n', hn', htext'⟩, ⟨v', hv', hjson'⟩⟩ := h'
  obtain rfl : n = n' := Except.ok.inj (hn.symm.trans hn')
  obtain rfl : v = v' := Except.ok.inj (hv.symm.trans hv')
  exact Prod.ext (htext.symm.trans htext') (Except.ok.inj (hjson.symm.trans hjson'))

theorem insert_of_not_mem_names {outputs : Fields Json} {o : String × Json}
    (h : o.1 ∉ outputs.names) : outputs.insert o.1 o.2 = outputs ++ [o] :=
  Fields.insert_of_not_has _ _ _ (Bool.eq_false_iff.mpr fun hhas =>
    h ((Fields.has_iff_mem_names _ _).mp hhas))

/-- One round: it gives a new name and an output, and the others go on from there. -/
theorem fanOut_cons_eq_ok {outputs result : Fields Json} {i : Nat} {v : Value} {vs : List Value} :
    fanOut resolve working fileName body outputs i (v :: vs) = .ok result ↔
      ∃ o, RoundGives resolve working fileName body i v o ∧ o.1 ∉ outputs.names ∧
        fanOut resolve working fileName body (outputs ++ [o]) (i + 1) vs = .ok result := by
  simp only [fanOut, bind_eq_ok, output_eq_ok]
  constructor
  · rintro ⟨n, hn, json, ⟨v, hv, hjson⟩, h⟩
    split at h
    · cases h
    · rename_i hhas
      rw [Fields.has_iff_mem_names] at hhas
      refine ⟨(n.text, json), ⟨⟨n, hn, rfl⟩, ⟨v, hv, hjson⟩⟩, hhas, ?_⟩
      rwa [← insert_of_not_mem_names hhas]
  · rintro ⟨⟨_, json⟩, ⟨⟨n, hn, rfl⟩, ⟨v, hv, hjson⟩⟩, hname, h⟩
    refine ⟨n, hn, json, ⟨v, hv, hjson⟩, ?_⟩
    rw [if_neg (by rwa [Fields.has_iff_mem_names])]
    exact (insert_of_not_mem_names hname).symm ▸ h

/-- The rounds from the number `i` on add their outputs to those there are, if no name comes
twice. -/
theorem fanOut_eq_ok {outputs result : Fields Json} (hnames : outputs.names.Nodup) {i : Nat}
    {items : List Value} :
    fanOut resolve working fileName body outputs i items = .ok result ↔
      ∃ os, result = outputs ++ os ∧ result.names.Nodup ∧
        List.Forall₂ (fun item o => RoundGives resolve working fileName body item.2 item.1 o)
          (items.zipIdx i) os := by
  induction items generalizing outputs i with
  | nil =>
    rw [fanOut, Except.ok.injEq]
    constructor
    · rintro rfl
      exact ⟨[], (List.append_nil _).symm, hnames, .nil⟩
    · rintro ⟨os, rfl, -, hos⟩
      cases hos
      exact (List.append_nil _).symm
  | cons v vs ih =>
    have hnames' {o : String × Json} (ho : o.1 ∉ outputs.names) :
        (Fields.names (outputs ++ [o])).Nodup :=
      insert_of_not_mem_names ho ▸ Fields.nodup_names_insert hnames o.1 o.2
    rw [fanOut_cons_eq_ok, List.zipIdx_cons]
    constructor
    · rintro ⟨o, ho, hname, h⟩
      obtain ⟨os, rfl, hnodup, hos⟩ := (ih (hnames' hname)).mp h
      exact ⟨o :: os, (List.append_cons _ _ _).symm, hnodup, .cons ho hos⟩
    · rintro ⟨_, rfl, hnodup, _ | ⟨ho, hos⟩⟩
      rename_i o os
      have hname : o.1 ∉ outputs.names := by
        rw [Fields.names, List.map_append, List.nodup_append] at hnodup
        exact fun h => hnodup.2.2 _ h _ List.mem_cons_self rfl
      exact ⟨o, ho, hname, (ih (hnames' hname)).mpr
        ⟨os, List.append_cons _ _ _, hnodup, hos⟩⟩

theorem forall₂_zipIdx_iff {α β : Type} {R : Nat → α → β → Prop} {as : List α} {bs : List β} :
    List.Forall₂ (fun a b => R a.2 a.1 b) as.zipIdx bs ↔
      bs.length = as.length ∧ ∀ i a, as[i]? = some a → ∃ b, bs[i]? = some b ∧ R i a b := by
  rw [List.forall₂_iff_get]
  constructor
  · rintro ⟨hlength, h⟩
    rw [List.length_zipIdx] at hlength
    refine ⟨hlength.symm, fun i a ha => ?_⟩
    obtain ⟨hi, rfl⟩ := List.getElem?_eq_some_iff.mp ha
    exact ⟨bs[i], List.getElem?_eq_getElem _, by simpa using h i (by simpa) (by omega)⟩
  · rintro ⟨hlength, h⟩
    refine ⟨by rw [List.length_zipIdx, hlength], fun i hi hi' => ?_⟩
    rw [List.length_zipIdx] at hi
    obtain ⟨b, hb, hR⟩ := h i as[i] (List.getElem?_eq_getElem _)
    obtain ⟨_, rfl⟩ := List.getElem?_eq_some_iff.mp hb
    simpa using hR

/-- Outputs with different names come from rounds with different names. -/
theorem RoundGives.name_ne {items : List Value} {outputs : Fields Json}
    (hnames : outputs.names.Nodup)
    (hrounds : ∀ i item, items[i]? = some item →
      ∃ o, outputs[i]? = some o ∧ RoundGives resolve working fileName body i item o)
    {i j : Nat} {item item' : Value} {o o' : String × Json} (hne : i ≠ j)
    (hi : items[i]? = some item) (hj : items[j]? = some item')
    (ho : RoundGives resolve working fileName body i item o)
    (ho' : RoundGives resolve working fileName body j item' o') : o.1 ≠ o'.1 := by
  intro heq
  obtain ⟨p, hp, hgives⟩ := hrounds i item hi
  obtain ⟨q, hq, hgives'⟩ := hrounds j item' hj
  obtain rfl := ho.unique hgives
  obtain rfl := ho'.unique hgives'
  have hname (k : Nat) : outputs.names[k]? = outputs[k]?.map (·.1) := List.getElem?_map
  have hlt : i < outputs.names.length := by
    rw [Fields.names, List.length_map]
    exact (List.getElem?_eq_some_iff.mp hp).1
  apply hne
  rw [← List.getElem?_inj hlt hnames, hname, hname, hp, hq, Option.map_some, Option.map_some, heq]

/-- Rounds with different names make up outputs with different names, one for each element. -/
theorem exists_outputs_of_rounds {items : List Value}
    (hrounds : ∀ i item, items[i]? = some item →
      ∃ o, RoundGives resolve working fileName body i item o)
    (hnames : ∀ i j item item' o o', i ≠ j → items[i]? = some item → items[j]? = some item' →
      RoundGives resolve working fileName body i item o →
      RoundGives resolve working fileName body j item' o' → o.1 ≠ o'.1) :
    ∃ outputs : Fields Json, outputs.names.Nodup ∧ outputs.length = items.length ∧
      ∀ i item, items[i]? = some item →
        ∃ o, outputs[i]? = some o ∧ RoundGives resolve working fileName body i item o := by
  choose o ho using hrounds
  have hitem (i : Fin items.length) : items[i.val]? = some items[i] :=
    List.getElem?_eq_getElem _
  refine ⟨List.ofFn fun i => o i items[i] (hitem i), ?_, List.length_ofFn, fun i item hi => ?_⟩
  · rw [Fields.names, List.map_ofFn, List.nodup_ofFn]
    intro i j heq
    by_contra hne
    exact hnames i j _ _ _ _ (fun h => hne (Fin.ext h)) (hitem i) (hitem j) (ho i _ (hitem i))
      (ho j _ (hitem j)) heq
  · obtain ⟨hlt, rfl⟩ := List.getElem?_eq_some_iff.mp hi
    refine ⟨o i items[i] hi, ?_, ho i _ _⟩
    rw [List.getElem?_ofFn, dif_pos hlt]
    rfl

end Template

namespace Workspace

open Template

/-- The text is a document whose directive opens with this scope and this body, and whose `$files`
gives it these elements and this template for the names of its outputs. -/
structure FansOut (ws : Workspace) (text : String) (scope : Scope) (fields files : Fields Json)
    (array fileName : Json) (working : Scope) (body : Value) (items : List Value) : Prop where
  opens : ws.Opens text scope fields working body
  keys : ∀ key ∈ fields.names, key ∈ [templateKey, scopeKey, extendKey, filesKey, commentKey]
  hasTemplate : fields.has templateKey
  hasFiles : fields.get? filesKey = some (.object files)
  hasArray : files.get? "array" = some array
  hasFileName : files.get? "fileName" = some fileName
  elements : ∃ node, ws.resolver (Trail.part [] 2) ((Path.root.field filesKey).field "array")
    working (.ofJson array) = .ok (.array node items)

variable {ws : Workspace} {text : String} {scope : Scope} {fields files : Fields Json}
  {array fileName : Json} {working : Scope} {body : Value} {items : List Value}

theorem FansOut.compileDocument
    (h : ws.FansOut text scope fields files array fileName working body items) (name : String) :
    ws.compileDocument name text scope =
      fanOut ws.resolver working (.ofJson fileName) body [] 0 items := by
  obtain ⟨⟨htext, hdirective⟩, hkeys, htemplate, hfiles, harray, hfileName, node, hitems⟩ := h
  have hallowed : ∀ key ∈ (Value.ofJsonMembers fields).names,
      key ∈ [templateKey, scopeKey, extendKey, filesKey, commentKey] :=
    fun key hkey => hkeys key (Value.names_ofJsonMembers fields ▸ hkey)
  have hhas : (Value.ofJsonMembers fields).has templateKey := by
    rwa [Fields.has_eq_isSome, Value.get?_ofJsonMembers, Option.isSome_map]
  have hget : (Value.ofJsonMembers fields).get? filesKey =
      some (.object none (Value.ofJsonMembers files)) := by
    rw [Value.get?_ofJsonMembers, hfiles]
    rfl
  have hfilesOf (path : Path) : filesOf path (.object none (Value.ofJsonMembers files)) =
      .ok (.ofJson array, .ofJson fileName) := by
    rw [filesOf, Value.get?_ofJsonMembers, Value.get?_ofJsonMembers, harray, hfileName]
    rfl
  rw [Workspace.compileDocument, readObject_eq_ok.mpr ⟨fields, htext, rfl⟩]
  change ws.compileMembers name scope (Value.ofJsonMembers fields) = _
  rw [compileMembers, checkKeys_eq_ok.mpr hallowed, hdirective, hget]
  simp only [hhas, documentOutputs, hfilesOf, filesItems]
  change (ws.resolver _ _ working (.ofJson array) >>= _) >>= _ = _
  rw [hitems]
  rfl

theorem FansOut.compileDocument_eq_ok
    (h : ws.FansOut text scope fields files array fileName working body items) {name : String}
    {outputs : Fields Json} :
    ws.compileDocument name text scope = .ok outputs ↔
      outputs.names.Nodup ∧ outputs.length = items.length ∧ ∀ i item, items[i]? = some item →
        ∃ o, outputs[i]? = some o ∧
          RoundGives ws.resolver working (.ofJson fileName) body i item o := by
  have hnames : (Fields.names ([] : Fields Json)).Nodup := List.nodup_nil
  rw [h.compileDocument, fanOut_eq_ok hnames, ← forall₂_zipIdx_iff]
  constructor
  · rintro ⟨os, rfl, h⟩
    exact h
  · exact fun h => ⟨outputs, rfl, h⟩

/-- A document with `$files` compiles exactly if the round of each element gives a name and an
output and no two rounds give the same name. There is then one output for each element, in their
order, and it is what the round gives. -/
theorem outputs_of_fansOut
    (h : ws.FansOut text scope fields files array fileName working body items) (name : String) :
    ((∃ outputs, ws.compileDocument name text scope = .ok outputs) ↔
      (∀ i item, items[i]? = some item →
        ∃ o, RoundGives ws.resolver working (.ofJson fileName) body i item o) ∧
      ∀ i j item item' o o', i ≠ j → items[i]? = some item → items[j]? = some item' →
        RoundGives ws.resolver working (.ofJson fileName) body i item o →
        RoundGives ws.resolver working (.ofJson fileName) body j item' o' → o.1 ≠ o'.1) ∧
    ∀ outputs, ws.compileDocument name text scope = .ok outputs →
      outputs.length = items.length ∧
      ∀ i item, items[i]? = some item →
        ∃ o, outputs[i]? = some o ∧
          RoundGives ws.resolver working (.ofJson fileName) body i item o := by
  refine ⟨⟨?_, ?_⟩, fun outputs houtputs => (h.compileDocument_eq_ok.mp houtputs).2⟩
  · rintro ⟨outputs, houtputs⟩
    obtain ⟨hnames, -, hrounds⟩ := h.compileDocument_eq_ok.mp houtputs
    refine ⟨fun i item hi => ?_, fun i j item item' o o' => RoundGives.name_ne hnames hrounds⟩
    obtain ⟨o, -, ho⟩ := hrounds i item hi
    exact ⟨o, ho⟩
  · rintro ⟨hrounds, hnames⟩
    obtain ⟨outputs, houtputs⟩ := exists_outputs_of_rounds hrounds hnames
    exact ⟨outputs, h.compileDocument_eq_ok.mpr houtputs⟩

/-! Two elements, each with an output of its own under a name of its own. -/

def twofold : String :=
  "\x7b\"$files\":\x7b\"array\":\"\x7b\x7bxs\x7d\x7d\",\"fileName\":" ++
    "\"\x7b\x7bvalue + index\x7d\x7d\"\x7d,\"$template\":" ++
    "\x7b\"at\":\"\x7b\x7bindex\x7d\x7d\",\"no\":null\x7d\x7d"

def twofoldFiles : Fields Json :=
  [("array", .string "\x7b\x7bxs\x7d\x7d"), ("fileName", .string "\x7b\x7bvalue + index\x7d\x7d")]

def twofoldBody : Json :=
  .object [("at", .string "\x7b\x7bindex\x7d\x7d"), ("no", .null)]

def twofoldFields : Fields Json :=
  [("$files", .object twofoldFiles), ("$template", twofoldBody)]

def twofoldScope : Scope :=
  [[("xs", .array none [.string "a", .string "b"])]]

theorem fansOut_twofold :
    (empty Engine.standard).FansOut twofold twofoldScope twofoldFields twofoldFiles
      (.string "\x7b\x7bxs\x7d\x7d") (.string "\x7b\x7bvalue + index\x7d\x7d") ([] :: twofoldScope)
      (.ofJson twofoldBody) [.string "a", .string "b"] where
  opens := ⟨by decide +kernel, rfl⟩
  keys := by decide
  hasTemplate := by decide
  hasFiles := rfl
  hasArray := rfl
  hasFileName := rfl
  elements := ⟨none, by cbv⟩

theorem compileDocument_twofold :
    (empty Engine.standard).compileDocument "doc" twofold twofoldScope =
      .ok [("a0", .object [("at", .integer 0)]), ("b1", .object [("at", .integer 1)])] := by
  decide +kernel

theorem outputs_of_twofold :
    (∃ o, [("a0", Json.object [("at", .integer 0)]), ("b1", .object [("at", .integer 1)])][1]? =
        some o ∧
      RoundGives (empty Engine.standard).resolver ([] :: twofoldScope)
        (.ofJson (.string "\x7b\x7bvalue + index\x7d\x7d"))
          (.ofJson twofoldBody) 1 (.string "b") o) ∧
    ∀ o o',
      RoundGives (empty Engine.standard).resolver ([] :: twofoldScope)
        (.ofJson (.string "\x7b\x7bvalue + index\x7d\x7d"))
          (.ofJson twofoldBody) 0 (.string "a") o →
      RoundGives (empty Engine.standard).resolver ([] :: twofoldScope)
        (.ofJson (.string "\x7b\x7bvalue + index\x7d\x7d"))
          (.ofJson twofoldBody) 1 (.string "b") o' →
      o.1 ≠ o'.1 := by
  obtain ⟨hiff, houtputs⟩ := outputs_of_fansOut fansOut_twofold "doc"
  constructor
  · exact (houtputs _ compileDocument_twofold).2 1 (.string "b") rfl
  · intro o o'
    exact (hiff.mp ⟨_, compileDocument_twofold⟩).2 0 1 _ _ o o' (by decide) rfl rfl

end Workspace

end Stencil

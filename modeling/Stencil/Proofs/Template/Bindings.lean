import Stencil.Builtin
import Stencil.Proofs.Template.OwnMembers
import Stencil.Template.Workspace

/-!
# Names that a directive binds

The bindings of a directive are its own ones over those of the modules that it extends, and they
are the innermost layer of the scope in its body. A name of its own is always in that layer, even
if merging has removed it. A name of the modules alone is not if their merges have used it up: then
it means what it means outside.
-/

namespace Stencil

/-- The values that the scope of a module has for a name. -/
def Module.bound (m : Module) (name : String) : List Value :=
  Fields.valuesOf m.scope name

theorem Presence.of_eq_absent_iff (o : Option Value) : of o = absent ↔ o = none := by
  cases o with
  | none => simp [of]
  | some v => cases h : v.isDeletion <;> simp [of, h]

namespace Template

open Value (SettlesTo)

theorem has_keepDeleted (own bindings : Fields Value) (k : String) :
    (keepDeleted own bindings).has k ↔
      bindings.has k ∨ ∃ v, (k, v) ∈ own ∧ v.isDeletion := by
  induction own generalizing bindings with
  | nil => simp [keepDeleted]
  | cons f own ih =>
    have hcons : keepDeleted (f :: own) bindings = keepDeleted own
        (if f.2.isDeletion && !bindings.has f.1 then bindings.insert f.1 .null else bindings) := rfl
    rw [hcons, ih]
    have hinsert : Fields.has (bindings.insert f.1 .null) k ↔ bindings.has k ∨ k = f.1 := by
      rw [Fields.has_eq_isSome, Fields.get?_insert]
      by_cases hk : k = f.1 <;> simp [hk, Fields.has_eq_isSome]
    have hfront : (∃ v, (k, v) ∈ f :: own ∧ v.isDeletion) ↔
        (k = f.1 ∧ f.2.isDeletion) ∨ ∃ v, (k, v) ∈ own ∧ v.isDeletion := by
      simp only [List.mem_cons, or_and_right, exists_or]
      refine or_congr ⟨?_, ?_⟩ Iff.rfl
      · rintro ⟨v, rfl, hv⟩
        exact ⟨rfl, hv⟩
      · rintro ⟨rfl, hv⟩
        exact ⟨f.2, rfl, hv⟩
    rw [hfront]
    by_cases hdel : f.2.isDeletion
    · by_cases hhas : bindings.has f.1
      · have : k = f.1 → bindings.has k := fun hk => hk ▸ hhas
        simp only [hhas, Bool.not_true, Bool.and_false, Bool.false_eq_true, if_false]
        tauto
      · rw [if_pos (by simp [hdel, hhas]), hinsert]
        tauto
    · simp [hdel]

theorem settlesTo_of_inheritedBindings {path : Path} {modules : List Module}
    {inherited : Fields Value} (h : inheritedBindings path modules = .ok inherited) :
    SettlesTo (fun k => modules.flatMap (·.bound k)) [] inherited := by
  obtain ⟨merged, hmerged, h⟩ := bind_eq_ok.mp h
  have hstep (node : Node) (own : Fields Value) (m : Module) (r : Value)
      (hr : mergeAt path (.object node own) (.ofMembers m.scope) = .ok r) :
      ∃ node' fields, r = .object node' fields ∧ SettlesTo m.bound own fields :=
    Value.settlesTo_of_merge (mergeAt_eq_ok.mp hr)
  obtain ⟨node, fields, rfl, hsettles⟩ := Value.settlesTo_of_foldlM hstep hmerged
  rw [pure_eq_ok] at h
  exact h ▸ hsettles

/-- A name is inherited if a module binds it, unless the merges of the modules have used it up. -/
theorem has_inheritedBindings {path : Path} {modules : List Module} {inherited : Fields Value}
    (h : inheritedBindings path modules = .ok inherited) (k : String) :
    inherited.has k ↔
      (∃ m ∈ modules, m.scope.has k) ∧ ¬ Presence.UsedUp (modules.flatMap (·.bound k)) := by
  have hsettles : Presence.of (inherited.get? k) =
      (modules.flatMap (·.bound k)).foldl Presence.merge .absent :=
    Presence.of_settles ((settlesTo_of_inheritedBindings h).get? k)
  have habsent := (Presence.foldl_merge_eq_absent_iff (modules.flatMap (·.bound k))).2
  have hnil : modules.flatMap (·.bound k) = [] ↔ ¬ ∃ m ∈ modules, m.scope.has k := by
    simp [List.flatMap_eq_nil_iff, Module.bound, Fields.valuesOf_eq_nil_iff]
  rw [hnil, ← hsettles, Presence.of_eq_absent_iff] at habsent
  rw [Fields.has_eq_isSome, Option.isSome_iff_ne_none, ne_eq, habsent, not_or, not_not]

/-- Merging keeps the names of both sides, but for deletions that it uses up. -/
theorem has_combinedBindings {path : Path} {own inherited bindings : Fields Value}
    (hnodup : inherited.names.Nodup) (h : combinedBindings path own inherited = .ok bindings)
    (k : String) : bindings.has k ↔ own.has k ∨ inherited.has k := by
  obtain ⟨merged, hmerged, h⟩ := bind_eq_ok.mp h
  obtain ⟨node, fields, rfl, hsettles⟩ := Value.settlesTo_of_merge (mergeAt_eq_ok.mp hmerged)
  obtain rfl := pure_eq_ok.mp h
  have hk : Value.Settles (Fields.valuesOf inherited k) (own.get? k) (Fields.get? fields k) :=
    hsettles.get? k
  rw [Fields.valuesOf_of_nodup hnodup] at hk
  have hpresence := Presence.of_settles hk
  have hfields : Fields.has fields k ↔ Presence.of (Fields.get? fields k) ≠ .absent := by
    rw [Fields.has_eq_isSome, Option.isSome_iff_ne_none, ne_eq, ne_eq, Presence.of_eq_absent_iff]
  rw [has_keepDeleted, hfields, hpresence]
  cases hown : own.get? k with
  | none =>
    have hnone : ¬ ∃ v, (k, v) ∈ own ∧ v.isDeletion := fun ⟨v, hmem, _⟩ =>
      (Fields.get?_eq_none_iff own k).mp hown (List.mem_map_of_mem hmem)
    rw [Fields.has_eq_isSome, Fields.has_eq_isSome, hown]
    cases hinherited : inherited.get? k with
    | none => simpa [Presence.of] using hnone
    | some w =>
      have hcopied : Presence.merge .absent w ≠ .absent := by
        simp [Presence.merge, Presence.of_eq_absent_iff]
      simpa [Presence.of] using Or.inl hcopied
  | some v =>
    have hhas : own.has k := by simp [Fields.has_eq_isSome, hown]
    cases hdel : v.isDeletion with
    | true => simpa [hhas] using Or.inr ⟨v, Fields.mem_of_get? hown, hdel⟩
    | false =>
      have hpresent : Presence.of (some v) = .present := by simp [Presence.of, hdel]
      rw [hpresent, Presence.foldl_merge_present]
      simp [hhas]

/-- The bindings that a directive brings along, resolved over those that it inherits. -/
def ownBindings (resolve : Resolver) (here : Trail) (path : Path) (scope : Scope)
    (inherited : Fields Value) : Option Value → Result (Fields Value)
  | none => .ok []
  | some node => resolveBindings resolve here path (inherited :: scope) node

theorem has_directiveBindings {resolve : Resolver} {here : Trail} {path : Path} {scope : Scope}
    {inherited bindings : Fields Value} {node : Option Value} (hnodup : inherited.names.Nodup)
    (h : directiveBindings resolve here path scope inherited node = .ok bindings) :
    ∃ own, ownBindings resolve here path scope inherited node = .ok own ∧
      ∀ k, bindings.has k ↔ own.has k ∨ inherited.has k := by
  cases node with
  | none =>
    obtain rfl := Except.ok.inj h
    exact ⟨[], rfl, fun k => by simp [Fields.has]⟩
  | some node =>
    obtain ⟨own, hown, h⟩ := bind_eq_ok.mp h
    exact ⟨own, hown, has_combinedBindings hnodup h⟩

/-- What becomes of a name that the scope of a directive or of a module that it extends binds, in
whatever order the modules are listed and whatever merging deletes. -/
theorem innermost_layer_of_directive {ws : Workspace} {resolve : Resolver} {here : Trail}
    {path : Path} {scope working : Scope} {members : Fields Value} {body : Value}
    (h : directive ws resolve here path scope members = .ok (working, body)) :
    ∃ modules inherited own bindings,
      extendedModules ws (path.field extendKey) (members.get? extendKey) = .ok modules ∧
      inheritedBindings (path.field extendKey) modules = .ok inherited ∧
      ownBindings resolve (here.part 0) (path.field scopeKey) scope inherited
        (members.get? scopeKey) = .ok own ∧
      working = bindings :: scope ∧
      ∀ k, (own.has k ∨ ∃ m ∈ modules, m.scope.has k) →
        (own.has k ∨ ¬ Presence.UsedUp (modules.flatMap (·.bound k)) →
          ∃ v, bindings.get? k = some v ∧ Scope.get? working k = some v) ∧
        (own.has k = false → Presence.UsedUp (modules.flatMap (·.bound k)) →
          bindings.get? k = none ∧ Scope.get? working k = Scope.get? scope k) := by
  simp only [directive, bind_eq_ok, pure_eq_ok] at h
  obtain ⟨modules, hmodules, inherited, hinherited, bindings, hbindings, _, -, heq⟩ := h
  have hnodup : inherited.names.Nodup :=
    (settlesTo_of_inheritedBindings hinherited).nodup List.nodup_nil
  obtain ⟨own, hown, hhas⟩ := has_directiveBindings hnodup hbindings
  obtain rfl : bindings :: scope = working := congrArg Prod.fst heq
  refine ⟨modules, inherited, own, bindings, hmodules, hinherited, hown, rfl, fun k hk => ⟨?_, ?_⟩⟩
  · intro hkept
    have hbound : bindings.has k := by
      rw [hhas, has_inheritedBindings hinherited]
      tauto
    obtain ⟨v, hv⟩ := Option.isSome_iff_exists.mp hbound
    exact ⟨v, hv, by rw [Scope.get?_cons, Fields.get?, hv]; rfl⟩
  · intro hnot hused
    have hunbound : bindings.get? k = none := by
      rw [← Option.not_isSome_iff_eq_none, ← Fields.has_eq_isSome, hhas,
        has_inheritedBindings hinherited]
      simp [hnot, hused]
    exact ⟨hunbound, by rw [Scope.get?_cons, hunbound]; rfl⟩

/-- Both modules bind `x` and `y`: the first one deletes them, the second one has an object and an
array for them. -/
def concealing : Workspace where
  engine := Engine.standard
  modules :=
    [("m", ⟨"m", [("x", .null), ("y", .null)], none, 0⟩),
    ("n", ⟨"n", [("x", .object none []), ("y", .array none [])], none, 0⟩)]

/-- A directive that deletes `y` once more. -/
def concealed : Fields Value :=
  [("$extend", .array none [.string "m", .string "n"]), ("$scope", .object none [("y", .null)]),
    ("$template", .string "x")]

def outside : Scope :=
  [[("x", .integer 5), ("y", .integer 5)]]

theorem directive_concealed :
    directive concealing concealing.resolver [] .root outside concealed =
      .ok ([("y", .null)] :: outside, .string "x") := by
  cbv

/-- The outer `x` is seen again, and `y` stays hidden. -/
theorem innermost_layer_of_concealed :
    ∃ working body, directive concealing concealing.resolver [] .root outside concealed =
        .ok (working, body) ∧
      Scope.get? working "x" = some (.integer 5) ∧ Scope.get? working "y" = some .null := by
  obtain ⟨modules, inherited, own, bindings, hmodules, hinherited, hown, hworking, hnames⟩ :=
    innermost_layer_of_directive directive_concealed
  obtain rfl : _ = modules := Except.ok.inj hmodules
  obtain rfl : _ = inherited := Except.ok.inj hinherited
  obtain rfl : [("y", .null)] = own := Except.ok.inj hown
  obtain rfl : [("y", .null)] = bindings := (List.cons.inj hworking).1
  refine ⟨_, _, directive_concealed, ?_, ?_⟩
  · have hused : Presence.UsedUp [.null, .object none []] := by
      refine ⟨⟨.null, rfl, rfl⟩, ⟨.object none [], rfl, rfl⟩, ?_⟩
      simp [Presence.revived_cons_iff, Presence.not_revived_nil, Value.isNode]
    exact ((hnames "x" (.inr ⟨_, List.mem_cons_self, rfl⟩)).2 rfl hused).2
  · obtain ⟨v, hbound, hv⟩ := (hnames "y" (.inl rfl)).1 (.inl rfl)
    exact hv.trans hbound.symm

end Template

end Stencil

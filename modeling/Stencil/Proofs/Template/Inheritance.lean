import Stencil.Builtin
import Stencil.Json.Equality
import Stencil.Proofs.Json.Distinct
import Stencil.Proofs.Template.Documents
import Stencil.Proofs.Template.OwnMembers

/-!
# Deletions under inheritance

The templates of the modules that a document extends are merged under its own one after another.
A deleted member stays away as long as no module brings it back, and a module brings it back if it
has a value for it right behind a module with an array or object there, which used the deletion up.
-/

namespace Stencil

/-- The values that a module's template has for a name. -/
def Module.given (m : Module) (name : String) : List Value :=
  m.template.elim [] (·.given name)

namespace Template

open Value (SettlesTo)

/-- No key but a comment's is an expression. -/
def HasLiteralKeys {α : Type} (members : Fields α) : Prop :=
  ∀ key ∈ members.names, key ≠ commentKey → classify key = .literal

theorem flatMap_given (modules : List Module) (name : String) :
    (modules.filterMap (·.template)).flatMap (·.given name) = modules.flatMap (·.given name) := by
  induction modules with
  | nil => rfl
  | cons m modules ih => cases h : m.template <;> simp [Module.given, h, ih]

theorem settlesTo_of_directive {ws : Workspace} {resolve : Resolver} {here : Trail} {path : Path}
    {scope working : Scope} {members own : Fields Value} {node : Node} {body : Value}
    (htemplate : members.get? templateKey = some (.object node own))
    (h : directive ws resolve here path scope members = .ok (working, body)) :
    ∃ modules node' fields,
      extendedModules ws (path.field extendKey) (members.get? extendKey) = .ok modules ∧
      body = .object node' fields ∧
      SettlesTo (fun k => modules.flatMap (·.given k)) own fields := by
  simp only [directive, bind_eq_ok, pure_eq_ok] at h
  rcases h with ⟨modules, hmodules, _, _, _, _, body', hbody, heq⟩
  rw [Prod.mk.injEq] at heq
  rw [htemplate, Option.getD_some] at hbody
  obtain ⟨node', fields, hfields, hsettles⟩ := Value.settlesTo_of_foldlM
    (fun _ _ _ _ hstep => Value.settlesTo_of_merge (mergeAt_eq_ok.mp hstep)) hbody
  simp only [flatMap_given] at hsettles
  exact ⟨modules, node', fields, hmodules, heq.2 ▸ hfields, hsettles⟩

/-- A name of the body is one of the document's own template or of a module's. -/
theorem hasLiteralKeys_of_settlesTo {modules : List Module} {own fields : Fields Value}
    (hown : HasLiteralKeys own)
    (hmodules : ∀ m ∈ modules, ∃ node members,
      m.template = some (.object node members) ∧ HasLiteralKeys members)
    (h : SettlesTo (fun k => modules.flatMap (·.given k)) own fields) : HasLiteralKeys fields := by
  intro key hkey hcomment
  by_cases hname : key ∈ own.names
  · exact hown key hname hcomment
  · have hsettles := h.get? key
    rw [(Fields.get?_eq_none_iff own key).mpr hname] at hsettles
    have hgiven : modules.flatMap (·.given key) ≠ [] := by
      intro hnone
      rw [hnone] at hsettles
      have hfields := (Fields.get?_eq_none_iff fields key).mp hsettles.of_nil
      exact hfields hkey
    rcases List.exists_mem_of_ne_nil _ hgiven with ⟨v, hv⟩
    rcases List.mem_flatMap.mp hv with ⟨m, hm, hv⟩
    rcases hmodules m hm with ⟨node, members, htemplate, hliteral⟩
    refine hliteral key ?_ hcomment
    simp only [Module.given, htemplate, Option.elim_some, Value.given, Fields.valuesOf,
      List.mem_map, List.mem_filter, decide_eq_true_eq] at hv
    rcases hv with ⟨f, ⟨hf, rfl⟩, -⟩
    exact List.mem_map_of_mem hf

theorem HasLiteralKeys.uncommented {members : Fields Value} (h : HasLiteralKeys members) :
    ∀ key ∈ (uncommented members).names, classify key = .literal := by
  intro key hkey
  rcases List.mem_map.mp hkey with ⟨m, hm, rfl⟩
  rcases List.mem_filter.mp hm with ⟨hmem, hcomment⟩
  exact h m.1 (List.mem_map_of_mem hmem) (by simpa using hcomment)

/-- Members with literal keys keep their names, and each is resolved at its own number. -/
theorem own_of_resolveMembers {ws : Workspace} {resolve : Resolver} {here : Trail} {path : Path}
    {scope : Scope} {start : Nat} {members : Fields Value} {pieces : Pieces}
    (hliteral : ∀ key ∈ members.names, classify key = .literal)
    (h : resolveMembers ws resolve here path scope start members = .ok pieces) :
    pieces.expansions = [] ∧ Fields.names pieces.own = members.names ∧
      ∀ k v, Fields.get? pieces.own k = some v ↔ ∃ b, members.get? k = some b ∧
        resolve (here.part (start + members.names.idxOf k)) (path.field k) scope b = .ok v := by
  induction members generalizing start pieces with
  | nil =>
    rw [resolveMembers, Except.ok.injEq] at h
    subst h
    simp [Fields.names, Fields.get?]
  | cons m members ih =>
    rcases m with ⟨key, b⟩
    have hkey : classify key = .literal := hliteral key (by simp [Fields.names])
    simp only [resolveMembers, resolveMember, hkey, bind_eq_ok, pure_eq_ok] at h
    rcases h with ⟨piece, ⟨v, hv, rfl⟩, pieces', hpieces, rfl⟩
    obtain ⟨hexpansions, hnames, hget⟩ :=
      ih (fun key hkey => hliteral key (List.mem_cons_of_mem _ hkey)) hpieces
    refine ⟨by simpa [Pieces.append] using hexpansions, ?_, fun k w => ?_⟩
    · simpa [Pieces.append, Fields.names] using hnames
    · simp only [Pieces.append, List.cons_append, List.nil_append, Fields.get?_cons]
      by_cases hk : k = key
      · subst hk
        simp [Fields.names, hv, eq_comm]
      · have hindex : (Fields.names ((key, b) :: members)).idxOf k =
            (Fields.names members).idxOf k + 1 := by
          simp [Fields.names, Ne.symm hk]
        rw [if_neg hk, if_neg hk, hget, hindex]
        simp only [Nat.add_assoc, Nat.add_comm 1]

/-- What becomes of a name when the expansions are merged under the members of an object. -/
def Pieces.presence (pieces : Pieces) (k : String) : Presence :=
  (pieces.given k).foldl Presence.merge (.of ((Fields.ofList pieces.own).get? k))

theorem presence_of_resolveObject {ws : Workspace} {resolve : Resolver} {here : Trail}
    {path : Path} {scope : Scope} {members : Fields Value} {r : Value}
    (h : resolveObject ws resolve here path scope members = .ok r) :
    ∃ pieces node fields,
      resolveMembers ws resolve here path scope 0 (uncommented members) = .ok pieces ∧
      r = .object node fields ∧ (Fields.names fields).Nodup ∧
      ∀ k, Presence.of (Fields.get? fields k) = pieces.presence k := by
  rcases settlesTo_of_resolveObject h with ⟨pieces, node, fields, hpieces, hr, hsettles⟩
  refine ⟨pieces, node, fields, hpieces, hr, ?_, fun k => Presence.of_settles (hsettles.get? k)⟩
  exact hsettles.nodup (Fields.nodup_names_ofList _)

/-- The document for an object has the names whose values are no deletions. -/
theorem has_iff_present {node : Node} {fields : Fields Value} {members : Fields Json}
    (hnodup : fields.names.Nodup)
    (h : (Value.object node fields).stripNulls.toJson = .ok (.object members)) (k : String) :
    members.has k ↔ Presence.of (fields.get? k) = .present := by
  rw [Value.stripNulls, Value.ofMembers, Value.stripMembers_eq_map, Value.toJson_object] at h
  rcases h with ⟨js, hjs, heq⟩
  injection heq with heq
  subst heq
  have hnames := Value.names_of_toJsonMembers hjs
  rw [Fields.names_map] at hnames
  rw [Fields.has_iff_mem_names, hnames, Presence.of_eq_present_iff]
  constructor
  · intro hk
    rcases List.mem_map.mp hk with ⟨m, hm, rfl⟩
    rcases List.mem_filter.mp hm with ⟨hmem, hdel⟩
    exact ⟨m.2, (Fields.mem_iff_get? hnodup _ _).mp hmem, by simpa using hdel⟩
  · rintro ⟨v, hv, hdel⟩
    exact List.mem_map.mpr ⟨(k, v), List.mem_filter.mpr ⟨Fields.mem_of_get? hv, by simp [hdel]⟩, rfl⟩

/-- A deletion is no expression. -/
theorem resolve_deletion {ws : Workspace} {depth : Nat} {here : Trail} {path : Path}
    {scope : Scope} {b v : Value} (hb : b.isDeletion)
    (h : resolve ws depth here path scope b = .ok v) : v.isDeletion := by
  cases depth with
  | zero => simp [resolve] at h
  | succ depth =>
    cases b with
    | null =>
      simp only [resolve, resolveNode, Except.ok.injEq] at h
      exact h ▸ hb
    | string s =>
      obtain rfl : s = "null" := by simpa [Value.isDeletion] using hb
      have hsource : source? "null" = none := by decide
      rw [resolve, resolveNode, hsource, Except.ok.injEq] at h
      exact h ▸ hb
    | _ => simp [Value.isDeletion] at hb

/-- An output whose members are those that the pieces of the body come to. -/
structure OutputOf (name : String) (pieces : Pieces) (outputs : Fields Json)
    (members : Fields Json) : Prop where
  outputs : outputs = [(name, .object members)]
  has : ∀ k, members.has k ↔ pieces.presence k = .present

/-- A document without `$files` and with an object for a body has an object for an output. -/
theorem exists_outputOf {ws : Workspace} {name : String} {working : Scope} {node : Node}
    {body : Fields Value} {outputs : Fields Json}
    (hplain : body.has templateKey = false)
    (h : documentOutputs ws.resolver name working (.object node body) none = .ok outputs) :
    ∃ pieces members,
      resolveMembers ws (resolve ws (ws.engine.limit - 1)) (Trail.part [] 1)
        (Path.root.field templateKey) working 0 (uncommented body) = .ok pieces ∧
      OutputOf name pieces outputs members := by
  rcases documentOutputs_none.mp h with ⟨v, json, hv, hjson, rfl⟩
  rw [Workspace.resolver] at hv
  cases hlimit : ws.engine.limit with
  | zero => simp [hlimit, resolve] at hv
  | succ depth =>
    rw [hlimit, resolve_object hplain] at hv
    obtain ⟨pieces, node', fields, hpieces, rfl, hnodup, hpresence⟩ :=
      presence_of_resolveObject hv
    rcases Value.toJson_object.mp hjson with ⟨members, -, rfl⟩
    refine ⟨pieces, members, hpieces, rfl, fun k => ?_⟩
    rw [← hpresence]
    exact has_iff_present hnodup hjson k

/-- With literal keys, a member of the output is one of the body that resolves to no deletion. -/
theorem present_iff_of_literal {ws : Workspace} {resolve : Resolver} {here : Trail} {path : Path}
    {scope : Scope} {body : Fields Value} {pieces : Pieces} {k : String}
    (hliteral : HasLiteralKeys body) (hnodup : body.names.Nodup) (hk : k ≠ commentKey)
    (h : resolveMembers ws resolve here path scope 0 (uncommented body) = .ok pieces) :
    pieces.presence k = .present ↔ ∃ b v, body.get? k = some b ∧
      resolve (here.part ((uncommented body).names.idxOf k)) (path.field k) scope b = .ok v ∧
      v.isDeletion = false := by
  rcases own_of_resolveMembers hliteral.uncommented h with ⟨hexpansions, hnames, hget⟩
  have hown : Fields.ofList pieces.own = pieces.own := by
    apply Fields.ofList_of_nodup
    rw [hnames]
    exact Fields.nodup_names_erase hnodup commentKey
  rw [Pieces.presence, Pieces.given, hexpansions, hown, List.flatMap_nil, List.foldl_nil,
    Presence.of_eq_present_iff]
  simp only [hget, get?_uncommented hk, Nat.zero_add]
  constructor
  · rintro ⟨v, ⟨b, hb, hv⟩, hdel⟩
    exact ⟨b, v, hb, hv, hdel⟩
  · rintro ⟨b, v, hb, hv, hdel⟩
    exact ⟨v, ⟨b, hb, hv⟩, hdel⟩

/-- What becomes of a member that the template of a document deletes, however many modules the
document extends and in whatever order. -/
theorem deleted_member_of_compileDocument {ws : Workspace} {name text : String} {scope : Scope}
    {outputs document own : Fields Json} {k : String} {d : Json}
    (htext : Json.ofText? text = some (.object document))
    (hfiles : document.has filesKey = false)
    (htemplate : document.get? templateKey = some (.object own))
    (hk : classify k = .literal) (hown : own.get? k = some d) (hd : d = .null ∨ d = .string "null")
    (h : ws.compileDocument name text scope = .ok outputs) :
    ∃ modules working node body,
      extendedModules ws (Path.root.field extendKey)
        ((document.get? extendKey).map Value.ofJson) = .ok modules ∧
      ws.Opens text scope document working (.object node body) ∧
      ((Fields.get? body k).all Value.isDeletion ↔
        ¬ Presence.Revived (modules.flatMap (·.given k))) ∧
      (Fields.has body templateKey = false → ∃ pieces members,
        resolveMembers ws (resolve ws (ws.engine.limit - 1)) (Trail.part [] 1)
          (Path.root.field templateKey) working 0 (uncommented body) = .ok pieces ∧
        OutputOf name pieces outputs members ∧
        (HasLiteralKeys own →
          (∀ m ∈ modules, ∃ node members,
            m.template = some (.object node members) ∧ HasLiteralKeys members) →
          (members.has k ↔ Presence.Revived (modules.flatMap (·.given k)) ∧
            ∃ b v, Fields.get? body k = some b ∧
              resolve ws (ws.engine.limit - 1)
                ((Trail.part [] 1).part ((Fields.names (uncommented body)).idxOf k))
                ((Path.root.field templateKey).field k) working b = .ok v ∧
              v.isDeletion = false))) := by
  obtain ⟨fields, working, body', ⟨htext', hdirective⟩, houtputs⟩ :=
    Workspace.compileDocument_eq_ok h
  obtain rfl : document = fields := by simpa [htext] using htext'
  have htemplate' : (Value.ofJsonMembers document).get? templateKey =
      some (.object none (Value.ofJsonMembers own)) := by
    rw [Value.get?_ofJsonMembers, htemplate]
    rfl
  obtain ⟨modules, node, body, hmodules, rfl, hsettles⟩ :=
    settlesTo_of_directive htemplate' hdirective
  rw [Value.get?_ofJsonMembers] at hmodules
  have hdel : (Value.ofJson d).isDeletion := by
    rcases hd with rfl | rfl <;> rfl
  have hbody := hsettles.get? k
  rw [Value.get?_ofJsonMembers, hown, Option.map_some] at hbody
  have hrevived := Presence.ne_present_of_settles_deleted hdel hbody
  refine ⟨modules, working, node, body, hmodules, ⟨htext, hdirective⟩, hrevived, fun hplain => ?_⟩
  have hnone : (Value.ofJsonMembers document).get? filesKey = none := by
    rw [Value.get?_ofJsonMembers, Option.map_eq_none_iff]
    simpa [Fields.has_eq_isSome] using hfiles
  rw [hnone] at houtputs
  rcases exists_outputOf hplain houtputs with ⟨pieces, members, hpieces, houtput⟩
  refine ⟨pieces, members, hpieces, houtput, fun hliteral hmoduleKeys => ?_⟩
  have hnodup : (Fields.names body).Nodup := by
    apply hsettles.nodup
    rw [Value.names_ofJsonMembers]
    exact Json.distinct_of_ofText? htext _ _ (.member (Fields.mem_of_get? htemplate) .here)
  have hkeys : HasLiteralKeys body := by
    apply hasLiteralKeys_of_settlesTo _ hmoduleKeys hsettles
    rw [HasLiteralKeys, Value.names_ofJsonMembers]
    exact hliteral
  have hcomment : k ≠ commentKey := by
    rintro rfl
    simp [classify] at hk
  rw [houtput.has, present_iff_of_literal hkeys hnodup hcomment hpieces, iff_and_self]
  rintro ⟨b, v, hb, hv, hvalue⟩
  by_contra hnot
  have hdeleted := hrevived.mpr hnot
  rw [hb, Option.all_some] at hdeleted
  rw [resolve_deletion hdeleted hv] at hvalue
  simp at hvalue

/-- Two modules with a container for the same name. -/
def containers : Workspace where
  engine := Engine.standard
  modules :=
    [("m", ⟨"m", [], some (.object none [("k", .object none [("x", .integer 1)])]), 0⟩),
    ("n", ⟨"n", [], some (.object none [("k", .array none [.integer 1])]), 0⟩)]

/-- A document that extends both and deletes the name. -/
def deleting : String :=
  "\x7b\"$extend\": [\"m\", \"n\"], \"$template\": \x7b\"k\": null\x7d\x7d"

def deletingMembers : Fields Json :=
  [("$extend", .array [.string "m", .string "n"]), ("$template", .object [("k", .null)])]

theorem compileDocument_deleting :
    containers.compileDocument "doc" deleting [] =
      .ok [("doc", .object [("k", .array [.integer 1])])] := by
  decide +kernel

theorem deleted_member_of_deleting :
    ∃ working node body, containers.Opens deleting [] deletingMembers working (.object node body) ∧
      (Fields.get? body "k").all Value.isDeletion = false := by
  have htext : Json.ofText? deleting = some (.object deletingMembers) := by decide +kernel
  obtain ⟨modules, working, node, body, hmodules, hopens, hrevived, -⟩ :=
    deleted_member_of_compileDocument (k := "k") htext rfl rfl (by decide +kernel) rfl (.inl rfl)
      compileDocument_deleting
  obtain rfl := Except.ok.inj hmodules
  refine ⟨working, node, body, hopens, ?_⟩
  rw [← Bool.not_eq_true, hrevived, not_not]
  exact ⟨_, _, List.infix_rfl, rfl, rfl⟩

end Template

end Stencil

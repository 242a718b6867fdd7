import Mathlib
import Stencil.Builtin
import Stencil.Proofs.Merge.Presence

/-!
# Own members and expansions

An object node resolves to its own members with its expansions merged under them, one after
another. What an own member brings along stays in front: a scalar and an array win over all
expansions. A deletion wins over the first array or object for its name only.
-/

namespace Stencil.Template

open Value (SettlesTo)

/-- The members of an object node that are resolved. -/
def uncommented (members : Fields Value) : Fields Value :=
  members.filter fun (key, _) => key ≠ commentKey

theorem uncommented_eq_erase (members : Fields Value) :
    uncommented members = members.erase commentKey :=
  rfl

theorem get?_uncommented {members : Fields Value} {k : String} (hk : k ≠ commentKey) :
    (uncommented members).get? k = members.get? k := by
  rw [uncommented_eq_erase, Fields.get?_erase, if_neg hk]

/-- The values that expansions have for a name, in the order in which they are merged. -/
def Pieces.given (pieces : Pieces) (name : String) : List Value :=
  pieces.expansions.flatMap fun e => e.2.given name

theorem mergeAt_eq_ok {path : Path} {template parent r : Value} :
    mergeAt path template parent = .ok r ↔ template.merge parent = .ok r :=
  mapError_eq_ok

theorem settlesTo_of_addExpansion {node : Node} {own : Fields Value} {e : Path × Value} {r : Value}
    (h : addExpansion (.object node own) e = .ok r) :
    ∃ node' fields, r = .object node' fields ∧ SettlesTo e.2.given own fields := by
  obtain ⟨path, expansion⟩ := e
  cases expansion with
  | object node' members => exact Value.settlesTo_of_merge (mergeAt_eq_ok.mp h)
  | null => exact ⟨node, own, (Except.ok.inj h).symm, .refl own⟩
  | _ => simp [addExpansion] at h

theorem settlesTo_of_resolveObject {ws : Workspace} {resolve : Resolver} {here : Trail}
    {path : Path} {scope : Scope} {members : Fields Value} {r : Value}
    (h : resolveObject ws resolve here path scope members = .ok r) :
    ∃ pieces node fields,
      resolveMembers ws resolve here path scope 0 (uncommented members) = .ok pieces ∧
      r = .object node fields ∧ SettlesTo pieces.given (Fields.ofList pieces.own) fields := by
  obtain ⟨pieces, hpieces, h⟩ := bind_eq_ok.mp h
  obtain ⟨node, fields, hr, hsettles⟩ :=
    Value.settlesTo_of_foldlM
      (fun _ _ _ _ hstep => settlesTo_of_addExpansion hstep) h
  exact ⟨pieces, node, fields, hpieces, hr, hsettles⟩

/-- A node without `$template` is resolved member by member. -/
theorem resolve_object {ws : Workspace} {depth : Nat} {here : Trail} {path : Path} {scope : Scope}
    {node : Node} {members : Fields Value} (hplain : members.has templateKey = false) :
    resolve ws (depth + 1) here path scope (.object node members) =
      resolveObject ws (resolve ws depth) here path scope members := by
  simp [resolve, resolveNode, hplain]

/-- How the own members of an object node fare against its expansions, however many there are. -/
theorem own_members_of_resolve {ws : Workspace} {depth : Nat} {here : Trail} {path : Path}
    {scope : Scope} {node : Node} {members : Fields Value} {r : Value}
    (hplain : members.has templateKey = false)
    (h : resolve ws (depth + 1) here path scope (.object node members) = .ok r) :
    ∃ pieces node' fields,
      resolveMembers ws (resolve ws depth) here path scope 0 (uncommented members) = .ok pieces ∧
      r = .object node' fields ∧
      ∀ k v, (Fields.ofList pieces.own).get? k = some v →
        (v.isNode = false → v.isDeletion = false →
          Fields.get? fields k = some v ∨
            ∃ n rest, Fields.get? fields k = some (.array n (v :: rest))) ∧
        (∀ n items, v = .array n items →
          ∃ n' rest, Fields.get? fields k = some (.array n' (items ++ rest))) ∧
        (v.isDeletion →
          ((Fields.get? fields k).all Value.isDeletion ↔ ¬ Presence.Revived (pieces.given k))) := by
  rw [resolve_object hplain] at h
  obtain ⟨pieces, node', fields, hpieces, hr, hsettles⟩ := settlesTo_of_resolveObject h
  refine ⟨pieces, node', fields, hpieces, hr, fun k v hv => ?_⟩
  have hk := hsettles.get? k
  rw [hv] at hk
  refine ⟨fun hnode hdel => hk.scalar hnode hdel, ?_, fun hdel => ?_⟩
  · rintro n items rfl
    exact hk.array
  · exact Presence.ne_present_of_settles_deleted hdel hk

/-- Two expansions, of which the first uses up the deletion and the second brings `k` back. -/
def contested : Fields Value :=
  [("s", .integer 1), ("l", .array none [.integer 1]), ("k", .null),
    ("\x7b\x7b?1\x7d\x7d", .object none
      [("s", .array none [.integer 2]), ("l", .object none []), ("k", .array none [])]),
    ("\x7b\x7b?2\x7d\x7d", .object none [("s", .integer 3), ("k", .integer 2)])]

def contestedPieces : Pieces where
  own := [("s", .integer 1), ("l", .array none [.integer 1]), ("k", .null)]
  expansions :=
    [(Path.root.field "\x7b\x7b?1\x7d\x7d", .object none
      [("s", .array none [.integer 2]), ("l", .object none []), ("k", .array none [])]),
    (Path.root.field "\x7b\x7b?2\x7d\x7d", .object none [("s", .integer 3), ("k", .integer 2)])]

theorem resolveMembers_contested :
    resolveMembers ⟨Engine.standard, []⟩ (resolve ⟨Engine.standard, []⟩ 3) [] .root [] 0 contested =
      .ok contestedPieces := by
  cbv

theorem own_members_of_contested :
    contested.has templateKey = false ∧ ∃ node fields,
      resolve ⟨Engine.standard, []⟩ 4 [] .root [] (.object none contested) =
        .ok (.object node fields) ∧
      (Fields.get? fields "s" = some (.integer 1) ∨
        ∃ n rest, Fields.get? fields "s" = some (.array n (.integer 1 :: rest))) ∧
      (∃ n rest, Fields.get? fields "l" = some (.array n (.integer 1 :: rest))) ∧
      Fields.get? fields "k" = some (.integer 2) ∧
      Presence.Revived (contestedPieces.given "k") := by
  have hplain : contested.has templateKey = false := by decide
  have h : resolve ⟨Engine.standard, []⟩ (3 + 1) [] .root [] (.object none contested) =
      .ok (.object none
        [("s", .array none [.integer 1, .integer 2]), ("l", .array none [.integer 1, .object none []]),
          ("k", .integer 2)]) := by
    cbv
  obtain ⟨pieces, node, fields, hpieces, hr, hown⟩ := own_members_of_resolve hplain h
  obtain rfl := Except.ok.inj (resolveMembers_contested.symm.trans hpieces)
  rw [hr] at h
  injection hr with _ hfields
  have hk : Fields.get? fields "k" = some (.integer 2) := by rw [← hfields]; rfl
  refine ⟨hplain, node, fields, h, ?_, ?_, hk, ?_⟩
  · exact (hown "s" (.integer 1) rfl).1 rfl rfl
  · exact (hown "l" _ rfl).2.1 none [.integer 1] rfl
  · have hrevived := (hown "k" .null rfl).2.2 rfl
    rw [hk, iff_not_comm] at hrevived
    exact hrevived.mpr (by simp [Value.isDeletion])

end Stencil.Template

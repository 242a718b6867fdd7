import Stencil.Proofs.Merge.Settling
import Stencil.Proofs.Value.Places

/-!
# Keys at any depth

`v.EveryKey K` says that all names of members have the property `K`, in each object that stands
somewhere in `v`.
-/

namespace Stencil.Value

/-- The objects in a value, at any depth, have only members with names for which `K` holds. -/
def EveryKey (K : String → Prop) (v : Value) : Prop :=
  ∀ p node members, v.At p (object node members) → ∀ name ∈ Fields.names members, K name

variable {K : String → Prop}

theorem everyKey_array {node : Node} {items : List Value} :
    (array node items).EveryKey K ↔ ∀ item ∈ items, item.EveryKey K := by
  constructor
  · intro h item hitem p node' members hat
    obtain ⟨i, hi⟩ := List.getElem?_of_mem hitem
    exact h (.index i :: p) node' members (.item hi hat)
  · intro h p node' members hat
    cases hat with
    | item hi hat => exact h _ (List.mem_of_getElem? hi) _ node' members hat

theorem everyKey_object {node : Node} {members : Fields Value} :
    (object node members).EveryKey K ↔
      (∀ name ∈ members.names, K name) ∧ ∀ m ∈ members, m.2.EveryKey K := by
  constructor
  · intro h
    exact ⟨h [] node members .here, fun m hm p node' members' hat =>
      h (.field m.1 :: p) node' members' (.member hm hat)⟩
  · rintro ⟨hnames, hmembers⟩ p node' members' hat
    cases hat with
    | here => exact hnames
    | member hm hat => exact hmembers _ hm _ node' members' hat

/-- A value without items and members has no keys. -/
theorem everyKey_leaf {v : Value} (hv : v.isNode = false) : v.EveryKey K := by
  intro p node members hat
  cases hat <;> simp [isNode] at hv

theorem EveryKey.item {node : Node} {items : List Value} (h : (array node items).EveryKey K)
    {item : Value} (hitem : item ∈ items) : item.EveryKey K :=
  everyKey_array.mp h item hitem

theorem EveryKey.member {node : Node} {members : Fields Value}
    (h : (object node members).EveryKey K) {m : String × Value} (hm : m ∈ members) :
    m.2.EveryKey K :=
  (everyKey_object.mp h).2 m hm

theorem EveryKey.key {node : Node} {members : Fields Value} (h : (object node members).EveryKey K)
    {m : String × Value} (hm : m ∈ members) : K m.1 :=
  (everyKey_object.mp h).1 m.1 (List.mem_map_of_mem hm)

/-- A key that no object has is not one of a member. -/
theorem EveryKey.get?_eq_none {node : Node} {members : Fields Value}
    (h : (object node members).EveryKey K) {name : String} (hname : ¬ K name) :
    members.get? name = none :=
  (Fields.get?_eq_none_iff _ _).mpr fun hmem => hname ((everyKey_object.mp h).1 name hmem)

theorem everyKey_singleton {node : Node} {name : String} {v : Value} (hname : K name)
    (hv : v.EveryKey K) : (object node [(name, v)]).EveryKey K :=
  everyKey_object.mpr ⟨List.forall_mem_singleton.mpr hname, List.forall_mem_singleton.mpr hv⟩

end Stencil.Value

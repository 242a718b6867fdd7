import Stencil.Json.Basic

/-!
# Equality of documents

Whether two documents are the same can be decided, so that what a template compiles to can be
compared with what it should compile to. Floats are the same if their bits are.
-/

namespace Stencil.Json

mutual

def eqb : Json → Json → Bool
  | null, null => true
  | boolean a, boolean b => a = b
  | integer a, integer b => a = b
  | float x, float y => x = y
  | string s, string t => s = t
  | array as, array bs => eqbItems as bs
  | object as, object bs => eqbMembers as bs
  | _, _ => false

def eqbItems : List Json → List Json → Bool
  | [], [] => true
  | a :: as, b :: bs => a.eqb b && eqbItems as bs
  | _, _ => false

def eqbMembers : List (String × Json) → List (String × Json) → Bool
  | [], [] => true
  | (k, a) :: as, (l, b) :: bs => k = l && a.eqb b && eqbMembers as bs
  | _, _ => false

end

mutual

theorem eqb_iff : (v w : Json) → (v.eqb w ↔ v = w)
  | array as, w => by cases w <;> simp [eqb, eqbItems_iff as]
  | object as, w => by cases w <;> simp [eqb, eqbMembers_iff as]
  | null, w | boolean _, w | integer _, w | float _, w | string _, w => by cases w <;> simp [eqb]

theorem eqbItems_iff : (as bs : List Json) → (eqbItems as bs ↔ as = bs)
  | [], bs => by cases bs <;> simp [eqbItems]
  | a :: as, bs => by cases bs <;> simp [eqbItems, eqb_iff a, eqbItems_iff as]

theorem eqbMembers_iff : (as bs : List (String × Json)) → (eqbMembers as bs ↔ as = bs)
  | [], bs => by cases bs <;> simp [eqbMembers]
  | (k, a) :: as, bs => by
    cases bs with
    | nil => simp [eqbMembers]
    | cons b bs => simp [eqbMembers, eqb_iff a, eqbMembers_iff as, Prod.ext_iff, and_assoc]

end

instance : DecidableEq Json := fun v w =>
  decidable_of_iff _ (eqb_iff v w)

end Stencil.Json

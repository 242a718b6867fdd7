import Mathlib.Algebra.Group.Nat.Defs
import Stencil.Proofs.Expr.Grammar

/-!
# Writing expressions

A tree is written as a row of kinds of tokens in which every expression inside another one stands in
parentheses, so that no operator can take what is not its own.
-/

namespace Stencil

open Grammar

/-- A minus in front, which zero can have too. -/
def isNegative (x : Float) : Bool :=
  2 ^ 63 ≤ x.toBits.toNat

def UnaryOp.mark : UnaryOp → Mark
  | not => .not
  | negate => .minus

def enclosed (w : Word) : Word :=
  .mark .openParen :: w ++ [.mark .closeParen]

@[simp] theorem length_enclosed (w : Word) : (enclosed w).length = w.length + 2 := by
  simp [enclosed]

def commas (ws : List Word) : Word :=
  [.mark .comma].intercalate ws

theorem commas_cons (w : Word) {ws : List Word} (h : ws ≠ []) :
    commas (w :: ws) = w ++ .mark .comma :: commas ws := by
  obtain ⟨v, ws, rfl⟩ := List.exists_cons_of_ne_nil h
  simp [commas, List.intercalate_cons_cons]

theorem length_le_commas (ws : List Word) : ws.length ≤ (commas ws).length + 1 := by
  induction ws with
  | nil => exact Nat.zero_le _
  | cons w ws ih =>
    by_cases h : ws = []
    · subst h
      exact Nat.le_add_left 1 _
    · rw [commas_cons w h]
      simp only [List.length_append, List.length_cons]
      omega

theorem length_le_of_mem_commas {w : Word} {ws : List Word} (h : w ∈ ws) :
    w.length ≤ (commas ws).length := by
  induction ws with
  | nil => simp at h
  | cons v ws ih =>
    by_cases hws : ws = []
    · subst hws
      obtain rfl := List.mem_singleton.mp h
      simp [commas]
    · rw [commas_cons v hws]
      simp only [List.length_append, List.length_cons]
      rcases List.mem_cons.mp h with rfl | h
      · omega
      · have := ih h
        omega

namespace Expr

mutual

/-- The row of an expression that stands alone. -/
def rendering : Expr → Word
  | .float x => if isNegative x then [.mark .minus, .float (-x)] else [.float x]
  | .integer n => if n < 0 then [.mark .minus, .integer (-n)] else [.integer n]
  | .string s => [.string s]
  | .boolean b => [.boolean b]
  | .null => [.null]
  | .name s => [.name s]
  | .array items => .mark .openBracket :: commas (renderItems items) ++ [.mark .closeBracket]
  | .object members => .mark .openBrace :: commas (renderMembers members) ++ [.mark .closeBrace]
  | .range first last => enclosed (rendering first) ++ .mark .range :: enclosed (rendering last)
  | .unary op e => .mark op.mark :: enclosed (rendering e)
  | .binary op left right =>
    enclosed (rendering left) ++ .mark op.mark :: enclosed (rendering right)
  | .conditional test yes no =>
    enclosed (rendering test) ++ .mark .question :: enclosed (rendering yes) ++
      .mark .colon :: enclosed (rendering no)
  | .member e s => enclosed (rendering e) ++ [.mark .dot, .name s]
  | .index e i =>
    enclosed (rendering e) ++ .mark .openBracket :: enclosed (rendering i) ++ [.mark .closeBracket]
  | .call none f args => .name f :: enclosed (commas (renderItems args))
  | .call (some target) f args =>
    enclosed (rendering target) ++ .mark .dot :: .name f :: enclosed (commas (renderItems args))
  | .lambda params body =>
    enclosed (parameters params) ++ .mark .arrow :: enclosed (rendering body)

def renderItems : List Expr → List Word
  | [] => []
  | e :: es => enclosed (rendering e) :: renderItems es

def renderMembers : List (String × Expr) → List Word
  | [] => []
  | (key, e) :: members =>
    (.string key :: .mark .colon :: enclosed (rendering e)) :: renderMembers members

end

theorem renderItems_eq_map (es : List Expr) :
    renderItems es = es.map fun e => enclosed e.rendering := by
  induction es with
  | nil => rfl
  | cons e es ih => rw [renderItems, ih, List.map_cons]

theorem renderMembers_eq_map (members : List (String × Expr)) :
    renderMembers members =
      members.map fun m => .string m.1 :: .mark .colon :: enclosed m.2.rendering := by
  induction members with
  | nil => rfl
  | cons m members ih => rw [renderMembers, ih, List.map_cons]

/-- A row starts like the head of a lambda only if it is a name alone or a call. -/
theorem rendering_shape (e : Expr) :
    (∃ s, e.rendering = [.name s]) ∨ (∃ s w, e.rendering = .name s :: .mark .openParen :: w) ∨
      ∃ k w, e.rendering = k :: w ∧ k ≠ .mark .closeParen ∧ ∀ s, k ≠ .name s := by
  cases e with
  | name s => exact .inl ⟨s, rfl⟩
  | float x =>
    rw [rendering]
    split <;> exact .inr (.inr ⟨_, _, rfl, nofun, nofun⟩)
  | integer n =>
    rw [rendering]
    split <;> exact .inr (.inr ⟨_, _, rfl, nofun, nofun⟩)
  | unary op e => cases op <;> exact .inr (.inr ⟨_, _, rfl, nofun, nofun⟩)
  | call target f args =>
    cases target with
    | none => exact .inr (.inl ⟨f, _, rfl⟩)
    | some target => exact .inr (.inr ⟨_, _, rfl, nofun, nofun⟩)
  | _ => exact .inr (.inr ⟨_, _, rfl, nofun, nofun⟩)

theorem rendering_ne_nil (e : Expr) : e.rendering ≠ [] := by
  rcases e.rendering_shape with ⟨s, h⟩ | ⟨s, w, h⟩ | ⟨k, w, h, -⟩ <;>
    exact h ▸ List.cons_ne_nil _ _

end Expr

end Stencil

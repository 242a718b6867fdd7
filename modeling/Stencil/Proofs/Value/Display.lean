import Stencil.Builtin
import Stencil.Proofs.Expr.Nesting
import Stencil.Proofs.Expr.Spelling
import Stencil.Proofs.Value.Parts
import Stencil.Value.Display

/-!
# Displays that are expressions

Null, truth values, integers, strings, and arrays and objects of these are displayed as expressions
for themselves: what is displayed splits into tokens, these are parsed to a tree of literals, and
the value of the tree is a copy of the value. This is so as long as the containers are not nested
too deeply for the parser, and no longer.
-/

namespace Stencil

open Grammar (Word Literal Closes ahead)
open Stencil.Parser (Accepts Exceeds IsItem IsDeepItem)

namespace Value

/-- The values that expressions can write out. The least integer is none of them: its digits alone
are no integer. The names of an object count as strings, and no two of them are the same. -/
inductive IsReadable : Value → Prop
  | null : IsReadable null
  | boolean {b} : IsReadable (boolean b)
  | integer {n} : n ≠ Int64.minValue → IsReadable (integer n)
  | string {s} : IsPlain s → IsReadable (string s)
  | array {node items} : (∀ v ∈ items, IsReadable v) → IsReadable (array node items)
  | object {node members} : (Fields.names members).Nodup → (∀ m ∈ members, IsPlain m.1) →
      (∀ m ∈ members, IsReadable m.2) → IsReadable (object node members)

mutual

/-- How many values stand inside each other; a scalar is one level. -/
def levels : Value → Nat
  | array _ items => itemLevels items + 1
  | object _ members => memberLevels members + 1
  | _ => 1

def itemLevels : List Value → Nat
  | [] => 0
  | v :: vs => max v.levels (itemLevels vs)

def memberLevels : List (String × Value) → Nat
  | [] => 0
  | (_, v) :: ms => max v.levels (memberLevels ms)

end

mutual

/-- The tokens that a value is displayed as, and the tree of literals that they write. -/
def written : Value → Word × Expr
  | null => ([.null], .null)
  | boolean b => ([.boolean b], .boolean b)
  | integer n => (integerWord n, .integer n)
  | float x => ([.float x], .float x)
  | string s => ([.string s], .string s)
  | array _ items =>
    let parts := writtenItems items
    (.mark .openBracket :: commas (parts.map (·.1)) ++ [.mark .closeBracket],
      .array (parts.map (·.2)))
  | object _ members =>
    let parts := writtenMembers members
    (.mark .openBrace :: commas (parts.map (·.1)) ++ [.mark .closeBrace],
      .object (parts.map (·.2)))
  | lambda _ params body _ => ([], .lambda params body)
  | function name => ([.name name], .name name)

def writtenItems : List Value → List (Word × Expr)
  | [] => []
  | v :: vs => v.written :: writtenItems vs

def writtenMembers : List (String × Value) → List (Word × (String × Expr))
  | [] => []
  | (name, v) :: ms =>
    (.string name :: .mark .colon :: v.written.1, (name, v.written.2)) :: writtenMembers ms

end

theorem writtenItems_eq_map (items : List Value) : writtenItems items = items.map written := by
  induction items with
  | nil => rfl
  | cons v vs ih => rw [writtenItems, ih, List.map_cons]

theorem writtenMembers_eq_map (members : List (String × Value)) :
    writtenMembers members = members.map fun m =>
      (.string m.1 :: .mark .colon :: m.2.written.1, (m.1, m.2.written.2)) := by
  induction members with
  | nil => rfl
  | cons m ms ih => rw [writtenMembers, ih, List.map_cons]

theorem mem_writtenItems {items : List Value} {v : Value} (h : v ∈ items) :
    v.written ∈ writtenItems items := by
  rw [writtenItems_eq_map]
  exact List.mem_map_of_mem h

theorem mem_writtenMembers {members : List (String × Value)} {m : String × Value}
    (h : m ∈ members) :
    (.string m.1 :: .mark .colon :: m.2.written.1, m.1, m.2.written.2) ∈
      writtenMembers members := by
  rw [writtenMembers_eq_map]
  exact List.mem_map.mpr ⟨m, h, rfl⟩

theorem itemLevels_le_iff {items : List Value} {n : Nat} :
    itemLevels items ≤ n ↔ ∀ v ∈ items, v.levels ≤ n := by
  induction items with
  | nil => simp [itemLevels]
  | cons v vs ih => rw [itemLevels, Nat.max_le, ih, List.forall_mem_cons]

theorem memberLevels_le_iff {members : List (String × Value)} {n : Nat} :
    memberLevels members ≤ n ↔ ∀ m ∈ members, m.2.levels ≤ n := by
  induction members with
  | nil => simp [memberLevels]
  | cons m ms ih => rw [memberLevels, Nat.max_le, ih, List.forall_mem_cons]

theorem levels_pos (v : Value) : 0 < v.levels := by
  cases v <;> simp [levels]

/-- What is displayed splits into the tokens of the value. -/
theorem writes_display {v : Value} (h : v.IsReadable) : Writes v.written.1 v.display.toList := by
  induction h with
  | null => exact .null
  | boolean => exact .boolean _
  | integer hn => exact .integer hn
  | string hs => exact fun _ _ _ hw => hw.quoted hs
  | @array node items _ ih =>
    let part (v : Value) : Word × List Char := (v.written.1, v.display.toList)
    have hpart : ∀ v ∈ items, Writes (part v).1 (part v).2 := ih
    have := (Writes.commas (List.forall_mem_map.mpr hpart)).between .openBracket .closeBracket
      rfl rfl (Lexeme.isDelimited_cons rfl (by decide))
    simpa [written, writtenItems_eq_map, display, displayItems_eq_map, Mark.text,
      Function.comp_def, part] using this
  | @object node members _ hplain _ ih =>
    let part (m : String × Value) : Word × List Char :=
      (.string m.1 :: .mark .colon :: m.2.written.1,
        (Text.quoted m.1).toList ++ ':' :: m.2.display.toList)
    have hpart : ∀ m ∈ members, Writes (part m).1 (part m).2 := fun m hm =>
      Writes.member (hplain m hm) (ih m hm)
    have := (Writes.commas (List.forall_mem_map.mpr hpart)).between .openBrace .closeBrace
      rfl rfl (Lexeme.isDelimited_cons rfl (by decide))
    simpa [written, writtenMembers_eq_map, display, displayMembers_eq_map, Mark.text,
      Function.comp_def, part] using this

/-- An operand that is no part of a larger operation. -/
theorem accepts_operand {expr operand branch : Parser.Rule Expr} {w rest : Word} {e : Expr}
    (h : Accepts (Parser.prefixed expr operand) w e rest) (hrest : Closes (ahead rest)) :
    Accepts (Parser.choice (Parser.prefixed expr operand) branch) w e rest :=
  .choiceless (.bareOperation h (Parser.passes_of_closes hrest) (hrest.ne id)) hrest

/-- An atom that is no part of a larger operation. -/
theorem accepts_atom {expr operand branch : Parser.Rule Expr} {w rest : Word} {e : Expr}
    (h : Accepts (Parser.atom expr) w e rest)
    (hstart : Parser.startsPrefix (ahead (w ++ rest)) = false) (hrest : Closes (ahead rest)) :
    Accepts (Parser.choice (Parser.prefixed expr operand) branch) w e rest :=
  accepts_operand (.plain (.postfixed h hrest.startsSuffix_eq) hstart) hrest

/-- A minus in front of a number is part of it. -/
theorem accepts_integerOperand {expr operand : Parser.Rule Expr} {rest : Word} (n : Int64)
    (hsuffix : Grammar.startsSuffix (ahead rest) = false)
    (hbound : ∀ ts, Parser.kindsOf ts = rest → Parser.bound? ts = none) :
    Accepts (Parser.prefixed expr operand) (integerWord n) (.integer n) rest := by
  unfold integerWord
  split
  · have hliteral : Literal [.mark .minus, .integer (-n)] (.integer n) := by
      have := Literal.negativeInteger (-n)
      rwa [Int64.neg_neg] at this
    have hatom : Accepts (Parser.atom expr) [.mark .minus, .integer (-n)] (.integer n) rest :=
      .literal hliteral hbound
    exact .bare (.postfixed hatom hsuffix) nofun fun _ => ⟨_, rfl, rfl⟩
  · exact .plain (.postfixed (.literal (.integer n) hbound) hsuffix) rfl

theorem accepts_integer {expr operand branch : Parser.Rule Expr} {rest : Word} (n : Int64)
    (hrest : Closes (ahead rest)) :
    Accepts (Parser.choice (Parser.prefixed expr operand) branch) (integerWord n) (.integer n)
      rest := by
  refine accepts_operand (accepts_integerOperand n hrest.startsSuffix_eq fun ts hts => ?_) hrest
  exact Parser.bound?_eq_none (hts ▸ hrest.ne id)

/-- What a value is displayed as starts in no closing mark. -/
theorem exists_written {v : Value} (h : v.IsReadable) :
    ∃ k w, v.written.1 = k :: w ∧ k ≠ .mark .closeBracket ∧ k ≠ .mark .closeBrace := by
  cases h with
  | integer hn =>
    rw [written, integerWord]
    split <;> exact ⟨_, _, rfl, by simp, by simp⟩
  | _ => exact ⟨_, _, rfl, by simp, by simp⟩

theorem ahead_written {v : Value} (h : v.IsReadable) {closing : Mark}
    (hmark : closing = .closeBracket ∨ closing = .closeBrace) :
    v.written.1 ≠ [] ∧ ahead v.written.1 ≠ .mark closing := by
  obtain ⟨k, w, hw, hbracket, hbrace⟩ := exists_written h
  rw [hw]
  refine ⟨List.cons_ne_nil _ _, ?_⟩
  rcases hmark with rfl | rfl
  · exact hbracket
  · exact hbrace

/-- An item of a row, closed by a comma or by the end of the row. -/
theorem isItem_written {v : Value} (h : v.IsReadable) {closing : Mark}
    (hmark : closing = .closeBracket ∨ closing = .closeBrace) {expr : Parser.Rule Expr}
    (hexpr : ∀ {rest}, Closes (ahead rest) → Accepts expr v.written.1 v.written.2 rest) :
    IsItem expr closing v.written.1 v.written.2 := by
  obtain ⟨hne, hahead⟩ := ahead_written h hmark
  refine ⟨hne, hahead, fun rest hrest => hexpr ?_⟩
  rcases hrest with hrest | hrest <;> rw [hrest]
  · trivial
  · rcases hmark with rfl | rfl <;> trivial

/-- A name and a colon in front of an item make it a member. -/
theorem isItem_member {w : Word} {e : Expr} {expr : Parser.Rule Expr} {closing : Mark}
    (h : IsItem expr closing w e) (name : String) :
    IsItem (Parser.objectMember expr) closing (.string name :: .mark .colon :: w) (name, e) :=
  ⟨List.cons_ne_nil _ _, by simp, fun rest hrest => (h.2.2 rest hrest).objectMember⟩

theorem exists_depth {v : Value} {depth : Nat} (h : v.levels ≤ depth) : ∃ d, depth = d + 1 :=
  Nat.exists_eq_add_one.mpr (Nat.lt_of_lt_of_le v.levels_pos h)

/-- The tokens of a value are parsed to its tree, if there are levels for it. -/
theorem accepts_written {v : Value} (h : v.IsReadable) {limit depth : Nat}
    (hlevels : v.levels ≤ depth) {rest : Word} (hrest : Closes (ahead rest)) :
    Accepts (Parser.expression limit depth) v.written.1 v.written.2 rest := by
  induction h generalizing depth rest with
  | null =>
    obtain ⟨depth, rfl⟩ := exists_depth hlevels
    exact accepts_atom .null rfl hrest
  | boolean =>
    obtain ⟨depth, rfl⟩ := exists_depth hlevels
    exact accepts_atom .boolean rfl hrest
  | integer =>
    obtain ⟨depth, rfl⟩ := exists_depth hlevels
    exact accepts_integer _ hrest
  | string =>
    obtain ⟨depth, rfl⟩ := exists_depth hlevels
    exact accepts_atom .string rfl hrest
  | @array node items hitems ih =>
    obtain ⟨depth, rfl⟩ := exists_depth hlevels
    rw [levels, Nat.succ_le_succ_iff, itemLevels_le_iff] at hlevels
    have hparts : ∀ p ∈ writtenItems items,
        IsItem (Parser.expression limit depth) .closeBracket p.1 p.2 := by
      rw [writtenItems_eq_map, List.forall_mem_map]
      exact fun v hv => isItem_written (hitems v hv) (.inl rfl) (ih v hv (hlevels v hv))
    exact accepts_atom (.array hparts) rfl hrest
  | @object node members hnames hplain hmembers ih =>
    obtain ⟨depth, rfl⟩ := exists_depth hlevels
    rw [levels, Nat.succ_le_succ_iff, memberLevels_le_iff] at hlevels
    have hparts : ∀ p ∈ writtenMembers members,
        IsItem (Parser.objectMember (Parser.expression limit depth)) .closeBrace p.1 p.2 := by
      rw [writtenMembers_eq_map, List.forall_mem_map]
      intro m hm
      exact isItem_member (isItem_written (hmembers m hm) (.inr rfl) (ih m hm (hlevels m hm))) m.1
    exact accepts_atom (.object hparts) rfl hrest

theorem lt_itemLevels_iff {items : List Value} {n : Nat} :
    n < itemLevels items ↔ ∃ v ∈ items, n < v.levels := by
  rw [← Nat.not_le, itemLevels_le_iff]
  simp

theorem lt_memberLevels_iff {members : List (String × Value)} {n : Nat} :
    n < memberLevels members ↔ ∃ m ∈ members, n < m.2.levels := by
  rw [← Nat.not_le, memberLevels_le_iff]
  simp

/-- Where the levels do not suffice for a value, its tokens are turned down. -/
theorem exceeds_written {v : Value} (h : v.IsReadable) {limit depth : Nat}
    (hlevels : depth < v.levels) (rest : Word) :
    Exceeds limit (Parser.expression limit depth) (v.written.1 ++ rest) := by
  induction h generalizing depth rest with
  | @array node items hitems ih =>
    cases depth with
    | zero => exact .tooDeep
    | succ depth =>
      rw [levels, Nat.succ_lt_succ_iff, lt_itemLevels_iff] at hlevels
      have hdeep : ∀ v ∈ items, depth < v.levels →
          IsDeepItem limit (Parser.expression limit depth) .closeBracket v.written.1 := by
        intro v hv hlt
        obtain ⟨hne, hahead⟩ := ahead_written (hitems v hv) (.inl rfl)
        exact ⟨hne, hahead, ih v hv hlt⟩
      have hparts : ∀ p ∈ writtenItems items,
          IsItem (Parser.expression limit depth) .closeBracket p.1 p.2 ∨
          IsDeepItem limit (Parser.expression limit depth) .closeBracket p.1 := by
        rw [writtenItems_eq_map, List.forall_mem_map]
        intro v hv
        rcases Nat.lt_or_ge depth v.levels with hlt | hle
        · exact .inr (hdeep v hv hlt)
        · exact .inl (isItem_written (hitems v hv) (.inl rfl) (accepts_written (hitems v hv) hle))
      obtain ⟨v, hv, hlt⟩ := hlevels
      rw [written, List.append_assoc]
      exact .choice (.plain (.array hparts ⟨_, mem_writtenItems hv, hdeep v hv hlt⟩) rfl)
  | @object node members hnames hplain hmembers ih =>
    cases depth with
    | zero => exact .tooDeep
    | succ depth =>
      rw [levels, Nat.succ_lt_succ_iff, lt_memberLevels_iff] at hlevels
      have hdeep : ∀ m ∈ members, depth < m.2.levels →
          IsDeepItem limit (Parser.objectMember (Parser.expression limit depth)) .closeBrace
            (.string m.1 :: .mark .colon :: m.2.written.1) := fun m hm hlt =>
        ⟨List.cons_ne_nil _ _, by simp, fun rest => (ih m hm hlt rest).objectMember⟩
      have hparts : ∀ p ∈ writtenMembers members,
          IsItem (Parser.objectMember (Parser.expression limit depth)) .closeBrace p.1 p.2 ∨
          IsDeepItem limit (Parser.objectMember (Parser.expression limit depth)) .closeBrace
            p.1 := by
        rw [writtenMembers_eq_map, List.forall_mem_map]
        intro m hm
        rcases Nat.lt_or_ge depth m.2.levels with hlt | hle
        · exact .inr (hdeep m hm hlt)
        · refine .inl (isItem_member (isItem_written (hmembers m hm) (.inr rfl) ?_) m.1)
          exact accepts_written (hmembers m hm) hle
      obtain ⟨m, hm, hlt⟩ := hlevels
      rw [written, List.append_assoc]
      exact .choice (.plain (.object hparts ⟨_, mem_writtenMembers hm, hdeep m hm hlt⟩) rfl)
  | _ =>
    obtain rfl := Nat.lt_one_iff.mp hlevels
    exact .tooDeep

section

open Eval

variable {level : Level} {here : Trail} {scope : Scope}

theorem all_written {items : List Value}
    (h : ∀ v ∈ items, ∀ here, level.evaluate here v.written.2 scope = .ok v.deepCopy) (i : Nat) :
    level.all here scope i ((writtenItems items).map (·.2)) = .ok (copyItems items) := by
  induction items generalizing i with
  | nil => rfl
  | cons v vs ih =>
    obtain ⟨hv, hvs⟩ := List.forall_mem_cons.mp h
    rw [writtenItems, List.map_cons, Level.all, hv, ih hvs]
    rfl

theorem members_written {members : List (String × Value)}
    (h : ∀ m ∈ members, ∀ here, level.evaluate here m.2.written.2 scope = .ok m.2.deepCopy)
    (i : Nat) :
    level.members here scope i ((writtenMembers members).map (·.2)) =
      .ok (copyMembers members) := by
  induction members generalizing i with
  | nil => rfl
  | cons m ms ih =>
    obtain ⟨hm, hms⟩ := List.forall_mem_cons.mp h
    rw [writtenMembers, List.map_cons, Level.members, hm, ih hms]
    rfl

/-- The tree of a value evaluates to a copy of it in every scope, if there are levels for it. -/
theorem evaluate_written {v : Value} (h : v.IsReadable) {r : Registry} {limit depth : Nat}
    (hlevels : v.levels ≤ depth) {here : Trail} :
    Eval.evaluate r limit depth here v.written.2 scope = .ok v.deepCopy := by
  induction h generalizing depth here with
  | @array node items _ ih =>
    obtain ⟨depth, rfl⟩ := exists_depth hlevels
    rw [levels, Nat.succ_le_succ_iff, itemLevels_le_iff] at hlevels
    rw [written, Eval.evaluate, Level.expression,
      all_written (fun v hv _ => ih v hv (hlevels v hv)) 0]
    rfl
  | @object node members hnames _ _ ih =>
    obtain ⟨depth, rfl⟩ := exists_depth hlevels
    rw [levels, Nat.succ_le_succ_iff, memberLevels_le_iff] at hlevels
    have hcopy : (Fields.names (copyMembers members)).Nodup := by
      rwa [copyMembers_eq_map, Fields.names_map]
    rw [written, Eval.evaluate, Level.expression,
      members_written (fun m hm _ => ih m hm (hlevels m hm)) 0, deepCopy]
    exact congrArg (fun members => Except.ok (ofMembers members)) (Fields.ofList_of_nodup hcopy)
  | _ =>
    obtain ⟨depth, rfl⟩ := exists_depth hlevels
    rfl

end

theorem exists_tokens_display {v : Value} (h : v.IsReadable) :
    ∃ ts, tokenize v.display = .ok ts ∧ kindsBeforeEnd ts = v.written.1 := by
  have hspells : Spells v.written.1 v.display.toList := by
    have := writes_display h (show Lexeme.IsDelimited [] from nofun) .nil
    simpa using this
  exact hspells.exists_tokens

/-- What a readable value is displayed as is an expression, which in every scope has a value that
is like it, members in their order: a copy of it. -/
theorem run_display {v : Value} (hv : v.IsReadable) (hlevels : v.levels ≤ Parser.defaultLimit)
    (here : Trail) (scope : Scope) :
    Engine.standard.run here v.display scope = .ok v.deepCopy ∧ v.Alike v.deepCopy := by
  refine ⟨?_, alike_deepCopy v⟩
  obtain ⟨ts, htokens, hkinds⟩ := exists_tokens_display hv
  have hparse : parse ts Parser.defaultLimit = .ok v.written.2 := by
    apply parse_of_accepts
    rw [hkinds]
    exact accepts_written hv hlevels trivial
  have hsource : Expr.ofSource v.display = .ok v.written.2 :=
    bind_eq_ok.mpr ⟨ts, mapError_eq_ok.mpr htokens, mapError_eq_ok.mpr hparse⟩
  have hdepth : v.levels ≤ Engine.defaultLimit := le_trans hlevels (by decide)
  rw [Engine.run, hsource]
  exact evaluate_written hv hdepth

/-- Two levels of containers, with a sign, a quote, a control character and empty containers. -/
def ledger : Value :=
  .object (some 3)
    [("a\"b", .array none [.integer (-7), .string "x\x01\n", .null]),
      ("", .object none []),
      ("z", .array (some 5) [])]

theorem isReadable_ledger : ledger.IsReadable := by
  refine .object (by decide) (by decide +kernel) ?_
  simp only [List.forall_mem_cons]
  refine ⟨.array ?_, .object (by decide) nofun nofun, .array nofun, nofun⟩
  simp only [List.forall_mem_cons]
  exact ⟨.integer (by decide), .string (by decide +kernel), .null, nofun⟩

theorem run_display_ledger :
    ledger.display = "\x7b\"a\\\"b\":[-7,\"x\\u0001\\n\",null],\"\":\x7b\x7d,\"z\":[]\x7d" ∧
    ledger.IsReadable ∧ ledger.levels ≤ Parser.defaultLimit ∧
    Engine.standard.run [] ledger.display [] = .ok ledger.deepCopy ∧
    ledger.Alike ledger.deepCopy :=
  ⟨by decide +kernel, isReadable_ledger, by decide,
    run_display isReadable_ledger (by decide) [] []⟩

/-- With more levels than the parser allows, what the value is displayed as does not parse. -/
theorem run_display_of_deeper {v : Value} (hv : v.IsReadable)
    (hlevels : Parser.defaultLimit < v.levels) (here : Trail) (scope : Scope) :
    ∃ position, Engine.standard.run here v.display scope =
      .error (.parse (.tooDeep position Parser.defaultLimit)) := by
  obtain ⟨ts, htokens, hkinds⟩ := exists_tokens_display hv
  obtain ⟨position, hparse⟩ : ∃ position, parse ts Parser.defaultLimit =
      .error (.tooDeep position Parser.defaultLimit) := by
    apply parse_of_exceeds
    rw [hkinds, ← List.append_nil v.written.1]
    exact exceeds_written hv hlevels []
  refine ⟨position, ?_⟩
  rw [Engine.run, Expr.ofSource, htokens]
  simp only [Except.mapError, bind, Except.bind, hparse]

end Value

end Stencil

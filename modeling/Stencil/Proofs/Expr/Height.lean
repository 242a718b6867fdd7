import Mathlib.Logic.Function.Iterate
import Stencil.Proofs.Expr.RoundTrip

/-!
# How high trees are

Operators of one layer, and suffixes, are read in a row, and each is put on top of what has been
read before. The limit on nesting does not count them, so it does not bound the height of a tree. It
does bound how often a way down the tree enters another part of an expression than the one that an
operator or a suffix was put on. The rest of the way is rows of operators and suffixes.
-/

namespace Stencil

open Grammar

namespace Expr

/-- What an operator or a suffix has been put on. -/
def base? : Expr → Option Expr
  | binary _ left _ => some left
  | member e _ => some e
  | index e _ => some e
  | call target _ _ => target
  | _ => none

/-- The other expressions right inside. -/
def parts : Expr → List Expr
  | array items => items
  | object members => members.map (·.2)
  | range first last => [first, last]
  | unary _ e => [e]
  | binary _ _ right => [right]
  | conditional test yes no => [test, yes, no]
  | index _ i => [i]
  | call _ _ args => args
  | lambda _ body => [body]
  | _ => []

/-- A step from an expression to one right inside it. -/
inductive Step where
  | base
  | part
deriving DecidableEq

/-- The ways down the tree of an expression. -/
inductive Branch : Expr → List Step → Prop
  | here {e} : Branch e []
  | base {e b way} : e.base? = some b → Branch b way → Branch e (.base :: way)
  | part {e p way} : p ∈ e.parts → Branch p way → Branch e (.part :: way)

/-- No way down the tree has more than `n` steps. -/
def HeightWithin (n : Nat) (e : Expr) : Prop :=
  ∀ way, e.Branch way → way.length ≤ n

/-- No way down the tree enters more than `n` parts one inside the other. -/
def NestsWithin (n : Nat) (e : Expr) : Prop :=
  ∀ way, e.Branch way → way.count .part ≤ n

/-- On no way down the tree more than `n` operators and suffixes are put on each other in a row. -/
def RowsWithin (n : Nat) (e : Expr) : Prop :=
  ∀ way, e.Branch way → ∀ k, List.replicate k .base <:+: way → k ≤ n

theorem NestsWithin.mono {m n : Nat} {e : Expr} (h : NestsWithin m e) (hmn : m ≤ n) :
    NestsWithin n e :=
  fun way hway => Nat.le_trans (h way hway) hmn

theorem NestsWithin.of_parts {n : Nat} {e : Expr}
    (hbase : ∀ b, e.base? = some b → NestsWithin (n + 1) b)
    (hparts : ∀ p ∈ e.parts, NestsWithin n p) : NestsWithin (n + 1) e := by
  intro way hway
  cases hway with
  | here => exact Nat.zero_le _
  | base hb hway =>
    rw [List.count_cons_of_ne (by decide)]
    exact hbase _ hb _ hway
  | part hp hway =>
    rw [List.count_cons_self]
    exact Nat.succ_le_succ (hparts _ hp _ hway)

theorem Branch.eq_nil {e : Expr} (hbase : e.base? = none) (hparts : e.parts = [])
    {way : List Step} (h : e.Branch way) : way = [] := by
  cases h with
  | here => rfl
  | base hb _ => simp [hbase] at hb
  | part hp _ => simp [hparts] at hp

theorem NestsWithin.of_leaf {n : Nat} {e : Expr} (hbase : e.base? = none) (hparts : e.parts = []) :
    NestsWithin n e :=
  fun _ hway => hway.eq_nil hbase hparts ▸ Nat.zero_le _

theorem HeightWithin.of_leaf {n : Nat} {e : Expr} (hbase : e.base? = none) (hparts : e.parts = []) :
    HeightWithin n e :=
  fun _ hway => hway.eq_nil hbase hparts ▸ Nat.zero_le _

theorem HeightWithin.of_parts {n : Nat} {e : Expr}
    (hbase : ∀ b, e.base? = some b → HeightWithin n b) (hparts : ∀ p ∈ e.parts, HeightWithin n p) :
    HeightWithin (n + 1) e := by
  intro way hway
  cases hway with
  | here => exact Nat.zero_le _
  | base hb hway => exact Nat.succ_le_succ (hbase _ hb _ hway)
  | part hp hway => exact Nat.succ_le_succ (hparts _ hp _ hway)

theorem HeightWithin.rowsWithin {n : Nat} {e : Expr} (h : HeightWithin n e) : RowsWithin n e := by
  intro way hway k hk
  have hle := hk.length_le
  rw [List.length_replicate] at hle
  exact Nat.le_trans hle (h way hway)

/-- Behind the first row of operators and suffixes, each other one is behind a part. -/
theorem exists_row {c : Nat} {way : List Step}
    (h : ∀ k, List.replicate k .base <:+: way → k ≤ c) :
    ∃ k, List.replicate k .base <+: way ∧ way.count .base ≤ k + c * way.count .part := by
  induction way with
  | nil => exact ⟨0, List.nil_prefix, Nat.zero_le _⟩
  | cons s way ih =>
    have htail {w : List Step} (hw : w <:+: way) : w <:+: s :: way :=
      hw.trans (List.suffix_cons s way).isInfix
    obtain ⟨k, hk, hcount⟩ := ih fun k hk => h k (htail hk)
    cases s with
    | base =>
      refine ⟨k + 1, List.cons_prefix_cons.mpr ⟨rfl, hk⟩, ?_⟩
      rw [List.count_cons_self, List.count_cons_of_ne (by decide)]
      omega
    | part =>
      have hkc : k ≤ c := h k (htail hk.isInfix)
      refine ⟨0, List.nil_prefix, ?_⟩
      rw [List.count_cons_self, List.count_cons_of_ne (by decide), Nat.mul_succ]
      omega

theorem length_eq_count (way : List Step) : way.length = way.count .base + way.count .part := by
  induction way with
  | nil => rfl
  | cons s way ih => cases s <;> simp [ih] <;> omega

/-- Few parts inside each other and short rows make a low tree. -/
theorem NestsWithin.heightWithin {n c : Nat} {e : Expr} (h : NestsWithin n e)
    (hrows : RowsWithin c e) : HeightWithin (n + c * (n + 1)) e := by
  intro way hway
  obtain ⟨k, hk, hcount⟩ := exists_row (hrows way hway)
  have hkc : k ≤ c := hrows way hway k hk.isInfix
  have hparts : way.count .part ≤ n := h way hway
  calc way.length = way.count .base + way.count .part := length_eq_count way
    _ ≤ k + c * way.count .part + way.count .part := Nat.add_le_add_right hcount _
    _ ≤ c + c * n + n :=
      Nat.add_le_add (Nat.add_le_add hkc (Nat.mul_le_mul_left c hparts)) hparts
    _ = n + c * (n + 1) := by rw [Nat.mul_succ]; omega

end Expr

namespace Parser

open Stencil.Expr (NestsWithin)

variable {α β : Type}

/-- Whatever a rule returns is as said. -/
def Returns (Q : α → Prop) (rule : Rule α) : Prop :=
  ∀ ts a ts', rule.run ts = .ok (a, ts') → Q a

namespace Returns

variable {Q : α → Prop} {R : β → Prop}

theorem pure {a : α} (h : Q a) : Returns Q (pure a) := by
  intro ts b ts' hrun
  obtain ⟨rfl, -⟩ := run_pure_eq_ok.mp hrun
  exact h

theorem fail (expected : String) : Returns Q (Parser.fail expected) :=
  nofun

theorem bind {x : Rule α} {f : α → Rule β} (hx : Returns Q x)
    (hf : ∀ a, Q a → Returns R (f a)) : Returns R (x >>= f) := by
  intro ts b ts' hrun
  obtain ⟨a, ts₁, ha, hb⟩ := run_bind_eq_ok.mp hrun
  exact hf a (hx ts a ts₁ ha) ts₁ b ts' hb

/-- Whatever the first step does. -/
theorem behind {x : Rule α} {f : α → Rule β} (hf : ∀ a, Returns R (f a)) : Returns R (x >>= f) :=
  bind (Q := fun _ => True) (fun _ _ _ _ => trivial) fun a _ => hf a

theorem map {x : Rule α} {f : α → β} (hx : Returns Q x) (hf : ∀ a, Q a → R (f a)) :
    Returns R (do return f (← x)) :=
  bind hx fun a ha => pure (hf a ha)

end Returns

section

variable {n : Nat} {expr operand branch : Rule Expr}

theorem chain_returns {level : Level} (h : Returns (NestsWithin n) operand) {fuel : List Token}
    {left : Expr} (hleft : NestsWithin (n + 1) left) :
    Returns (NestsWithin (n + 1)) (chain level operand fuel left) := by
  induction fuel generalizing left with
  | nil => exact .pure hleft
  | cons t fuel ih =>
    refine .behind fun o => ?_
    split
    · exact .pure hleft
    · refine .behind fun _ => .bind h fun right hright => ih (.of_parts ?_ ?_)
      · rintro _ ⟨⟩
        exact hleft
      · simpa [Expr.parts] using hright

theorem leftAssoc_returns {level : Level} (h : Returns (NestsWithin n) operand) :
    Returns (NestsWithin (n + 1)) (leftAssoc level operand) :=
  .bind h fun _ hleft => .behind fun _ => chain_returns h (hleft.mono (Nat.le_succ n))

theorem rangeOf_returns (h : Returns (NestsWithin n) operand) :
    Returns (NestsWithin (n + 1)) (rangeOf operand) := by
  refine .bind h fun first hfirst => .behind fun range => ?_
  split
  · refine .behind fun _ => .map h fun last hlast => .of_parts nofun ?_
    simpa [Expr.parts] using ⟨hfirst, hlast⟩
  · exact .pure (hfirst.mono (Nat.le_succ n))

theorem operation_returns (h : Returns (NestsWithin n) operand) :
    Returns (NestsWithin (n + 7)) (operation operand) :=
  leftAssoc_returns <| leftAssoc_returns <| leftAssoc_returns <| leftAssoc_returns <|
    rangeOf_returns <| leftAssoc_returns <| leftAssoc_returns h

theorem choice_returns (hoperand : Returns (NestsWithin n) operand)
    (hbranch : Returns (NestsWithin n) branch) :
    Returns (NestsWithin (n + 8)) (choice operand branch) := by
  refine .bind (operation_returns hoperand) fun test htest => .behind fun question => ?_
  split
  · refine .behind fun _ => .bind hbranch fun yes hyes => .behind fun _ => ?_
    refine .map hbranch fun no hno => .of_parts nofun ?_
    simpa [Expr.parts] using
      ⟨htest, hyes.mono (Nat.le_add_right n 7), hno.mono (Nat.le_add_right n 7)⟩
  · exact .pure (htest.mono (Nat.le_succ _))

theorem items_returns {Q : α → Prop} {item : Rule α} (h : Returns Q item) (closing : Mark)
    (orClosing : String) (fuel : List Token) :
    Returns (fun as => ∀ a ∈ as, Q a) (items closing orClosing item fuel) := by
  induction fuel with
  | nil => exact .fail orClosing
  | cons t fuel ih =>
    refine .behind fun closed => ?_
    split
    · exact .behind fun _ => .pure nofun
    · refine .bind h fun a ha => .behind fun closed => ?_
      split
      · exact .behind fun _ => .pure (by simpa using ha)
      · exact .behind fun _ => .map ih fun as has => List.forall_mem_cons.mpr ⟨ha, has⟩

theorem list_returns {Q : α → Prop} {item : Rule α} (h : Returns Q item) (closing : Mark)
    (orClosing : String) : Returns (fun as => ∀ a ∈ as, Q a) (list closing orClosing item) :=
  .behind fun _ => .behind fun _ => items_returns h closing orClosing _

theorem objectMember_returns {Q : Expr → Prop} (h : Returns Q expr) :
    Returns (fun member => Q member.2) (objectMember expr) := by
  refine .behind fun k => ?_
  dsimp only
  split
  · exact .behind fun _ => .behind fun _ => .behind fun _ => .map h fun _ he => he
  · exact .behind fun _ => .behind fun _ => .behind fun _ => .map h fun _ he => he
  · exact .behind fun _ => .behind fun _ => .map h fun _ he => he

theorem nests_of_literal {w : Word} {e : Expr} (h : Literal w e) : NestsWithin n e := by
  cases h <;> exact .of_leaf rfl rfl

theorem nests_of_numeral {w rest : Word} {e : Expr} (h : Numeral w e rest) :
    NestsWithin (n + 1) e := by
  cases h with
  | literal h _ => exact nests_of_literal h
  | range hfirst hlast _ =>
    refine .of_parts nofun ?_
    simpa [Expr.parts] using ⟨nests_of_literal hfirst, nests_of_literal hlast⟩

theorem named_returns (h : Returns (NestsWithin n) expr) (name : String) :
    Returns (NestsWithin (n + 1)) (named expr name) := by
  refine .behind fun _ => .behind fun k => ?_
  split
  · refine .behind fun _ => .map h fun body hbody => .of_parts nofun ?_
    simpa [Expr.parts] using hbody
  · exact .map (list_returns h _ _) fun args hargs => .of_parts nofun hargs
  · exact .pure (.of_leaf rfl rfl)

theorem parenthesised_returns (h : Returns (NestsWithin n) expr) :
    Returns (NestsWithin (n + 1)) (parenthesised expr) := by
  refine .behind fun _ => .behind fun ts => ?_
  split
  · refine .behind fun _ => .map h fun body hbody => .of_parts nofun ?_
    simpa [Expr.parts] using hbody
  · exact .bind h fun e he => .behind fun _ => .pure (he.mono (Nat.le_succ n))

theorem atom_returns (h : Returns (NestsWithin n) expr) :
    Returns (NestsWithin (n + 1)) (atom expr) := by
  refine .behind fun ts => ?_
  split
  · rename_i e rest hnumeral
    obtain ⟨taken, -, hnumber⟩ := numeral?_eq_some_iff.mp hnumeral
    exact .behind fun _ => .pure (nests_of_numeral hnumber)
  · split
    case h_1 | h_2 | h_3 => exact .behind fun _ => .pure (.of_leaf rfl rfl)
    case h_4 name _ => exact named_returns h name
    case h_5 => exact parenthesised_returns h
    case h_6 => exact .map (list_returns h _ _) fun items hitems => .of_parts nofun hitems
    case h_7 =>
      refine .map (list_returns (objectMember_returns h) _ _) fun members hmembers => ?_
      exact .of_parts nofun (List.forall_mem_map.mpr hmembers)
    case h_8 => exact .fail _

theorem suffixes_returns (h : Returns (NestsWithin n) expr) {fuel : List Token} {e : Expr}
    (he : NestsWithin (n + 1) e) : Returns (NestsWithin (n + 1)) (suffixes expr fuel e) := by
  induction fuel generalizing e with
  | nil => exact .pure he
  | cons t fuel ih =>
    -- what the suffix has been put on is the base of the new tree
    have hbase {e' : Expr} (hparts : ∀ p ∈ e'.parts, NestsWithin n p)
        (hbase : e'.base? = some e) : NestsWithin (n + 1) e' := by
      refine .of_parts (fun b hb => ?_) hparts
      obtain rfl := Option.some.inj (hbase.symm.trans hb)
      exact he
    refine .behind fun k => ?_
    split
    · refine .behind fun _ => .behind fun name => .behind fun call => ?_
      split
      · exact .bind (list_returns h _ _) fun args hargs => ih (hbase hargs rfl)
      · exact ih (hbase nofun rfl)
    · refine .behind fun _ => .bind h fun i hi => .behind fun _ => ih (hbase ?_ rfl)
      simpa [Expr.parts] using hi
    · exact .pure he

theorem prefixed_returns (hexpr : Returns (NestsWithin n) expr)
    (hoperand : Returns (NestsWithin n) operand) :
    Returns (NestsWithin (n + 1)) (prefixed expr operand) := by
  refine .behind fun ts => ?_
  split
  · refine .behind fun _ => .map hoperand fun e he => .of_parts nofun ?_
    simpa [Expr.parts] using he
  · exact .bind (atom_returns hexpr) fun e he => .behind fun _ => suffixes_returns hexpr he

end

/-- Within one level there are a conditional, six layers of operators, a range, and what is around
the next level. -/
theorem expression_returns (limit depth : Nat) :
    Returns (NestsWithin (9 * depth)) (expression limit depth) ∧
      Returns (NestsWithin (9 * depth)) (operand limit depth) := by
  induction depth with
  | zero => exact ⟨nofun, nofun⟩
  | succ depth ih =>
    have hprefixed := prefixed_returns ih.1 ih.2
    have hexpr : Returns (NestsWithin (9 * depth + 1)) (expression limit depth) :=
      fun ts e ts' hrun => (ih.1 ts e ts' hrun).mono (Nat.le_succ _)
    refine ⟨choice_returns hprefixed hexpr, fun ts e ts' hrun => ?_⟩
    exact (hprefixed ts e ts' hrun).mono (by omega)

end Parser

/-- What an expression nests is bounded by the limit alone: however many tokens there are, no way
down a parsed tree enters more than so many parts. The tree is as high as these and its rows of
operators and suffixes are. -/
theorem height_of_parse {tokens : List Token} {limit : Nat} {e : Expr}
    (h : parse tokens limit = .ok e) :
    e.NestsWithin (9 * limit) ∧
      ∀ c, e.RowsWithin c → e.HeightWithin (9 * limit + c * (9 * limit + 1)) := by
  obtain ⟨⟨e, ts⟩, hrun, rfl⟩ := map_eq_ok.mp h
  obtain ⟨e, ts₁, he, hrun⟩ := Parser.run_bind_eq_ok.mp hrun
  have hnests := (Parser.expression_returns limit limit).1 _ e ts₁ he
  rw [Parser.run_peek_bind] at hrun
  split at hrun
  · obtain ⟨rfl, -⟩ := Parser.run_pure_eq_ok.mp hrun
    exact ⟨hnests, fun c hrows => hnests.heightWithin hrows⟩
  · exact absurd hrun (Parser.run_fail_ne_ok _)

/-- The tokens of `[x.y + 1]`. -/
def shortRowTokens : List Token :=
  [.mark .openBracket, .name "x", .mark .dot, .name "y", .mark .plus, .integer 1,
    .mark .closeBracket].map fun k => ⟨k, "", 0⟩

def shortRowTree : Expr :=
  .array [.binary (.arith .add) (.member (.name "x") "y") (.integer 1)]

theorem height_of_shortRowTokens :
    parse shortRowTokens 2 = .ok shortRowTree ∧ shortRowTree.RowsWithin 3 ∧
      shortRowTree.NestsWithin 18 ∧ shortRowTree.HeightWithin (18 + 3 * 19) := by
  have hparse : parse shortRowTokens 2 = .ok shortRowTree := rfl
  have hname : (Expr.name "x").HeightWithin 0 := .of_leaf rfl rfl
  have hmember : (Expr.member (.name "x") "y").HeightWithin 1 :=
    .of_parts (by rintro _ ⟨⟩; exact hname) (by simp [Expr.parts])
  have hsum :
      (Expr.binary (.arith .add) (.member (.name "x") "y") (.integer 1)).HeightWithin 2 := by
    refine .of_parts (by rintro _ ⟨⟩; exact hmember) ?_
    simpa [Expr.parts] using Expr.HeightWithin.of_leaf rfl rfl
  have hrows : shortRowTree.RowsWithin 3 := by
    rw [shortRowTree]
    refine (Expr.HeightWithin.of_parts ?_ ?_).rowsWithin
    · simp [Expr.base?]
    · simpa [Expr.parts] using hsum
  obtain ⟨hnests, hheight⟩ := height_of_parse hparse
  exact ⟨hparse, hrows, hnests, hheight 3 hrows⟩

namespace Parser

section

variable {op : BinaryOp} {operand : Rule Expr} {w rest : Word} {left right : Expr} {n : Nat}

theorem Accepts.chain_replicate (hnext : ∀ v, Accepts operand w right (.mark op.mark :: v))
    (hlast : Accepts operand w right rest) (hrest : Passes op.layer rest) {fuel : List Token}
    (hfuel : n ≤ fuel.length) :
    Accepts (Parser.chain (levelOf op.layer) operand fuel left)
      (List.replicate n (.mark op.mark :: w)).flatten ((fun e => .binary op e right)^[n] left)
      rest := by
  induction n generalizing fuel left with
  | zero => exact .chain hrest fuel
  | succ n ih =>
    obtain ⟨t, fuel, rfl⟩ := List.exists_cons_of_length_pos (Nat.lt_of_lt_of_le n.succ_pos hfuel)
    rw [List.replicate_succ, List.flatten_cons, Function.iterate_succ_apply]
    refine .operator?_some (.advance (.bind ?_ (ih (Nat.le_of_succ_le_succ hfuel))))
    cases n with
    | zero => exact hlast
    | succ n => exact hnext _

/-- A row of one operator, as long as one likes. -/
theorem Accepts.leftAssoc_replicate (hnext : ∀ v, Accepts operand w right (.mark op.mark :: v))
    (hlast : Accepts operand w right rest) (hrest : Passes op.layer rest) :
    Accepts (Parser.leftAssoc (levelOf op.layer) operand)
      (w ++ (List.replicate n (.mark op.mark :: w)).flatten)
      ((fun e => .binary op e right)^[n] right) rest := by
  have hfirst :
      Accepts operand w right ((List.replicate n (.mark op.mark :: w)).flatten ++ rest) := by
    cases n with
    | zero => exact hlast
    | succ n => exact hnext _
  refine .bind hfirst (.get fun ts hts => .chain_replicate hnext hlast hrest ?_)
  have hlength := congrArg List.length hts
  simp only [Input.kinds, List.length_map, List.length_append, List.length_flatten,
    List.map_replicate, List.length_cons, List.sum_replicate, smul_eq_mul, Nat.mul_succ] at hlength
  omega

end

end Parser

/-- The row of `1 + 1 + … + 1` with `n` operators. -/
def sumWord (n : Nat) : Word :=
  [.integer 1] ++ (List.replicate n [.mark .plus, .integer 1]).flatten

def sumTokens (n : Nat) : List Token :=
  (sumWord n).map fun k => ⟨k, "", 0⟩

def sumTree (n : Nat) : Expr :=
  (fun e => .binary (.arith .add) e (.integer 1))^[n] (.integer 1)

theorem isEnd_of_mem_sumWord {n : Nat} {k : Token.Kind} (h : k ∈ sumWord n) : k.isEnd = false := by
  simp only [sumWord, List.singleton_append, List.mem_cons, List.mem_flatten,
    List.mem_replicate] at h
  rcases h with rfl | ⟨_, ⟨-, rfl⟩, h⟩
  · rfl
  · rcases List.mem_cons.mp h with rfl | h
    · rfl
    · rw [List.mem_singleton.mp h]
      rfl

theorem kindsBeforeEnd_sumTokens (n : Nat) : kindsBeforeEnd (sumTokens n) = sumWord n := by
  have hkinds : (sumTokens n).map Token.kind = sumWord n := by
    rw [sumTokens, List.map_map]
    exact List.map_id _
  rw [kindsBeforeEnd, hkinds, List.takeWhile_eq_self_iff]
  exact fun k hk => by rw [isEnd_of_mem_sumWord hk]; rfl

theorem accepts_one {rest : Word} (hrange : ahead rest ≠ .mark .range)
    (hsuffix : startsSuffix (ahead rest) = false) (hrest : Parser.Passes .product rest) :
    Parser.Accepts (Parser.operandRule (Parser.operand 1 1) .sum) [.integer 1] (.integer 1) rest :=
  Parser.Accepts.leftAssoc (.plain (.postfixed (.number (.integer 1) hrange) hsuffix) rfl) hrest

theorem parse_sumTokens (n : Nat) : parse (sumTokens n) 1 = .ok (sumTree n) := by
  have hend : Closes (ahead []) := trivial
  have hpass := Parser.passes_of_closes hend
  have hnext (v : Word) : Parser.Accepts (Parser.operandRule (Parser.operand 1 1) .sum)
      [.integer 1] (.integer 1) (.mark (BinaryOp.arith .add).mark :: v) :=
    accepts_one nofun rfl (Parser.passes_of_ne (by decide) v)
  have hsum := Parser.Accepts.leftAssoc_replicate (n := n) hnext
    (accepts_one (hend.ne id) rfl (hpass .product)) (hpass .sum)
  have hexpr : Parser.Accepts (Parser.expression 1 1) (sumWord n) (sumTree n) [] :=
    .choiceless (hsum.operation hpass (hend.ne id)) hend
  rw [← kindsBeforeEnd_sumTokens] at hexpr
  exact parse_of_accepts hexpr

theorem branch_sumTree (n : Nat) : (sumTree n).Branch (List.replicate n .base) := by
  induction n with
  | zero => exact .here
  | succ n ih =>
    rw [sumTree, Function.iterate_succ_apply']
    exact .base rfl ih

/-- The limit alone does not bound the height of a tree. -/
theorem no_height_bound : ¬ ∃ bound : Nat → Nat, ∀ tokens limit e,
    parse tokens limit = .ok e → e.HeightWithin (bound limit) := by
  rintro ⟨bound, h⟩
  have hlow := h _ 1 _ (parse_sumTokens (bound 1 + 1)) _ (branch_sumTree _)
  rw [List.length_replicate] at hlow
  exact Nat.not_succ_le_self _ hlow

end Stencil

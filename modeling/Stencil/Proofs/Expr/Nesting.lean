import Stencil.Proofs.Expr.RoundTrip

/-!
# What is nested too deeply

A rule that has no level left fails wherever it stands. The rules around it fail with it: nothing
is read behind a part that is nested too deeply, and what stands in front of it is accepted.
-/

namespace Stencil

open Grammar

namespace Parser

variable {α β : Type} {limit : Nat} {w rest : Word}

/-- The rule runs out of levels, where these kinds are ahead. -/
def Exceeds (limit : Nat) (rule : Rule α) (w : Word) : Prop :=
  ∀ ts : Input, ts.kinds = w → ∃ position, rule.run ts = .error (.tooDeep position limit)

namespace Exceeds

theorem tooDeep : Exceeds limit (Parser.tooDeep limit : Rule α) w :=
  fun ts _ => ⟨ts.position, rfl⟩

/-- Nothing is done behind a failure. -/
theorem bind {x : Rule α} {f : α → Rule β} (h : Exceeds limit x w) : Exceeds limit (x >>= f) w := by
  intro ts hts
  obtain ⟨position, hrun⟩ := h ts hts
  refine ⟨position, ?_⟩
  rw [StateT.run_bind, hrun]
  rfl

/-- The failure stands behind what is accepted. -/
theorem behind {x : Rule α} {f : α → Rule β} {v : Word} {a : α} (hx : Accepts x v a w)
    (hf : Exceeds limit (f a) w) : Exceeds limit (x >>= f) (v ++ w) := by
  intro ts hts
  obtain ⟨ts', hts', hrun⟩ := hx ts hts
  obtain ⟨position, hfails⟩ := hf ts' hts'
  refine ⟨position, ?_⟩
  rw [StateT.run_bind, hrun]
  exact hfails

theorem get {f : Input → Rule β} (h : ∀ ts : Input, ts.kinds = w → Exceeds limit (f ts) w) :
    Exceeds limit (MonadState.get >>= f) w :=
  fun ts hts => h ts hts ts hts

theorem peek {f : Token.Kind → Rule β} (h : Exceeds limit (f (ahead w)) w) :
    Exceeds limit (Parser.peek >>= f) w := by
  intro ts hts
  rw [run_peek_bind, ts.kind_eq, hts]
  exact h ts hts

theorem atMark_other {m : Mark} {f : Bool → Rule β} (hm : ahead w ≠ .mark m)
    (h : Exceeds limit (f false) w) : Exceeds limit (Parser.atMark m >>= f) w := by
  intro ts hts
  have hmark : (ahead w).isMark m = false := by rwa [← Bool.not_eq_true, isMark_iff]
  rw [run_atMark_bind, ts.kind_eq, hts, hmark]
  exact h ts hts

theorem advance {f : Unit → Rule β} {k : Token.Kind} (h : Exceeds limit (f ()) w) :
    Exceeds limit (Parser.advance >>= f) (k :: w) := by
  intro ts hts
  exact h ts.tail (by rw [ts.kinds_tail, hts, List.tail_cons])

theorem expect {m : Mark} {expected : String} {f : Unit → Rule β} (h : Exceeds limit (f ()) w) :
    Exceeds limit (Parser.expect m expected >>= f) (.mark m :: w) := by
  intro ts hts
  obtain ⟨hkind, htail⟩ := Input.kind_of_kinds hts
  obtain ⟨position, hfails⟩ := h ts.tail htail
  have hmark : (Parser.expect m expected).run ts = .ok ((), ts.tail) := by
    rw [Parser.expect, run_atMark_bind, if_pos (isMark_iff.mpr hkind)]
    rfl
  refine ⟨position, ?_⟩
  rw [StateT.run_bind, hmark]
  exact hfails

end Exceeds

/-- A word in which an item of a list is nested too deeply. -/
def IsDeepItem (limit : Nat) (item : Rule α) (closing : Mark) (w : Word) : Prop :=
  w ≠ [] ∧ ahead w ≠ .mark closing ∧ ∀ rest, Exceeds limit item (w ++ rest)

theorem ahead_append {v : Word} (h : v ≠ []) (w : Word) : ahead (v ++ w) = ahead v := by
  obtain ⟨k, v, rfl⟩ := List.exists_cons_of_ne_nil h
  rfl

theorem exists_commas_cons (v : Word) (ws : List Word) (rest : Word) :
    ∃ behind, commas (v :: ws) ++ rest = v ++ behind := by
  by_cases hws : ws = []
  · exact ⟨rest, by simp [hws, commas]⟩
  · refine ⟨.mark .comma :: commas ws ++ rest, ?_⟩
    rw [commas_cons v hws, List.append_assoc]

namespace Exceeds

/-- The first item that is nested too deeply stands behind items that are accepted. -/
theorem items {item : Rule α} {closing : Mark} {orClosing : String} (hclosing : closing ≠ .comma)
    {parts : List (Word × α)}
    (hparts : ∀ p ∈ parts, IsItem item closing p.1 p.2 ∨ IsDeepItem limit item closing p.1)
    (hdeep : ∃ p ∈ parts, IsDeepItem limit item closing p.1) {fuel : List Token}
    (hfuel : parts.length ≤ fuel.length) :
    Exceeds limit (Parser.items closing orClosing item fuel)
      (commas (parts.map (·.1)) ++ rest) := by
  induction parts generalizing fuel with
  | nil =>
    obtain ⟨_, hnil, _⟩ := hdeep
    cases hnil
  | cons p parts ih =>
    have hpos : 0 < fuel.length := Nat.lt_of_lt_of_le (Nat.succ_pos _) hfuel
    obtain ⟨t, fuel, rfl⟩ := List.exists_cons_of_length_pos hpos
    obtain ⟨hp, hparts⟩ := List.forall_mem_cons.mp hparts
    by_cases hfirst : IsDeepItem limit item closing p.1
    · obtain ⟨hne, hahead, hfails⟩ := hfirst
      obtain ⟨behind, hword⟩ := exists_commas_cons p.1 (parts.map (·.1)) rest
      rw [List.map_cons, hword]
      exact .atMark_other (ahead_append hne _ ▸ hahead) (.bind (hfails behind))
    · obtain ⟨hne, hahead, hitem⟩ := hp.resolve_right hfirst
      obtain ⟨q, hq, hqdeep⟩ : ∃ q ∈ parts, IsDeepItem limit item closing q.1 := by
        obtain ⟨q, hq, hqdeep⟩ := hdeep
        rcases List.mem_cons.mp hq with rfl | hq
        · exact absurd hqdeep hfirst
        · exact ⟨q, hq, hqdeep⟩
      have hword : commas ((p :: parts).map (·.1)) ++ rest =
          p.1 ++ .mark .comma :: (commas (parts.map (·.1)) ++ rest) := by
        rw [List.map_cons, commas_cons _ (by simpa using List.ne_nil_of_mem hq), List.append_assoc,
          List.cons_append]
      rw [hword]
      refine .atMark_other (ahead_append hne _ ▸ hahead) (.behind (hitem _ (.inl rfl)) ?_)
      refine .atMark_other (by simpa using hclosing.symm) (.expect (.bind ?_))
      exact ih hparts ⟨q, hq, hqdeep⟩ (Nat.le_of_succ_le_succ hfuel)

theorem list {item : Rule α} {opening closing : Mark} {orClosing : String}
    (hclosing : closing ≠ .comma) {parts : List (Word × α)}
    (hparts : ∀ p ∈ parts, IsItem item closing p.1 p.2 ∨ IsDeepItem limit item closing p.1)
    (hdeep : ∃ p ∈ parts, IsDeepItem limit item closing p.1) :
    Exceeds limit (Parser.list closing orClosing item)
      (.mark opening :: (commas (parts.map (·.1)) ++ rest)) := by
  refine .get fun ts hts => .advance (.items hclosing hparts hdeep ?_)
  have hlength : ts.tokens.length = ts.kinds.length := (List.length_map _).symm
  have hcommas := length_le_commas (parts.map (·.1))
  rw [List.length_map] at hcommas
  rw [hlength, hts]
  simp only [List.length_cons, List.length_append]
  omega

section

variable {expr operand unary branch : Rule Expr}

theorem array {parts : List (Word × Expr)}
    (hparts : ∀ p ∈ parts, IsItem expr .closeBracket p.1 p.2 ∨
      IsDeepItem limit expr .closeBracket p.1)
    (hdeep : ∃ p ∈ parts, IsDeepItem limit expr .closeBracket p.1) :
    Exceeds limit (atom expr) (.mark .openBracket :: (commas (parts.map (·.1)) ++ rest)) := by
  refine .get fun ts hts => ?_
  rw [numeral?_eq_none (by simp [hts]) (by simp [hts, isNumber]), ts.kind_eq, hts]
  exact .bind (.list (by decide) hparts hdeep)

theorem object {parts : List (Word × (String × Expr))}
    (hparts : ∀ p ∈ parts, IsItem (objectMember expr) .closeBrace p.1 p.2 ∨
      IsDeepItem limit (objectMember expr) .closeBrace p.1)
    (hdeep : ∃ p ∈ parts, IsDeepItem limit (objectMember expr) .closeBrace p.1) :
    Exceeds limit (atom expr) (.mark .openBrace :: (commas (parts.map (·.1)) ++ rest)) := by
  refine .get fun ts hts => ?_
  rw [numeral?_eq_none (by simp [hts]) (by simp [hts, isNumber]), ts.kind_eq, hts]
  exact .bind (.list (by decide) hparts hdeep)

theorem objectMember {s : String} (h : Exceeds limit expr w) :
    Exceeds limit (Parser.objectMember expr) (.string s :: .mark .colon :: w) :=
  .peek (.advance (.behind (.pure s) (.expect (.bind h))))

theorem plain (h : Exceeds limit (atom expr) w) (hstart : startsPrefix (ahead w) = false) :
    Exceeds limit (prefixed expr operand) w := by
  refine .get fun ts hts => ?_
  have hnone : prefixOp? ts = none := by
    rw [Option.eq_none_iff_forall_ne_some]
    intro op hop
    rw [prefixOp?_eq_some_iff, ts.kind_eq, hts] at hop
    rcases hop with ⟨-, hkind⟩ | ⟨-, hkind, -⟩ <;> rw [hkind] at hstart <;> cases hstart
  rw [hnone]
  exact .bind h

theorem leftAssoc {level : Level} (h : Exceeds limit unary w) :
    Exceeds limit (Parser.leftAssoc level unary) w :=
  .bind h

theorem choice (h : Exceeds limit unary w) : Exceeds limit (Parser.choice unary branch) w := by
  have hrange : Exceeds limit (rangeOf (Parser.leftAssoc sum (Parser.leftAssoc product unary))) w :=
    .bind h.leftAssoc.leftAssoc
  exact .bind hrange.leftAssoc.leftAssoc.leftAssoc.leftAssoc

end

end Exceeds

end Parser

/-- Where the rule of expressions runs out of levels, the parser fails. -/
theorem parse_of_exceeds {tokens : List Token} {limit : Nat}
    (h : Parser.Exceeds limit (Parser.expression limit limit) (kindsBeforeEnd tokens)) :
    ∃ position, parse tokens limit = .error (.tooDeep position limit) := by
  have hwhole : Parser.Exceeds limit (Parser.whole limit) (kindsBeforeEnd tokens) := .bind h
  obtain ⟨position, hrun⟩ := hwhole _ (Parser.Input.kinds_ofTokens tokens)
  refine ⟨position, ?_⟩
  rw [parse, StateT.run'_eq, hrun]
  rfl

end Stencil

import Stencil.Proofs.Value.Display

/-!
# Ranges

Two integers with `..` between them are an expression for the integers from the first to the second,
both included. Digits before the dots are a number of their own, and a minus in front of either
integer belongs to it.
-/

namespace Stencil

open Grammar (Word Literal)
open Stencil.Parser (Accepts)

/-- How an integer of the way from one to another differs from the one before. -/
def stride (first last : Int64) : Int :=
  if first.toInt ≤ last.toInt then 1 else -1

/-- The integers on the way from one to another, both included. -/
def walk (first last : Int64) : List Int64 :=
  (List.range ((last.toInt - first.toInt).natAbs + 1)).map fun i : Nat =>
    Int64.ofInt (first.toInt + stride first last * i)

section

variable {first last : Int64}

theorem stride_mul_natAbs :
    stride first last * (last.toInt - first.toInt).natAbs = last.toInt - first.toInt := by
  rw [stride]
  split <;> omega

theorem rangeItems_toInt :
    Value.rangeItems first.toInt last.toInt = (walk first last).map .integer := by
  rw [Value.rangeItems, walk, stride, List.map_map]
  split
  · have hcount : (last.toInt - first.toInt + 1).toNat =
        (last.toInt - first.toInt).natAbs + 1 := by
      omega
    simp [hcount, Function.comp_def]
  · have hcount : (first.toInt - last.toInt + 1).toNat =
        (last.toInt - first.toInt).natAbs + 1 := by
      omega
    simp only [hcount, Function.comp_def, neg_one_mul, ← sub_eq_add_neg]

theorem length_walk : (walk first last).length = (last.toInt - first.toInt).natAbs + 1 := by
  simp [walk]

theorem head?_walk : (walk first last).head? = some first := by
  simp [walk, List.range_succ_eq_map]

theorem getLast?_walk : (walk first last).getLast? = some last := by
  rw [walk, List.range_succ, List.map_append, List.map_singleton, List.getLast?_concat,
    stride_mul_natAbs, add_sub_cancel, Int64.ofInt_toInt]

/-- No integer of the way leaves the word. -/
theorem toInt_getElem_walk {i : Nat} (h : i < (walk first last).length) :
    (walk first last)[i].toInt = first.toInt + stride first last * i := by
  rw [length_walk] at h
  have hfirst := first.le_toInt
  have hfirst' := first.toInt_lt
  have hlast := last.le_toInt
  have hlast' := last.toInt_lt
  simp only [walk, List.getElem_map, List.getElem_range]
  rw [stride]
  split <;> exact Int64.toInt_ofInt_of_le (by omega) (by omega)

theorem isChain_walk :
    (walk first last).IsChain fun m n => n.toInt - m.toInt = stride first last := by
  rw [List.isChain_iff_getElem]
  intro i hi
  rw [toInt_getElem_walk, toInt_getElem_walk]
  push_cast
  ring

end

/-- The tokens of a range. -/
def rangeWord (first last : Int64) : Word :=
  integerWord first ++ .mark .range :: integerWord last

theorem spells_range {first last : Int64} (hfirst : first ≠ Int64.minValue)
    (hlast : last ≠ Int64.minValue) :
    Spells (rangeWord first last)
      (toString first.toInt ++ ".." ++ toString last.toInt).toList := by
  have hnil : Lexeme.EndsNumeral [] := ⟨nofun, nofun⟩
  -- the second dot is no digit, so the first is no decimal point
  have hdots (cs : List Char) : Lexeme.EndsNumeral ('.' :: '.' :: cs) := by
    refine ⟨?_, fun _ => ?_⟩ <;>
    · intro c hc
      obtain rfl := Option.mem_some_iff.mp hc
      rfl
  have hback := Spells.integer hlast hnil .nil
  rw [List.append_nil, List.append_nil] at hback
  rw [String.toList_append, String.toList_append, List.append_assoc]
  exact .integer hfirst (hdots _) (hback.mark (m := .range) rfl)

/-- Nothing is behind the number that the tokens of an integer start in. -/
theorem Grammar.Literal.eq_nil_of_integerWord {v rest : Word} {e : Expr} {n : Int64}
    (h : Literal v e) (hword : integerWord n = v ++ rest) : rest = [] := by
  unfold integerWord at hword
  split at hword <;> cases h <;> simp_all

/-- No suffix takes a range whose last integer ends the source. -/
theorem bound?_eq_none_of_range {last : Int64} {ts : List Token}
    (hts : Parser.kindsOf ts = .mark .range :: integerWord last) : Parser.bound? ts = none := by
  rw [Option.eq_none_iff_forall_ne_some]
  rintro ⟨e, rest⟩ hbound
  obtain ⟨t, taken, rfl, -, hliteral, k, hk, hsuffix⟩ := Parser.bound?_eq_some_iff.mp hbound
  obtain ⟨-, htail⟩ := List.cons_eq_cons.mp hts
  have hword : integerWord last = Parser.kindsOf taken ++ Parser.kindsOf rest :=
    htail.symm.trans List.map_append
  rw [hliteral.eq_nil_of_integerWord hword] at hk
  cases hk

theorem accepts_range (first last : Int64) {limit depth : Nat} :
    Accepts (Parser.expression limit (depth + 1)) (rangeWord first last)
      (.range (.integer first) (.integer last)) [] := by
  have hleft : Accepts (Parser.prefixed (Parser.expression limit depth)
      (Parser.operand limit depth)) (integerWord first) (.integer first)
      (.mark .range :: integerWord last) :=
    Value.accepts_integerOperand first rfl fun _ => bound?_eq_none_of_range
  have hright : Accepts (Parser.prefixed (Parser.expression limit depth)
      (Parser.operand limit depth)) (integerWord last) (.integer last) [] :=
    Value.accepts_integerOperand last rfl fun ts hts => Parser.bound?_eq_none (hts ▸ nofun)
  exact .choiceless (.rangeOperation (by simpa using hleft) hright trivial) trivial

theorem ofSource_range {first last : Int64} (hfirst : first ≠ Int64.minValue)
    (hlast : last ≠ Int64.minValue) :
    Expr.ofSource (toString first.toInt ++ ".." ++ toString last.toInt) =
      .ok (.range (.integer first) (.integer last)) := by
  obtain ⟨ts, htokens, hkinds⟩ := (spells_range hfirst hlast).exists_tokens
  have hparse : parse ts Parser.defaultLimit = .ok (.range (.integer first) (.integer last)) := by
    apply parse_of_accepts
    rw [hkinds]
    exact accepts_range first last
  exact bind_eq_ok.mpr ⟨ts, mapError_eq_ok.mpr htokens, mapError_eq_ok.mpr hparse⟩

theorem range_integer (first last : Int64) :
    (Value.integer first).range (.integer last) =
      if (last.toInt - first.toInt).natAbs < Value.maxLength then
        .ok (.ofItems ((walk first last).map .integer))
      else .error .capacityOverflow := by
  rw [← rangeItems_toInt]
  rfl

theorem evaluate_range {r : Registry} {limit depth : Nat} {here : Trail} {scope : Scope}
    (first last : Int64) :
    Eval.evaluate r limit (depth + 2) here (.range (.integer first) (.integer last)) scope =
      (Value.integer first).range (.integer last) :=
  rfl

theorem run_rangeText {first last : Int64} (hfirst : first ≠ Int64.minValue)
    (hlast : last ≠ Int64.minValue) {engine : Engine} (hlimit : 2 ≤ engine.limit) (here : Trail)
    (scope : Scope) :
    engine.run here (toString first.toInt ++ ".." ++ toString last.toInt) scope =
      (Value.integer first).range (.integer last) := by
  obtain ⟨depth, hdepth⟩ := Nat.exists_eq_add_of_le' hlimit
  rw [Engine.run, ofSource_range hfirst hlast]
  show Eval.evaluate engine.registry engine.limit engine.limit here _ scope = _
  rw [hdepth]
  exact evaluate_range first last

/-- Two integers with two dots between them come to the integers from the first to the second, one
after the other, up or down, if there is room for an array of so many. -/
theorem run_range {first last : Int64} (hfirst : first ≠ Int64.minValue)
    (hlast : last ≠ Int64.minValue) {engine : Engine} (hlimit : 2 ≤ engine.limit) (here : Trail)
    (scope : Scope) :
    ((last.toInt - first.toInt).natAbs + 1 ≤ Value.maxLength →
      ∃ ns : List Int64,
        engine.run here (toString first.toInt ++ ".." ++ toString last.toInt) scope =
          .ok (.ofItems (ns.map .integer)) ∧
        ns.length = (last.toInt - first.toInt).natAbs + 1 ∧
        ns.head? = some first ∧ ns.getLast? = some last ∧
        ns.IsChain fun m n => n.toInt - m.toInt = if first.toInt ≤ last.toInt then 1 else -1) ∧
    (Value.maxLength < (last.toInt - first.toInt).natAbs + 1 →
      engine.run here (toString first.toInt ++ ".." ++ toString last.toInt) scope =
        .error .capacityOverflow) := by
  rw [run_rangeText hfirst hlast hlimit, range_integer]
  constructor
  · intro hroom
    rw [if_pos (Nat.lt_of_succ_le hroom)]
    exact ⟨walk first last, rfl, length_walk, head?_walk, getLast?_walk, isChain_walk⟩
  · intro hroom
    exact if_neg (Nat.not_lt.mpr (Nat.le_of_lt_succ hroom))

/-- There is no room for all integers from zero on, and at a limit of one level no range is
evaluated. -/
theorem run_range_fails :
    Engine.standard.run [] "0..9223372036854775807" [] = .error .capacityOverflow ∧
      Engine.run ⟨.builtins, 1⟩ [] "1..3" [] = .error (.recursionLimit 1) := by
  have htext : toString (0 : Int64).toInt ++ ".." ++ toString Int64.maxValue.toInt =
      "0..9223372036854775807" := by
    decide
  have hrun := @run_rangeText 0 Int64.maxValue (by decide) (by decide) Engine.standard (by decide)
    [] []
  rw [htext, range_integer, if_neg (by decide)] at hrun
  exact ⟨hrun, by cbv⟩

/-- Down, over zero. -/
theorem run_range_of_descending :
    (2 : Int64) ≠ Int64.minValue ∧ (-3 : Int64) ≠ Int64.minValue ∧ 2 ≤ Engine.standard.limit ∧
    6 ≤ Value.maxLength ∧ ∃ ns : List Int64,
      Engine.standard.run [] "2..-3" [] = .ok (.ofItems (ns.map .integer)) ∧
      ns.length = 6 ∧ ns.head? = some 2 ∧ ns.getLast? = some (-3) ∧
      ns.IsChain fun m n => n.toInt - m.toInt = -1 := by
  have htext : toString (2 : Int64).toInt ++ ".." ++ toString (-3 : Int64).toInt = "2..-3" := by
    decide
  have hlimit : 2 ≤ Engine.standard.limit := by decide
  have hroom : 6 ≤ Value.maxLength := by decide
  have hrun := @run_range 2 (-3) (by decide) (by decide) Engine.standard hlimit [] []
  rw [htext] at hrun
  exact ⟨by decide, by decide, hlimit, hroom, hrun.1 hroom⟩

end Stencil

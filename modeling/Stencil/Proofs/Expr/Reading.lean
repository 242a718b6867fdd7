import Mathlib.Data.List.TakeWhile
import Stencil.Expr.Parser
import Stencil.Proofs.Success

/-!
# What rules read

A rule takes tokens from the front of its input. Here the input is seen as a row of kinds, and the
steps that rules are made of are opened.
-/

namespace Stencil

def Token.Kind.isEnd : Token.Kind → Bool
  | eof => true
  | _ => false

/-- The kinds of the tokens in front of the first end. -/
def kindsBeforeEnd (tokens : List Token) : List Token.Kind :=
  (tokens.map Token.kind).takeWhile (!·.isEnd)

theorem isEnd_of_mem_kindsBeforeEnd {tokens : List Token} {k : Token.Kind}
    (h : k ∈ kindsBeforeEnd tokens) : k.isEnd = false := by
  simpa using List.mem_takeWhile_imp h

namespace Parser

namespace Input

/-- The kinds of the tokens ahead. -/
def kinds (ts : Input) : List Token.Kind :=
  ts.tokens.map Token.kind

theorem kinds_of_ne_eof {ts : Input} (h : ts.kind ≠ .eof) :
    ts.kinds = ts.kind :: ts.tail.kinds := by
  obtain ⟨tokens, finish⟩ := ts
  cases tokens with
  | nil => simp [kind] at h
  | cons t rest => simp [kinds, tail, kind]

theorem kinds_of_kind {ts : Input} {k : Token.Kind} (h : ts.kind = k) (hk : k ≠ .eof) :
    ts.kinds = k :: ts.tail.kinds := by
  subst h
  exact kinds_of_ne_eof hk

theorem kinds_of_mark {ts : Input} {m : Mark} (h : ts.kind = .mark m) :
    ts.kinds = .mark m :: ts.tail.kinds :=
  kinds_of_kind h nofun

theorem kind_of_kinds {ts : Input} {k : Token.Kind} {w : List Token.Kind}
    (h : ts.kinds = k :: w) : ts.kind = k ∧ ts.tail.kinds = w := by
  obtain ⟨tokens, finish⟩ := ts
  cases tokens with
  | nil => simp [kinds] at h
  | cons t rest => simpa [kinds, tail, kind] using h

theorem kind_of_head? {ts : Input} {k : Token.Kind} (h : ts.kinds.head? = some k) :
    ts.kind = k := by
  obtain ⟨tokens, finish⟩ := ts
  cases tokens with
  | nil => simp [kinds] at h
  | cons t rest => simpa [kinds, kind] using h

theorem kinds_ofTokens (tokens : List Token) : (ofTokens tokens).kinds = kindsBeforeEnd tokens := by
  simp only [kinds, ofTokens, kindsBeforeEnd, List.takeWhile_map]
  congr 2
  funext t
  simp only [Function.comp_apply]
  cases t.kind <;> rfl

end Input

variable {α β : Type} {ts ts' : Input}

theorem isMark_iff {k : Token.Kind} {m : Mark} : k.isMark m ↔ k = .mark m := by
  cases k <;> simp [Token.Kind.isMark]

theorem run_bind_eq_ok {x : Rule α} {f : α → Rule β} {b : β} :
    (x >>= f).run ts = .ok (b, ts') ↔
      ∃ a ts₁, x.run ts = .ok (a, ts₁) ∧ (f a).run ts₁ = .ok (b, ts') := by
  rw [StateT.run_bind, bind_eq_ok, Prod.exists]

theorem run_pure_eq_ok {a b : α} :
    (pure a : Rule α).run ts = .ok (b, ts') ↔ a = b ∧ ts = ts' := by
  rw [StateT.run_pure, pure_eq_ok, Prod.mk.injEq]

theorem run_map_eq_ok {x : Rule α} {f : α → β} {b : β} :
    (do return f (← x) : Rule β).run ts = .ok (b, ts') ↔
      ∃ a, x.run ts = .ok (a, ts') ∧ f a = b := by
  simp only [run_bind_eq_ok, run_pure_eq_ok]
  constructor
  · rintro ⟨a, _, ha, hb, rfl⟩
    exact ⟨a, ha, hb⟩
  · rintro ⟨a, ha, hb⟩
    exact ⟨a, ts', ha, hb, rfl⟩

theorem run_fail_ne_ok (expected : String) {a : α} :
    (fail expected : Rule α).run ts ≠ .ok (a, ts') :=
  nofun

theorem run_tooDeep_ne_ok (limit : Nat) {a : α} :
    (tooDeep limit : Rule α).run ts ≠ .ok (a, ts') :=
  nofun

theorem run_get_bind (f : Input → Rule β) : (get >>= f).run ts = (f ts).run ts :=
  rfl

theorem run_set_bind (s : Input) (f : PUnit → Rule β) : (set s >>= f).run ts = (f ⟨⟩).run s :=
  rfl

theorem run_peek_bind (f : Token.Kind → Rule β) : (peek >>= f).run ts = (f ts.kind).run ts :=
  rfl

theorem run_advance_bind (f : Unit → Rule β) : (advance >>= f).run ts = (f ()).run ts.tail :=
  rfl

theorem run_atMark_bind (m : Mark) (f : Bool → Rule β) :
    (atMark m >>= f).run ts = (f (ts.kind.isMark m)).run ts :=
  rfl

theorem run_expect_bind_eq_ok {m : Mark} {expected : String} {f : Unit → Rule β} {b : β} :
    (expect m expected >>= f).run ts = .ok (b, ts') ↔
      ts.kind = .mark m ∧ (f ()).run ts.tail = .ok (b, ts') := by
  rw [run_bind_eq_ok]
  constructor
  · rintro ⟨_, _, hexpect, h⟩
    rw [expect, run_atMark_bind] at hexpect
    split at hexpect
    · cases hexpect
      exact ⟨isMark_iff.mp ‹_›, h⟩
    · exact absurd hexpect (run_fail_ne_ok _)
  · rintro ⟨hm, h⟩
    refine ⟨(), ts.tail, ?_, h⟩
    rw [expect, run_atMark_bind, if_pos (isMark_iff.mpr hm)]
    rfl

theorem run_expectName_bind_eq_ok {expected : String} {f : String → Rule β} {b : β} :
    (expectName expected >>= f).run ts = .ok (b, ts') ↔
      ∃ s, ts.kind = .name s ∧ (f s).run ts.tail = .ok (b, ts') := by
  rw [run_bind_eq_ok]
  constructor
  · rintro ⟨_, _, hexpect, h⟩
    rw [expectName, run_peek_bind] at hexpect
    split at hexpect
    · cases hexpect
      exact ⟨_, ‹_›, h⟩
    · exact absurd hexpect (run_fail_ne_ok _)
  · rintro ⟨s, hs, h⟩
    refine ⟨s, ts.tail, ?_, h⟩
    rw [expectName, run_peek_bind, hs]
    rfl

end Parser

end Stencil

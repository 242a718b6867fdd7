import Stencil.Proofs.Agreement
import Stencil.Proofs.Calls
import Stencil.Proofs.Expr.Soundness

/-!
# The limit on nesting is a threshold

Rules that are made of inner rules do what these do. So a parser with more levels comes to the same
outcome as one with fewer, unless these have run out. Each level has taken a token of its own when
the next one is entered: as many levels as there are tokens, the end among them, never run out.
-/

namespace Stencil

/-- There was no level left. -/
def ParseError.IsTooDeep : ParseError → Prop
  | tooDeep _ _ => True
  | unexpected _ _ _ => False

namespace Parser

/-- How many tokens are ahead. -/
def Input.length (ts : Input) : Nat :=
  ts.tokens.length

theorem Input.length_tail_le (ts : Input) : ts.tail.length ≤ ts.length := by
  simp [length, tail]

theorem Input.length_tail_lt {ts : Input} (h : ts.kind ≠ .eof) : ts.tail.length < ts.length := by
  obtain ⟨tokens, finish⟩ := ts
  cases tokens with
  | nil => exact absurd rfl h
  | cons t tokens => exact Nat.lt_succ_self _

variable {α β : Type}

/-- On this input a rule has the outcome of another one, unless that one fails with an error of the
kind `P`. No token is put back, and levels run out only with errors of this kind. -/
structure Follows (P : ParseError → Prop) (rule' rule : Rule α) (ts : Input) : Prop where
  agree : AgreeUnless P (rule'.run ts) (rule.run ts)
  length_le : ∀ a ts', rule.run ts = .ok (a, ts') → ts'.length ≤ ts.length
  of_isTooDeep : ∀ e, rule.run ts = .error e → e.IsTooDeep → P e

/-- The same on every input with fewer than `n` tokens. -/
def FollowsBelow (P : ParseError → Prop) (n : Nat) (rule' rule : Rule α) : Prop :=
  ∀ ts : Input, ts.length < n → Follows P rule' rule ts

variable {P : ParseError → Prop} {ts : Input} {n : Nat}

namespace Follows

theorem pure (a : α) : Follows P (pure a) (pure a) ts where
  agree := .refl P _
  length_le := by
    intro b ts' h
    obtain ⟨-, rfl⟩ := run_pure_eq_ok.mp h
    exact Nat.le_refl _
  of_isTooDeep := nofun

theorem fail (expected : String) :
    Follows P (Parser.fail expected : Rule α) (Parser.fail expected) ts where
  agree := .refl P _
  length_le := nofun
  of_isTooDeep := by
    rintro _ ⟨rfl⟩ he
    exact he.elim

theorem bind {x' x : Rule α} {f' f : α → Rule β} (hx : Follows P x' x ts)
    (hf : ∀ a ts', ts'.length ≤ ts.length → Follows P (f' a) (f a) ts') :
    Follows P (x' >>= f') (x >>= f) ts where
  agree := by
    rw [StateT.run_bind, StateT.run_bind]
    exact hx.agree.bind_same fun p hp => (hf p.1 p.2 (hx.length_le _ _ hp)).agree
  length_le := by
    intro b ts' h
    obtain ⟨a, ts₁, ha, hb⟩ := run_bind_eq_ok.mp h
    have hle := hx.length_le a ts₁ ha
    exact Nat.le_trans ((hf a ts₁ hle).length_le b ts' hb) hle
  of_isTooDeep := by
    intro e h he
    rw [StateT.run_bind, bind_eq_error] at h
    rcases h with h | ⟨p, hp, h⟩
    · exact hx.of_isTooDeep e h he
    · exact (hf p.1 p.2 (hx.length_le _ _ hp)).of_isTooDeep e h he

theorem map {x' x : Rule α} (f : α → β) (hx : Follows P x' x ts) :
    Follows P (do return f (← x')) (do return f (← x)) ts :=
  .bind hx fun a _ _ => .pure (f a)

theorem get {f' f : Input → Rule β} (h : Follows P (f' ts) (f ts) ts) :
    Follows P (MonadState.get >>= f') (MonadState.get >>= f) ts :=
  ⟨h.agree, h.length_le, h.of_isTooDeep⟩

theorem set {us : Input} {f' f : PUnit → Rule β} (hus : us.length ≤ ts.length)
    (h : Follows P (f' ⟨⟩) (f ⟨⟩) us) :
    Follows P (MonadStateOf.set us >>= f') (MonadStateOf.set us >>= f) ts :=
  ⟨h.agree, fun a ts' hrun => Nat.le_trans (h.length_le a ts' hrun) hus, h.of_isTooDeep⟩

theorem peek {f' f : Token.Kind → Rule β} (h : Follows P (f' ts.kind) (f ts.kind) ts) :
    Follows P (Parser.peek >>= f') (Parser.peek >>= f) ts :=
  ⟨h.agree, h.length_le, h.of_isTooDeep⟩

theorem atMark {m : Mark} {f' f : Bool → Rule β}
    (h : Follows P (f' (ts.kind.isMark m)) (f (ts.kind.isMark m)) ts) :
    Follows P (Parser.atMark m >>= f') (Parser.atMark m >>= f) ts :=
  ⟨h.agree, h.length_le, h.of_isTooDeep⟩

theorem advance {f' f : Unit → Rule β} (h : Follows P (f' ()) (f ()) ts.tail) :
    Follows P (Parser.advance >>= f') (Parser.advance >>= f) ts :=
  ⟨h.agree, fun a ts' hrun => Nat.le_trans (h.length_le a ts' hrun) ts.length_tail_le,
    h.of_isTooDeep⟩

theorem operator? (level : Level) :
    Follows P (Parser.operator? level) (Parser.operator? level) ts := by
  refine .peek ?_
  split <;> exact .pure _

theorem expect (m : Mark) (expected : String) :
    Follows P (Parser.expect m expected) (Parser.expect m expected) ts := by
  refine .atMark ?_
  split
  · exact .advance (.pure ())
  · exact .fail expected

theorem expectName (expected : String) :
    Follows P (Parser.expectName expected) (Parser.expectName expected) ts := by
  refine .peek ?_
  split
  · exact .advance (.pure _)
  · exact .fail expected

end Follows

section

variable {expr' expr operand' operand branch' branch : Rule Expr}

theorem chain_follows {level : Level} (h : FollowsBelow P n operand' operand) {fuel : List Token}
    {left : Expr} :
    FollowsBelow P n (chain level operand' fuel left) (chain level operand fuel left) := by
  induction fuel generalizing left with
  | nil => exact fun ts _ => .pure left
  | cons t fuel ih =>
    intro ts hts
    refine .bind (.operator? level) fun o ts₁ hts₁ => ?_
    split
    · exact .pure left
    · have htail : ts₁.tail.length < n := by
        have := ts₁.length_tail_le
        omega
      refine .advance (.bind (h _ htail) fun right ts₂ hts₂ => ih _ ?_)
      omega

theorem leftAssoc_follows {level : Level} (h : FollowsBelow P n operand' operand) :
    FollowsBelow P n (leftAssoc level operand') (leftAssoc level operand) := by
  intro ts hts
  refine .bind (h ts hts) fun left ts₁ hts₁ => .get (chain_follows h ts₁ ?_)
  omega

theorem rangeOf_follows (h : FollowsBelow P n operand' operand) :
    FollowsBelow P n (rangeOf operand') (rangeOf operand) := by
  intro ts hts
  refine .bind (h ts hts) fun first ts₁ hts₁ => .atMark ?_
  split
  · refine .advance (.map _ (h _ ?_))
    have := ts₁.length_tail_le
    omega
  · exact .pure first

theorem operation_follows (h : FollowsBelow P n operand' operand) :
    FollowsBelow P n (operation operand') (operation operand) :=
  leftAssoc_follows <| leftAssoc_follows <| leftAssoc_follows <| leftAssoc_follows <|
    rangeOf_follows <| leftAssoc_follows <| leftAssoc_follows h

theorem choice_follows (hoperand : FollowsBelow P (n + 1) operand' operand)
    (hbranch : FollowsBelow P n branch' branch) :
    FollowsBelow P (n + 1) (choice operand' branch') (choice operand branch) := by
  intro ts hts
  refine .bind (operation_follows hoperand ts hts) fun test ts₁ hts₁ => .atMark ?_
  split
  · rename_i hquestion
    have hyes : ts₁.tail.length < n := by
      have hkind : ts₁.kind ≠ .eof := by
        rw [isMark_iff.mp hquestion]
        nofun
      have := Input.length_tail_lt hkind
      omega
    refine .advance (.bind (hbranch _ hyes) fun yes ts₂ hts₂ => ?_)
    refine .bind (.expect .colon _) fun _ ts₃ hts₃ => .map _ (hbranch _ ?_)
    omega
  · exact .pure test

theorem items_follows {item' item : Rule α} (h : FollowsBelow P n item' item) (closing : Mark)
    (orClosing : String) (fuel : List Token) :
    FollowsBelow P n (items closing orClosing item' fuel) (items closing orClosing item fuel) := by
  induction fuel with
  | nil => exact fun ts _ => .fail orClosing
  | cons t fuel ih =>
    intro ts hts
    refine .atMark ?_
    split
    · exact .advance (.pure [])
    · refine .bind (h ts hts) fun a ts₁ hts₁ => .atMark ?_
      split
      · exact .advance (.pure [a])
      · refine .bind (.expect .comma orClosing) fun _ ts₂ hts₂ => .map _ (ih _ ?_)
        omega

theorem list_follows {item' item : Rule α} (h : FollowsBelow P n item' item) {closing : Mark}
    {orClosing : String} {ts : Input} (hts : ts.tail.length < n) :
    Follows P (list closing orClosing item') (list closing orClosing item) ts :=
  .get (.advance (items_follows h closing orClosing ts.tokens _ hts))

theorem objectMember_follows (h : FollowsBelow P n expr' expr) :
    FollowsBelow P n (objectMember expr') (objectMember expr) := by
  intro ts hts
  have hvalue (name : String) (ts₁ : Input) (hts₁ : ts₁.length ≤ ts.length) :
      Follows P (do expect .colon "':'"; return (name, ← expr'))
        (do expect .colon "':'"; return (name, ← expr)) ts₁ := by
    refine .bind (.expect .colon _) fun _ ts₂ hts₂ => .map _ (h _ ?_)
    omega
  refine .peek ?_
  dsimp only
  split
  · exact .advance (hvalue _ _ ts.length_tail_le)
  · exact .advance (hvalue _ _ ts.length_tail_le)
  · exact .bind (.fail _) hvalue

theorem length_le_of_numeral? {ts : Input} {e : Expr} {rest : List Token}
    (h : numeral? ts.tokens = some (e, rest)) : rest.length ≤ ts.length := by
  obtain ⟨taken, htokens, -⟩ := numeral?_eq_some_iff.mp h
  rw [Input.length, htokens, List.length_append]
  exact Nat.le_add_left _ _

theorem length_le_of_head? {ts : Input} {params : List String} {rest : List Token}
    (h : head? ts.tokens = some (params, rest)) : rest.length ≤ ts.length := by
  obtain ⟨taken, htokens, -⟩ := head?_eq_some_iff.mp h
  rw [Input.length, htokens, List.length_append]
  exact Nat.le_add_left _ _

theorem ne_eof_of_prefixOp? {ts : Input} {op : UnaryOp} (h : prefixOp? ts = some op) :
    ts.kind ≠ .eof := by
  rcases prefixOp?_eq_some_iff.mp h with ⟨-, hkind⟩ | ⟨-, hkind, -⟩ <;> rw [hkind] <;> nofun

theorem named_follows (h : FollowsBelow P n expr' expr) {name : String}
    (hts : ts.tail.length < n) : Follows P (named expr' name) (named expr name) ts := by
  have htail := ts.tail.length_tail_le
  refine .advance (.peek ?_)
  split
  · exact .advance (.map _ (h _ (by omega)))
  · exact .map _ (list_follows h (by omega))
  · exact .pure _

theorem parenthesised_follows (h : FollowsBelow P n expr' expr) (hts : ts.tail.length < n) :
    Follows P (parenthesised expr') (parenthesised expr) ts := by
  refine .advance (.get ?_)
  split
  · rename_i params rest hhead
    have hrest := length_le_of_head? hhead
    exact .set hrest (.map _ (h _ (Nat.lt_of_le_of_lt hrest hts)))
  · refine .bind (h _ hts) fun e ts₁ _ => .bind (.expect .closeParen _) fun _ ts₂ _ => .pure e

theorem atom_follows (h : FollowsBelow P n expr' expr) :
    FollowsBelow P (n + 1) (atom expr') (atom expr) := by
  intro ts hts
  have htail {k : Token.Kind} (hkind : ts.kind = k) (hk : k ≠ .eof) : ts.tail.length < n := by
    have := Input.length_tail_lt (hkind ▸ hk : ts.kind ≠ .eof)
    omega
  refine .get ?_
  split
  · rename_i e rest hnumeral
    exact .set (length_le_of_numeral? hnumeral) (.pure e)
  · split
    case h_1 => exact .advance (.pure _)
    case h_2 => exact .advance (.pure _)
    case h_3 => exact .advance (.pure _)
    case h_4 hname => exact named_follows h (htail hname nofun)
    case h_5 hopen => exact parenthesised_follows h (htail hopen nofun)
    case h_6 hopen => exact .map _ (list_follows h (htail hopen nofun))
    case h_7 hopen => exact .map _ (list_follows (objectMember_follows h) (htail hopen nofun))
    case h_8 => exact .fail _

theorem suffixes_follows (h : FollowsBelow P n expr' expr) {fuel : List Token} {e : Expr} :
    FollowsBelow P (n + 1) (suffixes expr' fuel e) (suffixes expr fuel e) := by
  induction fuel generalizing e with
  | nil => exact fun ts _ => .pure e
  | cons t fuel ih =>
    intro ts hts
    have htail {m : Mark} (hkind : ts.kind = .mark m) : ts.tail.length < n := by
      have := Input.length_tail_lt (hkind ▸ nofun : ts.kind ≠ .eof)
      omega
    refine .peek ?_
    split
    · rename_i hdot
      have hts' := htail hdot
      refine .advance (.bind (.expectName _) fun name ts₁ hts₁ => .atMark ?_)
      have htail₁ := ts₁.length_tail_le
      split
      · exact .bind (list_follows h (by omega)) fun args ts₂ hts₂ => ih _ (by omega)
      · exact ih _ (by omega)
    · rename_i hbracket
      have hts' := htail hbracket
      refine .advance (.bind (h _ hts') fun i ts₁ hts₁ => ?_)
      exact .bind (.expect .closeBracket _) fun _ ts₂ hts₂ => ih _ (by omega)
    · exact .pure e

theorem postfixed_follows (h : FollowsBelow P n expr' expr) :
    FollowsBelow P (n + 1) (postfixed expr') (postfixed expr) := by
  intro ts hts
  refine .bind (atom_follows h ts hts) fun e ts₁ hts₁ => .get (suffixes_follows h ts₁ ?_)
  omega

theorem prefixed_follows (hexpr : FollowsBelow P n expr' expr)
    (hoperand : FollowsBelow P n operand' operand) :
    FollowsBelow P (n + 1) (prefixed expr' operand') (prefixed expr operand) := by
  intro ts hts
  refine .get ?_
  split
  · rename_i op hop
    refine .advance (.map _ (hoperand _ ?_))
    have := Input.length_tail_lt (ne_eof_of_prefixOp? hop)
    omega
  · exact postfixed_follows hexpr ts hts

end

theorem tooDeep_follows {rule : Rule α} {limit : Nat}
    (hP : ∀ position, P (.tooDeep position limit)) : Follows P rule (tooDeep limit) ts where
  agree := .inr ⟨_, rfl, hP ts.position⟩
  length_le := nofun
  of_isTooDeep := by
    rintro _ ⟨rfl⟩ -
    exact hP ts.position

/-- With more levels the rules of expressions do the same, unless the fewer ones do not suffice. -/
theorem expression_follows {limit' limit depth' depth : Nat} (hdepth : depth ≤ depth')
    (hP : n ≤ depth ∨ ∀ position, P (.tooDeep position limit)) :
    FollowsBelow P n (expression limit' depth') (expression limit depth) ∧
      FollowsBelow P n (operand limit' depth') (operand limit depth) := by
  induction depth generalizing depth' n with
  | zero =>
    rcases hP with hn | hP
    · obtain rfl := Nat.le_zero.mp hn
      exact ⟨fun _ => nofun, fun _ => nofun⟩
    · exact ⟨fun _ _ => tooDeep_follows hP, fun _ _ => tooDeep_follows hP⟩
  | succ depth ih =>
    obtain ⟨depth', rfl⟩ := Nat.exists_eq_add_of_le' hdepth
    cases n with
    | zero => exact ⟨fun _ => nofun, fun _ => nofun⟩
    | succ n =>
      obtain ⟨hexpr, hoperand⟩ := ih (Nat.le_add_left depth depth')
        (hP.imp_left Nat.le_of_succ_le_succ)
      have hprefixed := prefixed_follows hexpr hoperand
      exact ⟨choice_follows hprefixed hexpr, hprefixed⟩

theorem whole_follows {limit' limit : Nat} (hlimit : limit ≤ limit')
    (hP : n ≤ limit ∨ ∀ position, P (.tooDeep position limit)) :
    FollowsBelow P n (whole limit') (whole limit) := by
  intro ts hts
  refine .bind ((expression_follows hlimit hP).1 ts hts) fun e ts₁ _ => .peek ?_
  split
  · exact .pure e
  · exact .fail _

end Parser

/-- The limit is a threshold: what is parsed within one limit comes out the same within any higher
one, as a tree or as an error, and no more levels are needed than there are tokens, the end among
them. -/
theorem threshold_of_parse (tokens : List Token) :
    (∀ limit limit', limit ≤ limit' → Avoids ParseError.IsTooDeep (parse tokens limit) →
      parse tokens limit' = parse tokens limit) ∧
    ∀ limit, (kindsBeforeEnd tokens).length + 1 ≤ limit →
      Avoids ParseError.IsTooDeep (parse tokens limit) := by
  have hlength : (Parser.Input.ofTokens tokens).length = (kindsBeforeEnd tokens).length := by
    rw [← Parser.Input.kinds_ofTokens, Parser.Input.kinds, List.length_map, Parser.Input.length]
  constructor
  · intro limit limit' hlimit havoids
    have hfollows := Parser.whole_follows (P := ParseError.IsTooDeep) hlimit
      (.inr fun _ => trivial) _ (Nat.lt_succ_self (Parser.Input.ofTokens tokens).length)
    rcases hfollows.agree with h | ⟨e, h, he⟩
    · exact congrArg (Except.map Prod.fst) h
    · exact absurd he (havoids e (map_eq_error.mpr h))
  · intro limit hlimit e he hdeep
    have hfollows := Parser.whole_follows (P := fun _ => False) (Nat.le_refl limit)
      (.inl (Nat.le_refl limit)) (Parser.Input.ofTokens tokens) (by omega)
    exact hfollows.of_isTooDeep e (map_eq_error.mp he) hdeep

/-- The tokens of `f([-(x), y =>`, a source that ends too early. -/
def brokenOffTokens : List Token :=
  [.name "f", .mark .openParen, .mark .openBracket, .mark .minus, .mark .openParen, .name "x",
    .mark .closeParen, .mark .comma, .name "y", .mark .arrow].map fun k => ⟨k, "", 0⟩

def brokenOffError : ParseError :=
  .unexpected 0 "expression" "end of expression"

theorem threshold_of_brokenOffTokens :
    parse brokenOffTokens 4 = .error (.tooDeep 0 4) ∧
      Avoids ParseError.IsTooDeep (parse brokenOffTokens 5) ∧
      parse brokenOffTokens 128 = .error brokenOffError ∧
      (kindsBeforeEnd brokenOffTokens).length + 1 ≤ 11 ∧
      Avoids ParseError.IsTooDeep (parse brokenOffTokens 11) := by
  have herror : parse brokenOffTokens 5 = .error brokenOffError := rfl
  have havoids : Avoids ParseError.IsTooDeep (parse brokenOffTokens 5) := by
    rw [herror]
    rintro _ ⟨rfl⟩
    exact id
  obtain ⟨hsame, henough⟩ := threshold_of_parse brokenOffTokens
  have hlength : (kindsBeforeEnd brokenOffTokens).length + 1 ≤ 11 := by decide
  exact ⟨rfl, havoids, (hsame 5 128 (by decide) havoids).trans herror, hlength,
    henough 11 hlength⟩

end Stencil

import Stencil.Proofs.Eval.Applications
import Stencil.Proofs.Number.Nearest
import Stencil.Proofs.Value.Comparison

/-!
# Least and greatest elements

An extreme element is looked for among the floats of the keys. It is the first one whose float no
other float is beyond. The order of numbers sees more than their floats if both are integers: its
first extreme element is another one exactly if a key that has the same float is beyond it.
-/

namespace Stencil

/-- Which element is looked for. -/
inductive Extremum where
  | least
  | greatest

namespace Extremum

def functionName : Extremum → String
  | least => "min"
  | greatest => "max"

/-- How a number compares with those that it is beyond. -/
def order : Extremum → Ordering
  | least => .lt
  | greatest => .gt

def better : Extremum → Float → Float → Bool
  | least => fun x y => x < y
  | greatest => fun x y => y < x

/-- A number comes before another one in the order of numbers. -/
def Beats (m : Extremum) (a b : Number) : Prop :=
  a.compare? b = some m.order

/-- A number comes before another one as a float. -/
def BeatsAsFloat (m : Extremum) (a b : Number) : Prop :=
  m.better a.toFloat b.toFloat = true

instance (m : Extremum) (a b : Number) : Decidable (m.Beats a b) :=
  inferInstanceAs (Decidable (_ = _))

instance (m : Extremum) (a b : Number) : Decidable (m.BeatsAsFloat a b) :=
  inferInstanceAs (Decidable (_ = true))

/-- The number of a float, so that better floats have greater ones. -/
def score : Extremum → Float → ℚ
  | least, x => -Binary.valueOf x
  | greatest, x => Binary.valueOf x

variable {m : Extremum}

theorem better_iff_score {x y : Float} (hx : x.isNaN = false) (hy : y.isNaN = false) :
    m.better x y = true ↔ m.score y < m.score x := by
  cases m with
  | least =>
    rw [better, decide_eq_true_eq, Binary.float_lt_iff_valueOf hx hy]
    exact neg_lt_neg_iff.symm
  | greatest =>
    rw [better, decide_eq_true_eq, Binary.float_lt_iff_valueOf hy hx]
    rfl

theorem better_iff_compareFloats {x y : Float} :
    m.better x y = true ↔ Number.compareFloats x y = some m.order := by
  cases m with
  | least => rw [better, decide_eq_true_eq, float_lt_iff, Number.compareFloats_eq, order]
  | greatest =>
    rw [better, decide_eq_true_eq, float_lt_iff, Number.compareFloats_swap y x, order,
      Number.compareFloats_eq]
    rcases y.toModel.unpack.compare x.toModel.unpack with _ | (_ | _ | _) <;> simp

theorem beats_integers_iff {i j : Int64} :
    m.Beats (.integer i) (.integer j) ↔
      match m with
      | least => i.toInt < j.toInt
      | greatest => j.toInt < i.toInt := by
  cases m with
  | least => exact Option.some_inj.trans compare_lt_iff_lt
  | greatest => exact Option.some_inj.trans compare_gt_iff_gt

theorem score_le_of_not_beats {i j : Int64} (h : ¬ m.Beats (.integer i) (.integer j)) :
    m.score (Binary.ofInt i.toInt) ≤ m.score (Binary.ofInt j.toInt) := by
  rw [beats_integers_iff] at h
  cases m with
  | least => exact neg_le_neg (Binary.valueOf_ofInt_mono (not_lt.mp h))
  | greatest => exact Binary.valueOf_ofInt_mono (not_lt.mp h)

/-- Only integers that have the same float compare in another way than their floats. -/
theorem beats_iff {a b : Number} :
    m.Beats a b ↔ m.BeatsAsFloat a b ∨ a.Collides b ∧ m.Beats a b := by
  have hfloats (hcompare : a.compare? b = Number.compareFloats a.toFloat b.toFloat)
      (hcollides : ¬ a.Collides b) :
      m.Beats a b ↔ m.BeatsAsFloat a b ∨ a.Collides b ∧ m.Beats a b := by
    rw [Beats, BeatsAsFloat, better_iff_compareFloats, hcompare, iff_false_intro hcollides,
      false_and, or_false]
  cases a with
  | float x => exact hfloats rfl (by simp [Number.Collides])
  | integer i =>
    cases b with
    | float y => exact hfloats rfl (by simp [Number.Collides])
    | integer j =>
      have hi := Binary.isNaN_of_isFinite (Binary.isFinite_ofInt i)
      have hj := Binary.isNaN_of_isFinite (Binary.isFinite_ofInt j)
      have hscore : m.BeatsAsFloat (.integer i) (.integer j) ↔
          m.score (Binary.ofInt j.toInt) < m.score (Binary.ofInt i.toInt) :=
        better_iff_score hi hj
      rw [hscore]
      constructor
      · intro hbeats
        have hnot : ¬ m.Beats (.integer j) (.integer i) := by
          rw [beats_integers_iff] at hbeats ⊢
          cases m <;> exact hbeats.le.not_gt
        have hne : i ≠ j := by
          rintro rfl
          exact hnot hbeats
        rcases (score_le_of_not_beats hnot).lt_or_eq with hlt | heq
        · exact .inl hlt
        · have hvalue : Binary.valueOf (Binary.ofInt i.toInt) =
              Binary.valueOf (Binary.ofInt j.toInt) := by
            cases m with
            | least => exact (neg_inj.mp heq).symm
            | greatest => exact heq.symm
          exact .inr ⟨⟨i, j, rfl, rfl, hne, (Binary.float_beq_iff_valueOf hi hj).mpr hvalue⟩,
            hbeats⟩
      · rintro (hlt | ⟨-, hbeats⟩)
        · by_contra hnot
          exact (score_le_of_not_beats hnot).not_gt hlt
        · exact hbeats

end Extremum

/-- No key comes before the one at this place. -/
def Unbeaten (beats : Number → Number → Prop) (keys : List Number) (i : Nat) : Prop :=
  ∃ a, keys[i]? = some a ∧ ∀ k ∈ keys, ¬ beats k a

def FirstUnbeaten (beats : Number → Number → Prop) (keys : List Number) (i : Nat) : Prop :=
  Unbeaten beats keys i ∧ ∀ j < i, ¬ Unbeaten beats keys j

theorem FirstUnbeaten.unique {beats : Number → Number → Prop} {keys : List Number} {i j : Nat}
    (hi : FirstUnbeaten beats keys i) (hj : FirstUnbeaten beats keys j) : i = j := by
  by_contra hne
  rcases Nat.lt_or_gt_of_ne hne with hlt | hlt
  · exact hj.2 i hlt hi.1
  · exact hi.2 j hlt hj.1

/-- The first place where no float is beyond is the first one where no number is, unless a number
that has the same float is. -/
theorem firstUnbeaten_beats_iff {m : Extremum} {keys : List Number} {i : Nat}
    (h : FirstUnbeaten m.BeatsAsFloat keys i) :
    FirstUnbeaten m.Beats keys i ↔
      ∀ a, keys[i]? = some a → ∀ k ∈ keys, k.Collides a → ¬ m.Beats k a := by
  have hearlier (j : Nat) (hj : j < i) : ¬ Unbeaten m.Beats keys j := by
    rintro ⟨a, ha, hbeaten⟩
    exact h.2 j hj ⟨a, ha, fun k hk hfloat => hbeaten k hk (Extremum.beats_iff.mpr (.inl hfloat))⟩
  obtain ⟨a, ha, hbest⟩ := h.1
  constructor
  · rintro ⟨⟨a', ha', hbeaten⟩, -⟩ _ ha k hk -
    rw [ha', Option.some_inj] at ha
    subst ha
    exact hbeaten k hk
  · intro hcollides
    refine ⟨⟨a, ha, fun k hk hbeats => ?_⟩, hearlier⟩
    rcases Extremum.beats_iff.mp hbeats with hfloat | ⟨hcollide, -⟩
    · exact hbest k hk hfloat
    · exact hcollides a ha k hk hcollide hbeats

namespace Builtin

theorem best?_concat (better : Float → Float → Bool) (keyed : List (Value × Float))
    (a : Value × Float) :
    best? better (keyed ++ [a]) =
      match best? better keyed with
      | none => some a
      | some b => if better a.2 b.2 then some a else some b := by
  rw [best?, List.foldl_append]
  rfl

theorem best?_eq_argmax {better : Float → Float → Bool} {score : Float → ℚ}
    {keyed : List (Value × Float)}
    (hbetter : ∀ a ∈ keyed, ∀ b ∈ keyed, better a.2 b.2 = true ↔ score b.2 < score a.2) :
    best? better keyed = keyed.argmax fun a => score a.2 := by
  induction keyed using List.reverseRecOn with
  | nil => rfl
  | append_singleton keyed a ih =>
    have hlast (c : Value × Float) (hc : c ∈ keyed) : c ∈ keyed ++ [a] :=
      List.mem_append_left _ hc
    rw [best?_concat, List.argmax_concat,
      ih fun c hc d hd => hbetter c (hlast c hc) d (hlast d hd)]
    cases hmax : keyed.argmax fun a => score a.2 with
    | none => rfl
    | some b =>
      have hscore := hbetter a (by simp) b (hlast b (List.argmax_mem hmax))
      simp only [hscore]

/-- The fold ends with the first element of the highest score. -/
theorem exists_best? {better : Float → Float → Bool} {score : Float → ℚ}
    {keyed : List (Value × Float)}
    (hbetter : ∀ a ∈ keyed, ∀ b ∈ keyed, better a.2 b.2 = true ↔ score b.2 < score a.2)
    (hne : keyed ≠ []) :
    ∃ (i : Nat) (b : Value × Float), keyed[i]? = some b ∧ best? better keyed = some b ∧
      (∀ a ∈ keyed, score a.2 ≤ score b.2) ∧
      ∀ (j : Nat) (a : Value × Float), j < i → keyed[j]? = some a → score a.2 < score b.2 := by
  have hchosen : keyed.argmax (fun a => score a.2) ≠ none := mt List.argmax_eq_none.mp hne
  obtain ⟨b, hb⟩ := Option.ne_none_iff_exists'.mp hchosen
  obtain ⟨before, after, hsplit, hbefore, -⟩ := exists_split_of_argmax hb
  refine ⟨before.length, b, ?_, (best?_eq_argmax hbetter).trans hb,
    fun a ha => List.le_of_mem_argmax (f := fun a => score a.2) ha hb, fun j a hj ha => ?_⟩
  · rw [hsplit, List.getElem?_append_right le_rfl, Nat.sub_self]
    rfl
  · rw [hsplit, List.getElem?_append_left hj] at ha
    exact hbefore a (List.mem_of_getElem? ha)

/-- The numbers that the elements of an array have for keys. -/
structure Keyed (callback : Callback) (callee? : Option Value) (items : List Value)
    (keys : List Number) : Prop where
  values : ∃ vs, each (apply callback callee?) 0 items = .ok vs ∧
    vs.map Value.number? = keys.map some
  numbers : ∀ k ∈ keys, k.toFloat.isNaN = false

variable {callback : Callback} {callee? : Option Value} {items : List Value} {keys : List Number}

theorem each_keyOf (name : String) {i : Nat} {vs : List Value}
    (h : each (apply callback callee?) i items = .ok vs)
    (hkeys : vs.map Value.number? = keys.map some) :
    each (keyOf name callback callee?) i items = .ok (items.zip (keys.map Number.toFloat)) ∧
      items.length = keys.length := by
  induction items generalizing i vs keys with
  | nil =>
    obtain rfl := (Except.ok.inj h)
    cases keys with
    | nil => exact ⟨rfl, rfl⟩
    | cons k keys => simp at hkeys
  | cons v items ih =>
    rw [each] at h
    obtain ⟨key, hkey, h⟩ := bind_eq_ok.mp h
    obtain ⟨rest, hrest, h⟩ := bind_eq_ok.mp h
    obtain rfl := pure_eq_ok.mp h
    cases keys with
    | nil => simp at hkeys
    | cons k keys =>
      simp only [List.map_cons, List.cons.injEq] at hkeys
      obtain ⟨heach, hlength⟩ := ih hrest hkeys.2
      have hhead : keyOf name callback callee? i v = .ok (v, k.toFloat) := by
        simp only [keyOf, hkey, bind, Except.bind, hkeys.1]
        rfl
      rw [each, hhead, heach]
      exact ⟨rfl, congrArg (· + 1) hlength⟩

theorem getElem?_zip_floats (hlength : items.length = keys.length) {i : Nat} {k : Number}
    (h : keys[i]? = some k) :
    ∃ v, (items.zip (keys.map Number.toFloat))[i]? = some (v, k.toFloat) := by
  have hlt : i < items.length := hlength ▸ (List.getElem?_eq_some_iff.mp h).1
  refine ⟨items[i], List.getElem?_zip_eq_some.mpr ⟨List.getElem?_eq_getElem hlt, ?_⟩⟩
  rw [List.getElem?_map, h]
  rfl

/-- The first element whose key is best as a float. -/
theorem Keyed.exists_best? (m : Extremum) (h : Keyed callback callee? items keys) (name : String)
    (hne : items ≠ []) :
    ∃ (keyed : List (Value × Float)) (i : Nat) (v : Value) (x : Float),
      each (keyOf name callback callee?) 0 items = .ok keyed ∧ items[i]? = some v ∧
      best? m.better keyed = some (v, x) ∧ FirstUnbeaten m.BeatsAsFloat keys i := by
  obtain ⟨vs, hvs, hkeys⟩ := h.values
  obtain ⟨heach, hlength⟩ := each_keyOf name hvs hkeys
  have hfind (b : Value × Float) (hb : b ∈ items.zip (keys.map Number.toFloat)) :
      ∃ k ∈ keys, k.toFloat = b.2 :=
    List.mem_map.mp (List.of_mem_zip hb).2
  have hnumber (b : Value × Float) (hb : b ∈ items.zip (keys.map Number.toFloat)) :
      b.2.isNaN = false := by
    obtain ⟨k, hk, hkb⟩ := hfind b hb
    rw [← hkb]
    exact h.numbers k hk
  have hbetter (a : Value × Float) (ha : a ∈ items.zip (keys.map Number.toFloat))
      (b : Value × Float) (hb : b ∈ items.zip (keys.map Number.toFloat)) :
      m.better a.2 b.2 = true ↔ m.score b.2 < m.score a.2 :=
    Extremum.better_iff_score (hnumber a ha) (hnumber b hb)
  have hnonempty : items.zip (keys.map Number.toFloat) ≠ [] := by
    intro hnil
    have hzero := congrArg List.length hnil
    rw [List.length_zip, List.length_map, ← hlength, Nat.min_self, List.length_nil] at hzero
    exact hne (List.length_eq_zero_iff.mp hzero)
  obtain ⟨i, ⟨v, x⟩, hi, hbest, hmax, hfirst⟩ := Builtin.exists_best? hbetter hnonempty
  obtain ⟨hv, hx⟩ := List.getElem?_zip_eq_some.mp hi
  rw [List.getElem?_map, Option.map_eq_some_iff] at hx
  obtain ⟨k, hk, rfl⟩ := hx
  refine ⟨_, i, v, k.toFloat, heach, hv, hbest, ⟨k, hk, fun l hl hbeats => ?_⟩, ?_⟩
  · obtain ⟨j, hj⟩ := List.mem_iff_getElem?.mp hl
    obtain ⟨w, hw⟩ := getElem?_zip_floats hlength hj
    have hmem := List.mem_of_getElem? hw
    exact (hmax _ hmem).not_gt ((hbetter _ hmem _ (List.mem_of_getElem? hi)).mp hbeats)
  · rintro j hj ⟨l, hl, hbeaten⟩
    obtain ⟨w, hw⟩ := getElem?_zip_floats hlength hl
    refine hbeaten k (List.mem_of_getElem? hk) ?_
    exact (hbetter _ (List.mem_of_getElem? hi) _ (List.mem_of_getElem? hw)).mpr (hfirst j _ hj hw)

end Builtin

namespace Eval

open Builtin (Keyed)

variable {limit depth : Nat} {here : Trail} {scope : Scope} {e : Expr} {onTarget : Bool}
  {node : Node} {callee? : Option Value} {items : List Value} {keys : List Number}

theorem resolve_extremum (m : Extremum) (node : Node) (items : List Value) (onTarget : Bool)
    (hcallee : ∀ c ∈ callee?, c.isCallable = true) :
    Registry.builtins.resolve m.functionName (.array node items :: callee?.toList) onTarget =
      .ok (Builtin.extreme m.functionName m.better, .array node items :: callee?.toList) := by
  cases callee? with
  | none =>
    apply Registry.resolve_of_candidate
    · cases m <;> cases onTarget <;> rfl
    · rfl
  | some c =>
    have hcandidates : Registry.builtins.candidates m.functionName 2 onTarget =
        [Builtin.extreme m.functionName m.better] := by
      cases m <;> cases onTarget <;> rfl
    exact Registry.resolve_arrayWithCallable node items hcandidates rfl (hcallee c rfl)

/-- The value is the first element whose key no other one is beyond as a float. In the order of
numbers it is the first such element, too, unless an integer that has the same float as its key is
beyond that. -/
theorem evaluate_extremum (m : Extremum) (hne : items ≠ [])
    (hcallee : ∀ c ∈ callee?, c.isCallable = true)
    (hkeys : Keyed (callbackAt .builtins limit depth here) callee? items keys)
    (h : Applies (levelAt .builtins limit (depth + 1)) here scope m.functionName e
      (.array node items :: callee?.toList) onTarget) :
    ∃ i v, items[i]? = some v ∧ evaluate .builtins limit (depth + 2) here e scope = .ok v ∧
      FirstUnbeaten m.BeatsAsFloat keys i ∧
      (FirstUnbeaten m.Beats keys i ↔
        ∀ a, keys[i]? = some a → ∀ k ∈ keys, k.Collides a → ¬ m.Beats k a) := by
  obtain ⟨keyed, i, v, x, heach, hv, hbest, hfirst⟩ := hkeys.exists_best? m m.functionName hne
  refine ⟨i, v, hv, ?_, hfirst, firstUnbeaten_beats_iff hfirst⟩
  rw [h.evaluate_eq_body (resolve_extremum m node items onTarget hcallee)]
  cases callee? <;>
    simp only [Builtin.extreme, Builtin.onArrayWithOption, Option.toList, heach, hbest, bind,
      Except.bind] <;> rfl

/-- Two integers that have the same float. -/
def closeIntegers : List Int64 :=
  [9007199254740992, 9007199254740993]

/-- The first one of these integers is the greatest element, though the second one is greater. -/
theorem evaluate_extremum_of_closeIntegers :
    Keyed (callbackAt .builtins 256 254 []) none (closeIntegers.map .integer)
        (closeIntegers.map .integer) ∧
      Applies (levelAt .builtins 256 255) [] [] Extremum.greatest.functionName
        (.call none "max" [.array (closeIntegers.map .integer)])
        [.ofItems (closeIntegers.map .integer)] false ∧
      evaluate .builtins 256 256 [] (.call none "max" [.array (closeIntegers.map .integer)]) [] =
        .ok (.integer 9007199254740992) ∧
      FirstUnbeaten Extremum.greatest.Beats (closeIntegers.map .integer) 1 := by
  have hkeys : Keyed (callbackAt .builtins 256 254 []) none (closeIntegers.map .integer)
      (closeIntegers.map .integer) :=
    ⟨⟨_, rfl, rfl⟩, by decide⟩
  have happlies : Applies (levelAt .builtins 256 255) [] [] Extremum.greatest.functionName
      (.call none "max" [.array (closeIntegers.map .integer)])
      [.ofItems (closeIntegers.map .integer)] false :=
    .named (by simp [Scope.get?]) rfl
  have hzero : FirstUnbeaten Extremum.greatest.BeatsAsFloat (closeIntegers.map .integer) 0 :=
    ⟨⟨_, rfl, by decide⟩, fun j hj => absurd hj j.not_lt_zero⟩
  have hone : FirstUnbeaten Extremum.greatest.Beats (closeIntegers.map .integer) 1 := by
    refine ⟨⟨_, rfl, by decide⟩, ?_⟩
    rintro j hj ⟨a, ha, hbeaten⟩
    obtain rfl : j = 0 := by omega
    obtain rfl := Option.some.inj ha
    exact absurd hbeaten (by decide)
  obtain ⟨i, v, hv, hvalue, hfirst, -⟩ :=
    evaluate_extremum .greatest (by decide) (by simp) hkeys happlies
  obtain rfl := hfirst.unique hzero
  obtain rfl := Option.some.inj hv
  exact ⟨hkeys, happlies, hvalue, hone⟩

end Eval

end Stencil

import Stencil.Number.Binary

/-!
# Shortest decimals

The fewest decimal digits that read back to a float. The reals that round to `m * 2 ^ e` form an
interval around it; the search goes from coarse decimal grids to finer ones and stops at the first
grid with a point in the interval next to the value.
-/

namespace Stencil

/-- Which of two equally near decimals is taken. -/
inductive Tie where
  | toEven
  | up
deriving DecidableEq

/-- The number `digits * 10 ^ exponent`. -/
structure Digits where
  digits : Nat
  exponent : Int
deriving DecidableEq

namespace Shortest

/-- The reals that round to a positive float, as `low / scale` to `high / scale` around
`value / scale`. The ends belong to it when `closed`. -/
structure Interval where
  low : Nat
  value : Nat
  high : Nat
  scale : Nat
  closed : Bool

/-- Half the gap to the next float on each side; below a power of two the gap is half as wide. -/
def intervalOf (b : Binary) : Interval :=
  let unit := Nat.pow 2 (b.exponent - 2).toNat
  let below := if b.mantissa = Nat.pow 2 52 ∧ -1074 < b.exponent then 1 else 2
  { low := (4 * b.mantissa - below) * unit
    value := 4 * b.mantissa * unit
    high := (4 * b.mantissa + 2) * unit
    scale := Nat.pow 2 (2 - b.exponent).toNat
    closed := b.mantissa % 2 = 0 }

/-- Whether `num / den` lies in the interval. -/
def Interval.contains (i : Interval) (num den : Nat) : Bool :=
  let point := num * i.scale
  if i.closed then i.low * den ≤ point && point ≤ i.high * den
  else i.low * den < point && point < i.high * den

/-- The grid of the multiples of `10 ^ p` near the value: the number of the point at or below it,
and the grid's step as a ratio. -/
def step (p : Int) : Nat × Nat :=
  (Nat.pow 10 p.toNat, Nat.pow 10 (-p).toNat)

/-- The point of the grid `10 ^ p` to take, if one next to the value is in the interval. -/
def pointOn (tie : Tie) (i : Interval) (p : Int) : Option Nat :=
  let (num, den) := step p
  let point := i.value * den / (i.scale * num)
  let fits (n : Nat) : Bool := i.contains (n * num) den
  match fits point, fits (point + 1) with
  | false, false => none
  | true, false => some point
  | false, true => some (point + 1)
  | true, true =>
    let middle := (2 * point + 1) * num * i.scale
    match compare (2 * (i.value * den)) middle with
    | .lt => some point
    | .gt => some (point + 1)
    | .eq =>
      match tie with
      | .up => some (point + 1)
      | .toEven => some (point + point % 2)

/-- Goes to finer grids until one has a point, at most `fuel` times. -/
def search (tie : Tie) (i : Interval) : Nat → Int → Digits
  | 0, p => ⟨i.value * (step p).2 / (i.scale * (step p).1), p⟩
  | fuel + 1, p =>
    match pointOn tie i p with
    | some n => ⟨n, p⟩
    | none => search tie i fuel (p - 1)

/-- An exponent of ten above the value, and close to it: `log10 2` is a little over `0.3`. -/
def coarsest (i : Interval) : Int :=
  let bits : Int := (i.value.log2 : Int) - i.scale.log2 + 1
  bits * 30103 / 100000 + 2

/-- The shortest digits of a positive float. Seventeen are always enough, and the first grid is at
most four places above the leading digit. -/
def ofBinary (tie : Tie) (b : Binary) : Digits :=
  let i := intervalOf b
  search tie i 21 (coarsest i)

end Shortest

end Stencil

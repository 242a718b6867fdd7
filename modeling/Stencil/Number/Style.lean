import Stencil.Number.Shortest

/-!
# The text of a float

A style decides how the shortest digits of a float are laid out. `Style.value` is the one of
written values, `Style.message` the one of messages.
-/

namespace Stencil

/-- The decisions of a layout. A float is `0.d₁d₂… * 10 ^ point`. -/
structure Style where
  /-- The least `point` written without an exponent, if there is one. -/
  lowest : Option Int
  /-- The greatest `point` written without an exponent, if there is one. -/
  highest : Option Int
  /-- Whether whole numbers end in `.0`. -/
  wholePoint : Bool
  tie : Tie

namespace Style

/-- Up to sixteen digits before the point and four zeros after it are written out; longer numbers
get an exponent. -/
def value : Style where
  lowest := some (-4)
  highest := some 16
  wholePoint := true
  tie := .toEven

/-- No exponents, and whole numbers without a point. -/
def message : Style where
  lowest := none
  highest := none
  wholePoint := false
  tie := .up

def positional (s : Style) (point : Int) : Bool :=
  s.lowest.all (· ≤ point) && s.highest.all (point ≤ ·)

def zeros (n : Nat) : List Char :=
  List.replicate n '0'

/-- Digits with the point at its place. -/
def fixed (s : Style) (ds : List Char) (point : Int) : List Char :=
  if point ≤ 0 then '0' :: '.' :: (zeros (-point).toNat ++ ds)
  else if ds.length ≤ point.toNat then
    ds ++ zeros (point.toNat - ds.length) ++ (if s.wholePoint then ['.', '0'] else [])
  else ds.take point.toNat ++ '.' :: ds.drop point.toNat

/-- One digit before the point, and an exponent that always has its sign. -/
def scientific (ds : List Char) (point : Int) : List Char :=
  let e := point - 1
  let fraction := match ds.drop 1 with
    | [] => []
    | rest => '.' :: rest
  ds.take 1 ++ fraction ++ ['e', if e < 0 then '-' else '+'] ++ Nat.toDigits 10 e.natAbs

def layout (s : Style) (d : Digits) : List Char :=
  let ds := Nat.toDigits 10 d.digits
  let point := d.exponent + ds.length
  if s.positional point then s.fixed ds point else scientific ds point

/-- The text of a float in a style. -/
def render (s : Style) (x : Float) : String :=
  match Binary.ofFloat? x with
  | none => if x.isNaN then "NaN" else if x < 0 then "-inf" else "inf"
  | some b =>
    let sign := if b.negative then ['-'] else []
    let body :=
      if b.mantissa = 0 then if s.wholePoint then ['0', '.', '0'] else ['0']
      else s.layout (Shortest.ofBinary s.tie b)
    String.ofList (sign ++ body)

example : value.render 1e16 = "1e+16" ∧ value.render 1.5e-7 = "1.5e-7" ∧
    value.render 1.2e-5 = "0.000012" ∧ value.render (-0.0) = "-0.0" ∧
    message.render 1e16 = "10000000000000000" := by decide +kernel

end Style

end Stencil

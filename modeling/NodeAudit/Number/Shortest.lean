import NodeAudit.Number.Decimal

/-! The shortest decimal that reads back as a given binary number, and its text. -/
namespace NodeAudit.Binary64

/-- The reals that round to a number, as numerators over one denominator. The ends belong to it
when the significand is even. -/
structure Basin where
  low : Nat
  middle : Nat
  high : Nat
  den : Nat
  closed : Bool

/-- Below a power of two the neighbour is only half as far away. -/
def basin (x : Binary64) : Basin :=
  let below := if x.significand = twoTo 52 ∧ -1074 < x.exponent then 1 else 2
  let shift := x.exponent - 2
  let factor := twoTo shift.toNat
  { low := (4 * x.significand - below) * factor
    middle := 4 * x.significand * factor
    high := (4 * x.significand + 2) * factor
    den := twoTo (-shift).toNat
    closed := x.significand % 2 == 0 }

def Basin.holds (basin : Basin) (digits : Nat) (exponent : Int) : Bool :=
  let point := digits * tenTo exponent.toNat * basin.den
  let unit := tenTo (-exponent).toNat
  if basin.closed then basin.low * unit ≤ point && point ≤ basin.high * unit
  else basin.low * unit < point && point < basin.high * unit

def Basin.size (basin : Basin) : Int :=
  (digits (basin.middle * tenTo 350 / basin.den)).length - 350

/-- The point of the grid of `10 ^ exponent` that is in the basin and nearest to its middle. -/
def Basin.point? (basin : Basin) (exponent : Int) : Option Nat :=
  let num := basin.middle * tenTo (-exponent).toNat
  let den := basin.den * tenTo exponent.toNat
  let down := num / den
  let nearer := Binary64.roundHalfEven num den
  let other := if nearer = down then down + 1 else down
  if basin.holds nearer exponent then some nearer
  else if basin.holds other exponent then some other
  else none

def search (basin : Basin) : Nat → Int → Decimal
  | 0, exponent => ⟨basin.middle / basin.den, exponent⟩
  | fuel + 1, exponent =>
    match basin.point? exponent with
    | some point => ⟨point, exponent⟩
    | none => search basin fuel (exponent - 1)

/-- Grids are tried from the one of a single digit down to that of seventeen. -/
def shortest (x : Binary64) : Decimal :=
  if x.isZero then ⟨0, 0⟩ else search x.basin 17 (x.basin.size - 1)

def trimmed (d : Decimal) : List Nat × Int :=
  let reversed := (digits d.significand).reverse
  let zeros := (reversed.takeWhile (· == 0)).length
  ((reversed.drop zeros).reverse, d.exponent + zeros)

def shownDigits (ds : List Nat) : String :=
  String.ofList (ds.map fun d => Char.ofNat (0x30 + d))

def zeros (n : Nat) : String := String.ofList (List.replicate n '0')

/-- From `10 ^ -5` to below `10 ^ 16` the point stands where it belongs, with a digit on either
side; beyond, the exponent is written with its sign. -/
def text (x : Binary64) : String :=
  let sign := if x.negative then "-" else ""
  if x.isZero then sign ++ "0.0"
  else
    let (ds, last) := trimmed x.shortest
    let first : Int := last + ds.length - 1
    if first < -5 ∨ 16 ≤ first then
      let fraction := if ds.length ≤ 1 then "" else "." ++ shownDigits (ds.drop 1)
      let exponent := if first < 0 then "e-" else "e+"
      sign ++ shownDigits (ds.take 1) ++ fraction ++ exponent ++ decimal first.natAbs
    else if 0 ≤ last then sign ++ shownDigits ds ++ zeros last.toNat ++ ".0"
    else if 0 ≤ first then
      let (whole, fraction) := ds.splitAt (first.toNat + 1)
      sign ++ shownDigits whole ++ "." ++ shownDigits fraction
    else sign ++ "0." ++ zeros (-first - 1).toNat ++ shownDigits ds

end NodeAudit.Binary64

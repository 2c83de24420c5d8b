import NodeAudit.Number.Binary64
import NodeAudit.Text.Ascii

/-! Decimal numbers `significand * 10 ^ exponent` and two ways to a binary one: the nearest, and
scaling in steps of at most `10 ^ 308` with a rounding at each step. -/
namespace NodeAudit

structure Decimal where
  significand : Nat
  exponent : Int
deriving DecidableEq

namespace Decimal

/-- The nearest binary number, or nothing where that is infinite. Numbers far outside the range
are told from the count of their digits. -/
def nearest? (d : Decimal) : Option Binary64 :=
  let size : Int := d.exponent + (digits d.significand).length
  if d.significand = 0 ∨ size < -330 then some .zero
  else if 330 < size then none
  else if 0 ≤ d.exponent then
    (Binary64.nearest? (d.significand * tenTo d.exponent.toNat) 1 0).map (⟨false, ·⟩)
  else
    (Binary64.nearest? d.significand (tenTo (-d.exponent).toNat) 0).map (⟨false, ·⟩)

def power (k : Nat) : Binary64 := (Binary64.ofNat? (tenTo k)).getD .zero

/-- Scales a number by a power of ten, a step of `10 ^ 308` at a time while the power is below the
reach of one step. -/
def scale? : Nat → Binary64 → Int → Option Binary64
  | 0, _, _ => none
  | fuel + 1, x, exponent =>
    if 0 ≤ exponent ∧ exponent ≤ 308 then x.times? (power exponent.toNat)
    else if -308 ≤ exponent ∧ exponent < 0 then x.over? (power (-exponent).toNat)
    else if x.isZero then some x
    else if 0 < exponent then none
    else (x.over? (power 308)).bind fun y => scale? fuel y (exponent + 308)

/-- The number of a significand below `2 ^ 64`, scaled stepwise: not always the nearest one. -/
def stepwise? (d : Decimal) : Option Binary64 :=
  (Binary64.ofNat? d.significand).bind fun x =>
    scale? (d.exponent.natAbs + 1) x d.exponent

end Decimal
end NodeAudit

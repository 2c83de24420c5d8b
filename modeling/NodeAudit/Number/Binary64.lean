/-! Finite binary floating-point numbers of 64 bits, and the rounding of a quotient of natural
numbers to the nearest of them. -/
namespace NodeAudit

abbrev twoTo (n : Nat) : Nat := Nat.pow 2 n

abbrev tenTo (n : Nat) : Nat := Nat.pow 10 n

/-- The number of bit patterns of finite magnitudes, `2047 * 2 ^ 52`. -/
abbrev Binary64.patterns : Nat := 9218868437227405312

/-- The magnitude is the bit pattern without the sign. Patterns ascend with the numbers they stand
for, and those from `patterns` on are infinite or no numbers. -/
structure Binary64 where
  negative : Bool
  magnitude : Fin Binary64.patterns
deriving DecidableEq

namespace Binary64

def zero : Binary64 := ⟨false, ⟨0, by decide⟩⟩

def isZero (x : Binary64) : Bool := x.magnitude.val == 0

/-- Equality of numbers, under which zero has no sign. -/
def agrees (x y : Binary64) : Bool := x == y || (x.isZero && y.isZero)

/-- With `exponent` the number is `significand * 2 ^ exponent`, up to its sign. -/
def significand (x : Binary64) : Nat :=
  if x.magnitude.val < twoTo 52 then x.magnitude.val else x.magnitude.val % twoTo 52 + twoTo 52

def exponent (x : Binary64) : Int := (max 1 (x.magnitude.val / twoTo 52) : Nat) - 1075

/-- The quotient rounded to the nearest natural number, a half to the even neighbour. -/
def roundHalfEven (num den : Nat) : Nat :=
  let low := num / den
  let left := num % den
  if den < 2 * left ∨ (2 * left = den ∧ low % 2 = 1) then low + 1 else low

/-- The quotient of `num * 2 ^ shift` by `den` in lowest form of the power, rounded. -/
def roundScaled (num den : Nat) (shift : Int) : Nat :=
  if 0 ≤ shift then roundHalfEven (num * twoTo shift.toNat) den
  else roundHalfEven num (den * twoTo (-shift).toNat)

/-- The greatest `e` for which `2 ^ e` is at most `num / den`. -/
def floorLog (num den : Nat) : Int :=
  let guess : Int := (Nat.log2 num : Int) - Nat.log2 den
  let reached :=
    if 0 ≤ guess then den * twoTo guess.toNat ≤ num else den ≤ num * twoTo (-guess).toNat
  if reached then guess else guess - 1

/-- The magnitude nearest to `num / den * 2 ^ shift`, or nothing where that is infinite. -/
def nearest? (num den : Nat) (shift : Int) : Option (Fin patterns) :=
  if num = 0 then some zero.magnitude
  else
    let unit := max (floorLog num den + shift - 52) (-1074)
    let rounded := roundScaled num den (shift - unit)
    let pattern := (unit + 1074).toNat * twoTo 52 + rounded
    if finite : pattern < patterns then some ⟨pattern, finite⟩ else none

def ofNat? (n : Nat) : Option Binary64 := (nearest? n 1 0).map (⟨false, ·⟩)

def negate (x : Binary64) : Binary64 := { x with negative := !x.negative }

def times? (x y : Binary64) : Option Binary64 :=
  (nearest? (x.significand * y.significand) 1 (x.exponent + y.exponent)).map
    (⟨x.negative, ·⟩)

def over? (x y : Binary64) : Option Binary64 :=
  (nearest? x.significand y.significand (x.exponent - y.exponent)).map (⟨x.negative, ·⟩)

end Binary64

end NodeAudit

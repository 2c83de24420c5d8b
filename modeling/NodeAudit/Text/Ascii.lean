/-! Byte strings, the ASCII bytes that the text formats of this library single out, and numbers in
base ten and sixteen. -/
namespace NodeAudit

/-- A byte string. Every reader of the library takes one and gives back what it left unread. -/
abbrev Bytes := List UInt8

abbrev ascii (c : Char) : UInt8 := c.toUInt8

def word (s : String) : Bytes := s.toList.map ascii

def digit? (b : UInt8) : Option Nat :=
  if 0x30 ≤ b ∧ b ≤ 0x39 then some (b.toNat - 0x30) else none

def hex? (b : UInt8) : Option Nat :=
  if 0x30 ≤ b ∧ b ≤ 0x39 then some (b.toNat - 0x30)
  else if 0x41 ≤ b ∧ b ≤ 0x46 then some (b.toNat - 0x37)
  else if 0x61 ≤ b ∧ b ≤ 0x66 then some (b.toNat - 0x57)
  else none

def hexOf? (c : Char) : Option Nat := if c.toNat < 0x80 then hex? c.toUInt8 else none

def hexDigit (n : Nat) : Char :=
  Char.ofNat (if n < 10 then 0x30 + n else 0x57 + n)

def hexadecimal (n : Nat) : List Char := (Nat.toDigits 16 n)

def Bytes.hex (bytes : Bytes) : String :=
  String.ofList (bytes.flatMap fun b => [hexDigit (b.toNat / 16), hexDigit (b.toNat % 16)])

def Bytes.ofHex? : List Char → Option Bytes
  | [] => some []
  | [_] => none
  | a :: b :: rest => do
    let high ← hexOf? a
    let low ← hexOf? b
    return UInt8.ofNat (16 * high + low) :: (← Bytes.ofHex? rest)

/-- The digits of a number in base ten, the first of them for the highest power. -/
def digits (n : Nat) : List Nat := go (n + 1) n []
where
  go : Nat → Nat → List Nat → List Nat
    | 0, _, done => done
    | fuel + 1, n, done =>
      if n < 10 then n :: done else go fuel (n / 10) (n % 10 :: done)

def decimal (n : Nat) : String :=
  String.ofList ((digits n).map fun d => Char.ofNat (0x30 + d))

def signedDecimal (i : Int) : String :=
  if i < 0 then "-" ++ decimal i.natAbs else decimal i.natAbs

namespace Ordinal

inductive Problem where
  | empty
  | invalidDigit
  | tooLarge
deriving DecidableEq

def Problem.message : Problem → String
  | .empty => "cannot parse integer from empty string"
  | .invalidDigit => "invalid digit found in string"
  | .tooLarge => "number too large to fit in target type"

def digit? (c : Char) : Option Nat :=
  if '0' ≤ c ∧ c ≤ '9' then some (c.toNat - 0x30) else none

/-- Reads digits onto a number. The first character that does not fit decides what is wrong. -/
def digits : Nat → List Char → Except Problem Nat
  | n, [] => .ok n
  | n, c :: rest =>
    match digit? c with
    | none => .error .invalidDigit
    | some d => if n * 10 + d < 4294967296 then digits (n * 10 + d) rest else .error .tooLarge

/-- Reads a number, before which a plus sign may stand. -/
def read : List Char → Except Problem Nat
  | [] => .error .empty
  | ['+'] => .error .invalidDigit
  | '+' :: rest => digits 0 rest
  | text => digits 0 text

end Ordinal
end NodeAudit

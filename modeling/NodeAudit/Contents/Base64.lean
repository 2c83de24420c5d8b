import NodeAudit.Text.Ascii

/-! Base64 with the standard alphabet and its canonical padding: every byte string has one written
form, and nothing else can be read. -/
namespace NodeAudit.Base64

def value? (b : UInt8) : Option Nat :=
  if 0x41 ≤ b ∧ b ≤ 0x5A then some (b.toNat - 0x41)
  else if 0x61 ≤ b ∧ b ≤ 0x7A then some (b.toNat - 0x61 + 26)
  else if 0x30 ≤ b ∧ b ≤ 0x39 then some (b.toNat - 0x30 + 52)
  else if b = ascii '+' then some 62
  else if b = ascii '/' then some 63
  else none

def symbol (n : Nat) : UInt8 :=
  if n < 26 then UInt8.ofNat (0x41 + n)
  else if n < 52 then UInt8.ofNat (0x61 + n - 26)
  else if n < 62 then UInt8.ofNat (0x30 + n - 52)
  else if n = 62 then ascii '+'
  else ascii '/'

def pad : UInt8 := ascii '='

/-- Three bytes make four symbols; what is missing at the end is padded. -/
def encode : Bytes → Bytes
  | a :: b :: c :: rest =>
    let n := (a.toNat * 256 + b.toNat) * 256 + c.toNat
    symbol (n / 262144) :: symbol (n / 4096 % 64) :: symbol (n / 64 % 64) :: symbol (n % 64) ::
      encode rest
  | [a, b] =>
    let n := (a.toNat * 256 + b.toNat) * 4
    [symbol (n / 4096), symbol (n / 64 % 64), symbol (n % 64), pad]
  | [a] =>
    let n := a.toNat * 16
    [symbol (n / 64), symbol (n % 64), pad, pad]
  | [] => []

inductive Problem where
  | invalidByte (byte : UInt8) (offset : Nat)
  | strayBits
  | padding
  | lastSymbol (byte : UInt8) (offset : Nat)
deriving DecidableEq

private def placed (byte : UInt8) (offset : Nat) : String :=
  decimal byte.toNat ++ ", offset " ++ decimal offset ++ "."

def Problem.message : Problem → String
  | .invalidByte byte offset => "Invalid byte " ++ placed byte offset
  | .strayBits => "Encoded text cannot have a 6-bit remainder."
  | .padding => "Invalid padding"
  | .lastSymbol byte offset => "Invalid last symbol " ++ placed byte offset

def front : Nat → Bytes → Except Problem (List Nat)
  | _, [] => .ok []
  | offset, b :: s =>
    match value? b with
    | some n => (n :: ·) <$> front (offset + 1) s
    | none => .error (.invalidByte b offset)

/-- The numbers of the symbols at the end. Padding may begin in the third place of a group and ends
the text; `padded` is where it began. -/
def ending (start : Nat) : Nat → Option Nat → Bytes → Except Problem (List Nat)
  | _, _, [] => .ok []
  | offset, padded, b :: s =>
    if b = pad then
      let first := padded.getD offset
      if (offset - start) % 4 < 2 then .error (.invalidByte pad first)
      else ending start (offset + 1) (some first) s
    else
      match padded, value? b with
      | some first, _ => .error (.invalidByte pad first)
      | none, some n => (n :: ·) <$> ending start (offset + 1) none s
      | none, none => .error (.invalidByte b offset)

/-- The bytes of groups of four numbers, the last of which may have two or three. -/
def assemble : List Nat → Bytes
  | a :: b :: c :: d :: rest =>
    let n := ((a * 64 + b) * 64 + c) * 64 + d
    UInt8.ofNat (n / 65536) :: UInt8.ofNat (n / 256 % 256) :: UInt8.ofNat (n % 256) :: assemble rest
  | [a, b, c] =>
    let n := (a * 64 + b) * 64 + c
    [UInt8.ofNat (n / 1024), UInt8.ofNat (n / 4 % 256)]
  | [a, b] => [UInt8.ofNat ((a * 64 + b) / 16)]
  | _ => []

def leftBits (numbers : List Nat) : Nat :=
  let last := numbers.getLast?.getD 0
  if numbers.length % 4 = 2 then last % 16
  else if numbers.length % 4 = 3 then last % 4
  else 0

/-- Decodes a text of whole groups. Padding is looked for in the last eight symbols only, so that a
fault before them is reported first. -/
def decodeGroups (text : Bytes) : Except Problem Bytes := do
  let start := (text.length - 1) / 8 * 8
  let head ← front 0 (text.take start)
  let tail ← ending start start none (text.drop start)
  let numbers := head ++ tail
  if text.length % 4 ≠ 0 then .error .padding
  else if leftBits numbers ≠ 0 then
    let offset := numbers.length - 1
    .error (.lastSymbol ((text.drop offset).headD 0) offset)
  else return assemble numbers

def decode (text : Bytes) : Except Problem Bytes :=
  if text.length % 4 = 1 then
    let last := text.getLast?.getD 0
    if last ≠ pad ∧ value? last = none then .error (.invalidByte last (text.length - 1))
    else .error .strayBits
  else decodeGroups text

end NodeAudit.Base64

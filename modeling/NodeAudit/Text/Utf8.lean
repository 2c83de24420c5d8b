import NodeAudit.Text.Ascii

/-! UTF-8: each character as one to four bytes, and the reading of bytes up to the first
sequence that is no character. -/
namespace NodeAudit.Utf8

def encode (chars : List Char) : Bytes := chars.flatMap String.utf8EncodeChar

def continues (b : UInt8) : Bool := 0x80 ≤ b && b < 0xC0

def six (b : UInt8) : Nat := b.toNat - 0x80

/-- The character of a two-byte sequence. Shorter spellings of the same character are refused here
and in the two functions below. -/
def two? (a b : UInt8) : Option Char :=
  let n := (a.toNat - 0xC0) * 64 + six b
  if 0xC0 ≤ a ∧ a < 0xE0 ∧ continues b ∧ 0x80 ≤ n then some (Char.ofNat n) else none

def three? (a b c : UInt8) : Option Char :=
  let n := ((a.toNat - 0xE0) * 64 + six b) * 64 + six c
  if 0xE0 ≤ a ∧ a < 0xF0 ∧ continues b ∧ continues c ∧ 0x800 ≤ n ∧ n.isValidChar then
    some (Char.ofNat n)
  else none

def four? (a b c d : UInt8) : Option Char :=
  let n := (((a.toNat - 0xF0) * 64 + six b) * 64 + six c) * 64 + six d
  if 0xF0 ≤ a ∧ a < 0xF8 ∧ continues b ∧ continues c ∧ continues d ∧
      0x10000 ≤ n ∧ n.isValidChar then
    some (Char.ofNat n)
  else none

def note (c : Char) (read : List Char × Bytes) : List Char × Bytes := (c :: read.1, read.2)

/-- The characters up to the first malformed sequence, and the bytes from there on. -/
def decode : Bytes → List Char × Bytes
  | [] => ([], [])
  | a :: s =>
    if a < 0x80 then note (Char.ofNat a.toNat) (decode s)
    else
      match s with
      | [] => ([], [a])
      | b :: t =>
        match two? a b with
        | some char => note char (decode t)
        | none =>
          match t with
          | [] => ([], [a, b])
          | c :: u =>
            match three? a b c with
            | some char => note char (decode u)
            | none =>
              match u with
              | [] => ([], [a, b, c])
              | d :: v =>
                match four? a b c d with
                | some char => note char (decode v)
                | none => ([], a :: b :: c :: d :: v)

def chars? (bytes : Bytes) : Option (List Char) :=
  match decode bytes with
  | (chars, []) => some chars
  | _ => none

def text? (bytes : Bytes) : Option String := (chars? bytes).map String.ofList

def bytes (text : String) : Bytes := encode text.toList

def mark : Char := '\uFEFF'

end NodeAudit.Utf8

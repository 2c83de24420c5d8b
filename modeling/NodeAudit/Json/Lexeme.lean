import NodeAudit.Json.Cause
import NodeAudit.Number.Decimal
import NodeAudit.Text.Utf8

/-! The lexemes of JSON: blanks, literals, strings and numbers. A reader gives what it read and the
bytes after it. -/
namespace NodeAudit.Json.Read

variable {α : Type}

/-- Stops after the bytes consumed so far. -/
def stop (flaw : Flaw) (left : Bytes) : Except Stop α := .error ⟨.flaw flaw, left.length, false⟩

/-- Stops at the next byte, which was looked at but is not consumed. -/
def stopAt (flaw : Flaw) (left : Bytes) : Except Stop α := .error ⟨.flaw flaw, left.length, true⟩

def misfit (misfit : Misfit) (left : Bytes) : Except Stop α :=
  .error ⟨.misfit misfit, left.length, false⟩

def blank (b : UInt8) : Bool := b == 0x20 || b == 0x0A || b == 0x09 || b == 0x0D

def skipBlanks (s : Bytes) : Bytes := s.dropWhile blank

def literal : Bytes → Bytes → Except Stop Bytes
  | [], s => .ok s
  | _ :: _, [] => stop .endOfValue []
  | expected :: more, b :: s =>
    if b = expected then literal more s else stop .expectedLiteral s

def unit? (a b c d : UInt8) : Option Nat := do
  return (((← hex? a) * 16 + (← hex? b)) * 16 + (← hex? c)) * 16 + (← hex? d)

def leading (n : Nat) : Bool := 0xD800 ≤ n && n < 0xDC00

def trailing (n : Nat) : Bool := 0xDC00 ≤ n && n < 0xE000

def escape? (b : UInt8) : Option UInt8 :=
  if b = ascii '"' ∨ b = ascii '\\' ∨ b = ascii '/' then some b
  else if b = ascii 'b' then some 0x08
  else if b = ascii 'f' then some 0x0C
  else if b = ascii 'n' then some 0x0A
  else if b = ascii 'r' then some 0x0D
  else if b = ascii 't' then some 0x09
  else none

def add (before : Bytes) (read : Except Stop (Bytes × Bytes)) :
    Except Stop (Bytes × Bytes) :=
  read.map fun (content, rest) => (before ++ content, rest)

/-- The bytes that a string stands for, from after its opening quote on, with what follows its
closing quote. Surrogate escapes must come in pairs. -/
def content : Bytes → Except Stop (Bytes × Bytes)
  | [] => stop .endOfText []
  | b :: s =>
    if b = ascii '"' then .ok ([], s)
    else if b = ascii '\\' then
      match s with
      | [] => stop .endOfText []
      | e :: s =>
        if e = ascii 'u' then
          match s with
          | h₁ :: h₂ :: h₃ :: h₄ :: s =>
            match unit? h₁ h₂ h₃ h₄ with
            | none => stop .invalidEscape s
            | some n =>
              if trailing n then stop .loneSurrogate s
              else if leading n then
                match s with
                | [] => stop .endOfText []
                | x :: s =>
                  if x = ascii '\\' then
                    match s with
                    | [] => stop .endOfText []
                    | y :: s =>
                      if y = ascii 'u' then
                        match s with
                        | l₁ :: l₂ :: l₃ :: l₄ :: s =>
                          match unit? l₁ l₂ l₃ l₄ with
                          | none => stop .invalidEscape s
                          | some m =>
                            if trailing m then
                              let c := Char.ofNat (0x10000 + (n - 0xD800) * 0x400 + (m - 0xDC00))
                              add (String.utf8EncodeChar c) (content s)
                            else stop .loneSurrogate s
                        | _ => stop .endOfText []
                      else stop .brokenPair s
                  else stop .brokenPair s
              else add (String.utf8EncodeChar (Char.ofNat n)) (content s)
          | _ => stop .endOfText []
        else
          match escape? e with
          | some c => add [c] (content s)
          | none => stop .invalidEscape s
    else if b < 0x20 then stop .controlCharacter s
    else add [b] (content s)

/-- Stops after the first byte of the first malformed sequence among the bytes from `s` to
`rest`. -/
def stopMalformed (s rest : Bytes) : Except Stop α :=
  let bad := (Utf8.decode (s.take (s.length - rest.length))).2
  .error ⟨.flaw .invalidCodePoint, rest.length + bad.length - 1, false⟩

def string (s : Bytes) : Except Stop (String × Bytes) :=
  match content s with
  | .error e => .error e
  | .ok (bytes, rest) =>
    match Utf8.text? bytes with
    | some value => .ok (value, rest)
    | none => stopMalformed s rest

def startsWithDigit : Bytes → Bool
  | [] => false
  | b :: _ => (digit? b).isSome

def skipDigits (s : Bytes) : Bytes := s.dropWhile fun b => (digit? b).isSome

/-- Takes digits into a significand as long as it stays below `2 ^ 64`; gives the significand, the
count of digits taken and the rest. -/
def gather : Nat → Nat → Bytes → Nat × Nat × Bytes
  | significand, taken, [] => (significand, taken, [])
  | significand, taken, b :: s =>
    match digit? b with
    | some d =>
      if significand * 10 + d < twoTo 64 then gather (significand * 10 + d) (taken + 1) s
      else (significand, taken, b :: s)
    | none => (significand, taken, b :: s)

def finishReal (negative : Bool) (d : Decimal) (s : Bytes) : Except Stop (Number × Bytes) :=
  match d.stepwise? with
  | some x => .ok (.real { x with negative }, s)
  | none => stop .numberOutOfRange s

def shifted (d : Decimal) (down : Bool) (e : Nat) : Decimal :=
  { d with exponent := d.exponent + if down then -(e : Int) else e }

/-- The digits of an exponent. One beyond 31 bits makes zero or a number out of range. -/
def exponentDigits (negative down : Bool) (d : Decimal) :
    Nat → Bytes → Except Stop (Number × Bytes)
  | e, [] => finishReal negative (shifted d down e) []
  | e, b :: s =>
    match digit? b with
    | some digit =>
      if e * 10 + digit < twoTo 31 then exponentDigits negative down d (e * 10 + digit) s
      else if d.significand ≠ 0 ∧ !down then stop .numberOutOfRange s
      else .ok (.real { Binary64.zero with negative }, skipDigits s)
    | none => finishReal negative (shifted d down e) (b :: s)

def exponentPart (negative : Bool) (d : Decimal) (s : Bytes) : Except Stop (Number × Bytes) :=
  let (down, s) :=
    match s with
    | b :: t =>
      if b = ascii '+' then (false, t) else if b = ascii '-' then (true, t) else (false, s)
    | [] => (false, s)
  match s with
  | [] => stop .endOfValue []
  | b :: t =>
    match digit? b with
    | some digit => exponentDigits negative down d digit t
    | none => stop .invalidNumber t

def afterDigits (negative : Bool) (d : Decimal) : Bytes → Except Stop (Number × Bytes)
  | [] => finishReal negative d []
  | b :: s =>
    if b = ascii 'e' ∨ b = ascii 'E' then exponentPart negative d s
    else finishReal negative d (b :: s)

/-- Reads a fraction from after its point on. Digits that no longer fit the significand are passed
over. -/
def fraction (negative : Bool) (d : Decimal) (s : Bytes) : Except Stop (Number × Bytes) :=
  let (significand, taken, rest) := gather d.significand 0 s
  let d : Decimal := ⟨significand, d.exponent - taken⟩
  if startsWithDigit rest then afterDigits negative d (skipDigits rest)
  else if taken = 0 then
    match rest with
    | [] => stopAt .endOfValue []
    | _ => stopAt .invalidNumber rest
  else afterDigits negative d rest

/-- A whole number, or in floating point where the integers of 64 bits end, and for minus zero. -/
def wholeNumber (negative : Bool) (n : Nat) : Number :=
  let i : Int := if negative then -n else n
  match if negative ∧ n = 0 then none else Number.ofInt? i with
  | some whole => whole
  | none => .real { (Binary64.ofNat? n).getD .zero with negative }

def afterWhole (negative : Bool) (n : Nat) : Bytes → Except Stop (Number × Bytes)
  | [] => .ok (wholeNumber negative n, [])
  | b :: s =>
    if b = ascii '.' then fraction negative ⟨n, 0⟩ s
    else if b = ascii 'e' ∨ b = ascii 'E' then exponentPart negative ⟨n, 0⟩ s
    else .ok (wholeNumber negative n, b :: s)

def afterLong (negative : Bool) (d : Decimal) : Bytes → Except Stop (Number × Bytes)
  | [] => finishReal negative d []
  | b :: s =>
    if b = ascii '.' then fraction negative d s else afterDigits negative d (b :: s)

def number (negative : Bool) : Bytes → Except Stop (Number × Bytes)
  | [] => stop .endOfValue []
  | b :: s =>
    match digit? b with
    | none => stop .invalidNumber s
    | some 0 =>
      if startsWithDigit s then stopAt .invalidNumber s else afterWhole negative 0 s
    | some first =>
      let (significand, _, rest) := gather first 0 s
      if startsWithDigit rest then
        let after := skipDigits rest
        afterLong negative ⟨significand, (rest.length - after.length : Nat)⟩ after
      else afterWhole negative significand rest

end NodeAudit.Json.Read

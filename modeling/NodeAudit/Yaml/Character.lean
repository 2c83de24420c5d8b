import NodeAudit.Text.Utf8

/-! The characters of a YAML text, each with its place. A line break of any form is one character,
and a line feed unless it is one of the two separators that Unicode adds. -/
namespace NodeAudit.Yaml

def admitted (c : Char) : Bool :=
  c == '\t' || c == '\n' || c == '\r' || c.toNat == 0x85 ||
    (0x20 ≤ c.toNat && c.toNat ≤ 0x7E) || (0xA0 ≤ c.toNat && c.toNat != 0xFFFE && c.toNat != 0xFFFF)

def isBlank (c : Char) : Bool := c == ' ' || c == '\t'

def isBreak (c : Char) : Bool := c == '\n' || c.toNat == 0x2028 || c.toNat == 0x2029

structure Placed where
  char : Char
  index : Nat
  line : Nat
  column : Nat

def place (index line column : Nat) : List Char → List Placed
  | [] => []
  | '\r' :: '\n' :: rest => ⟨'\n', index, line, column⟩ :: place (index + 2) (line + 1) 0 rest
  | c :: rest =>
    if c = '\r' ∨ c.toNat = 0x85 then
      ⟨'\n', index, line, column⟩ :: place (index + 1) (line + 1) 0 rest
    else if isBreak c then ⟨c, index, line, column⟩ :: place (index + 1) (line + 1) 0 rest
    else ⟨c, index, line, column⟩ :: place (index + 1) line (column + 1) rest

def characters? (text : Bytes) : Option (List Placed) := do
  let chars ← Utf8.chars? text
  if chars.all admitted then return place 0 0 0 chars else none

def next (test : Char → Bool) : List Placed → Bool
  | [] => false
  | p :: _ => test p.char

def ends : List Placed → Bool
  | [] => true
  | p :: _ => isBlank p.char || isBreak p.char

/-- Whether a line begins here with a character three times and nothing else joined to it. -/
def marker (c : Char) : List Placed → Bool
  | p₁ :: p₂ :: p₃ :: rest =>
    p₁.column == 0 && p₁.char == c && p₂.char == c && p₃.char == c && ends rest
  | _ => false

def documentMarker (s : List Placed) : Bool := marker '-' s || marker '.' s

def toBreak (s : List Placed) : List Placed := s.dropWhile fun p => !isBreak p.char

/-- Passes over blanks and a comment to the next line; anything else there is refused. -/
def endLine (s : List Placed) : Option (List Placed) :=
  let s := s.dropWhile fun p => isBlank p.char
  match if next (· == '#') s then toBreak s else s with
  | [] => some []
  | p :: rest => if isBreak p.char then some rest else none

def finish (reversed : List Char) : String := String.ofList reversed.reverse

end NodeAudit.Yaml

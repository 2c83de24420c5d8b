import NodeAudit.Yaml.Character

/-! The texts of scalars: plain, quoted, and as blocks of lines. Each reader gives the text and
the characters it left. -/
namespace NodeAudit.Yaml

/-- What stands between two words of a scalar, collected backwards. -/
inductive Gap where
  | blanks (reversed : List Char)
  /-- The first line break, unless it was escaped, and the breaks after it. -/
  | lines (first : Option Char) (reversed : List Char)

namespace Gap

def empty : Gap := .blanks []

def isEmpty : Gap → Bool
  | .blanks [] => true
  | _ => false

def broken : Gap → Bool
  | .blanks _ => false
  | .lines _ _ => true

/-- Adds a blank or a line break. Blanks around line breaks do not count. -/
def add (c : Char) : Gap → Gap
  | .blanks reversed => if isBreak c then .lines (some c) [] else .blanks (c :: reversed)
  | .lines first reversed => .lines first (if isBreak c then c :: reversed else reversed)

/-- What a gap becomes in the text: a single line feed a blank, and of several all but the first. -/
def folded : Gap → List Char
  | .blanks reversed => reversed
  | .lines none reversed => reversed
  | .lines (some first) reversed =>
    if first ≠ '\n' then reversed ++ [first]
    else if reversed.isEmpty then [' '] else reversed

end Gap

def flowIndicator (c : Char) : Bool :=
  c == ',' || c == '[' || c == ']' || c == '{' || c == '}'

namespace Scalar

/-- Whether a plain scalar ends at a word that follows a gap. -/
def plainEndsAt (flow : Bool) (indent : Nat) : List Placed → Bool
  | [] => true
  | p :: rest =>
    (!flow && p.column < indent) || documentMarker (p :: rest) || p.char == '#'

/-- Reads on in a plain scalar whose further lines are indented by at least `indent`. Tells also
whether a line ended after its last word. -/
def plain (flow : Bool) (indent : Nat) (gap : Gap) (text : List Char) :
    List Placed → Option (String × Bool × List Placed)
  | [] => some (finish text, gap.broken, [])
  | p :: rest =>
    if isBlank p.char || isBreak p.char then
      if p.char = '\t' ∧ gap.broken ∧ p.column < indent then none
      else plain flow indent (gap.add p.char) text rest
    else if !gap.isEmpty && plainEndsAt flow indent (p :: rest) then
      some (finish text, gap.broken, p :: rest)
    else if flow && p.char == ':' && next (fun c => c == '?' || flowIndicator c) rest then none
    else if (p.char == ':' && ends rest) || (flow && flowIndicator p.char) then
      some (finish text, gap.broken, p :: rest)
    else plain flow indent .empty (p.char :: gap.folded ++ text) rest

def singleQuote : Char := '\x27'

/-- Reads from after an opening single quote on. A quote inside is written twice. -/
def singleQuoted (gap : Gap) (text : List Char) : List Placed → Option (String × List Placed)
  | [] => none
  | p :: rest =>
    if isBlank p.char || isBreak p.char then singleQuoted (gap.add p.char) text rest
    else if documentMarker (p :: rest) then none
    else if p.char = singleQuote then
      match rest with
      | q :: rest =>
        if q.char = singleQuote then singleQuoted .empty (singleQuote :: gap.folded ++ text) rest
        else some (finish (gap.folded ++ text), q :: rest)
      | [] => some (finish (gap.folded ++ text), [])
    else singleQuoted .empty (p.char :: gap.folded ++ text) rest

def escape? (c : Char) : Option Char :=
  match c with
  | '0' => some '\x00'
  | 'a' => some '\x07'
  | 'b' => some '\x08'
  | 't' | '\t' => some '\t'
  | 'n' => some '\n'
  | 'v' => some '\x0b'
  | 'f' => some '\x0c'
  | 'r' => some '\r'
  | 'e' => some '\x1b'
  | ' ' => some ' '
  | '"' => some '"'
  | '/' => some '/'
  | '\\' => some '\\'
  | 'N' => some '\u0085'
  | '_' => some '\u00a0'
  | 'L' => some '\u2028'
  | 'P' => some '\u2029'
  | _ => none

def coded? (digits : List Placed) : Option Char := do
  let n ← digits.foldlM (fun n p => return 16 * n + (← hexOf? p.char)) 0
  if n.isValidChar then return Char.ofNat n else none

def doubleQuoted (gap : Gap) (text : List Char) : List Placed → Option (String × List Placed)
  | [] => none
  | p :: rest =>
    if isBlank p.char || isBreak p.char then doubleQuoted (gap.add p.char) text rest
    else if documentMarker (p :: rest) then none
    else if p.char = '"' then some (finish (gap.folded ++ text), rest)
    else if p.char = '\\' then
      match rest with
      | [] => none
      | e :: rest =>
        if isBreak e.char then doubleQuoted (.lines none []) (gap.folded ++ text) rest
        else if e.char = 'x' then
          match rest with
          | a :: b :: rest => do
            let c ← coded? [a, b]
            doubleQuoted .empty (c :: gap.folded ++ text) rest
          | _ => none
        else if e.char = 'u' then
          match rest with
          | a :: b :: c :: d :: rest => do
            let c ← coded? [a, b, c, d]
            doubleQuoted .empty (c :: gap.folded ++ text) rest
          | _ => none
        else if e.char = 'U' then
          match rest with
          | a :: b :: c :: d :: e :: f :: g :: h :: rest => do
            let c ← coded? [a, b, c, d, e, f, g, h]
            doubleQuoted .empty (c :: gap.folded ++ text) rest
          | _ => none
        else do
          let c ← escape? e.char
          doubleQuoted .empty (c :: gap.folded ++ text) rest
    else doubleQuoted .empty (p.char :: gap.folded ++ text) rest

inductive Chomping where
  | none
  | first
  | all

structure BlockHeader where
  chomping : Chomping := .first
  indentation : Option Nat := none

def chomping? : List Placed → Option (Chomping × List Placed)
  | [] => none
  | p :: rest =>
    if p.char = '+' then some (.all, rest) else if p.char = '-' then some (.none, rest) else none

def indentation? : List Placed → Option (Nat × List Placed)
  | [] => none
  | p :: rest =>
    if '0' ≤ p.char ∧ p.char ≤ '9' then some (p.char.toNat - 0x30, rest) else none

/-- Reads the signs of a header, in either order. -/
def headerSigns (s : List Placed) : BlockHeader × List Placed :=
  match chomping? s with
  | some (chomping, s) =>
    match indentation? s with
    | some (n, s) => (⟨chomping, some n⟩, s)
    | none => (⟨chomping, none⟩, s)
  | none =>
    match indentation? s with
    | some (n, s) =>
      match chomping? s with
      | some (chomping, s) => (⟨chomping, some n⟩, s)
      | none => (⟨.first, some n⟩, s)
    | none => ({}, s)

def header (s : List Placed) : Option (BlockHeader × List Placed) :=
  let (header, s) := headerSigns s
  if header.indentation = some 0 then none
  else (endLine s).map (header, ·)

/-- Passes over indentation and empty lines. Gives the breaks, backwards, and the widest line's
column, from which an indentation that is not known yet is found. -/
def margin (indent : Option Nat) (widest : Nat) (breaks : List Char) :
    List Placed → Option (Nat × List Char × List Placed)
  | [] => some (widest, breaks, [])
  | p :: rest =>
    let inside := indent.all (p.column < ·)
    if p.char = ' ' ∧ inside then margin indent widest breaks rest
    else if p.char = '\t' ∧ inside then none
    else if isBreak p.char then
      margin indent (max widest p.column) (p.char :: breaks) rest
    else some (max widest p.column, breaks, p :: rest)

/-- A block as far as it has been read: its text backwards, the break of its last line, the breaks
after that one, and whether that line began with a blank. -/
structure BlockText where
  text : List Char := []
  last : List Char := []
  further : List Char := []
  blank : Bool := false

/-- What joins a line to those before it. A lone line feed between lines that begin with no blank
is folded. -/
def BlockText.join (block : BlockText) (folded blank : Bool) : List Char :=
  if folded && block.last == ['\n'] && !block.blank && !blank then
    if block.further.isEmpty then [' '] else block.further
  else block.further ++ block.last

def blockLines (folded : Bool) (indent : Nat) :
    Nat → BlockText → List Placed → Option (BlockText × List Placed)
  | 0, _, _ => none
  | fuel + 1, block, s =>
    match s with
    | [] => some (block, [])
    | p :: _ =>
      if p.column ≠ indent then some (block, s)
      else do
        let blank := isBlank p.char
        let line := (s.takeWhile fun q => !isBreak q.char).map (·.char)
        let text := line.reverse ++ block.join folded blank ++ block.text
        let after := toBreak s
        let (_, further, rest) ← margin (some indent) 0 [] (after.drop 1)
        let last := (after.take 1).map (·.char)
        blockLines folded indent fuel { text, last, further, blank } rest

/-- Reads a block from after its indicator on, inside a collection indented by `parent`. -/
def block (folded : Bool) (parent : Option Nat) (s : List Placed) :
    Option (String × List Placed) := do
  let (header, s) ← header s
  let stated := header.indentation.map (parent.getD 0 + ·)
  let (widest, further, s) ← margin stated 0 [] s
  let least := match parent with
    | some n => n + 1
    | none => 1
  let indent := stated.getD (max widest least)
  let (block, rest) ← blockLines folded indent (s.length + 1) { further } s
  let tail :=
    match header.chomping with
    | .none => []
    | .first => block.last
    | .all => block.further ++ block.last
  return (finish (tail ++ block.text), rest)

end Scalar
end NodeAudit.Yaml

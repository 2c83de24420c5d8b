import NodeAudit.Contents.DataUrl
import NodeAudit.Yaml.Character

/-! Names of anchors, tags as they are written, and the directives that abbreviate tags. -/
namespace NodeAudit.Yaml

def nameCharacter (c : Char) : Bool := c.isAlphanum || c == '_' || c == '-'

def nameOf (s : List Placed) : String :=
  String.ofList ((s.takeWhile fun p => nameCharacter p.char).map (·.char))

def afterName (s : List Placed) : List Placed := s.dropWhile fun p => nameCharacter p.char

def anchorName? (s : List Placed) : Option (String × List Placed) :=
  let name := nameOf s
  let rest := afterName s
  let closed := ends rest || next (fun c => "?:,]\x7d%@`".toList.contains c) rest
  if name.isEmpty || !closed then none else some (name, rest)

namespace Tag

/-- A character that stands for itself in a tag. In a tag written out in full brackets and commas
may stand as well. -/
def plainCharacter (full : Bool) (c : Char) : Bool :=
  nameCharacter c || ";/?:@&=+$.!~*\x27()".toList.contains c || (full && ",[]".toList.contains c)

def owedAfter? (b : UInt8) : Option Nat :=
  if b < 0x80 then some 0
  else if b < 0xC0 then none
  else if b < 0xE0 then some 1
  else if b < 0xF0 then some 2
  else if b < 0xF8 then some 3
  else none

/-- Reads the characters of a tag, some escaped as bytes. The bytes of one character are escaped
together: `owed` of them are still to come. -/
def characters (full : Bool) (owed : Nat) : List Placed → Option (Bytes × List Placed)
  | [] => if owed = 0 then some ([], []) else none
  | p :: rest =>
    if p.char = '%' then
      match rest with
      | a :: b :: rest => do
        let byte := UInt8.ofNat (16 * (← hexOf? a.char) + (← hexOf? b.char))
        let owed ←
          if owed = 0 then owedAfter? byte
          else if Utf8.continues byte then some (owed - 1)
          else none
        let (bytes, rest) ← characters full owed rest
        return (byte :: bytes, rest)
      | _ => none
    else if owed ≠ 0 then none
    else if plainCharacter full p.char then do
      let (bytes, rest) ← characters full 0 rest
      return (ascii p.char :: bytes, rest)
    else some ([], p :: rest)

/-- Reads at least one character of a tag. A zero byte ends what counts. -/
def some? (full : Bool) (s : List Placed) : Option (Bytes × List Placed) := do
  let (bytes, rest) ← characters full 0 s
  if bytes.isEmpty then none else return (bytes.takeWhile (· ≠ 0), rest)

/-- A tag as it is written: what follows a handle, or the whole tag after an empty handle. -/
structure Written where
  handle : String
  suffix : Bytes
deriving DecidableEq

def bare (word : String) (s : List Placed) : Option (Written × List Placed) := do
  let (bytes, rest) ← characters false 0 s
  let suffix := (Utf8.bytes word ++ bytes).takeWhile (· ≠ 0)
  return (if suffix.isEmpty then ⟨"", [ascii '!']⟩ else ⟨"!", suffix⟩, rest)

/-- Reads a tag from after its indicator on, whatever may come after it. -/
def unchecked (s : List Placed) : Option (Written × List Placed) :=
  if next (· == '<') s then do
    let (suffix, rest) ← some? true (s.drop 1)
    if next (· == '>') rest then return (⟨"", suffix⟩, rest.drop 1) else none
  else
    let word := nameOf s
    let rest := afterName s
    if next (· == '!') rest then do
      let (suffix, rest) ← some? false (rest.drop 1)
      return (⟨"!" ++ word ++ "!", suffix⟩, rest)
    else bare word rest

def read (flow : Bool) (s : List Placed) : Option (Written × List Placed) := do
  let (tag, rest) ← unchecked s
  if ends rest || (flow && next (· == ',') rest) then return (tag, rest) else none

end Tag

inductive Directive where
  | version
  | handle (name : String) (start : Bytes)

namespace Directive

def number? (s : List Placed) : Option (Nat × List Placed) :=
  let digits := (s.takeWhile fun p => p.char.isDigit).map fun p => p.char.toNat - 0x30
  if digits.isEmpty || 9 < digits.length then none
  else some (digits.foldl (fun n d => 10 * n + d) 0, s.drop digits.length)

def skipBlanks (s : List Placed) : List Placed := s.dropWhile fun p => isBlank p.char

/-- Reads the version of the language, which has to be 1.1 or 1.2. -/
def version? (s : List Placed) : Option (Directive × List Placed) := do
  let (major, s) ← number? (skipBlanks s)
  if next (· == '.') s then
    let (minor, s) ← number? (s.drop 1)
    if major = 1 ∧ (minor = 1 ∨ minor = 2) then return (.version, s) else none
  else none

/-- Reads a handle, which is closed by an exclamation mark, or is one alone. -/
def handleName? (s : List Placed) : Option (String × List Placed) :=
  if next (· == '!') s then
    let word := nameOf (s.drop 1)
    let rest := afterName (s.drop 1)
    if next (· == '!') rest then some ("!" ++ word ++ "!", rest.drop 1)
    else if word.isEmpty then some ("!", rest)
    else none
  else none

def handle? (s : List Placed) : Option (Directive × List Placed) := do
  let (name, s) ← handleName? (skipBlanks s)
  if next isBlank s then
    let (start, s) ← Tag.some? true (skipBlanks s)
    if ends s then return (.handle name start, s) else none
  else none

def read (s : List Placed) : Option (Directive × List Placed) := do
  let name := nameOf s
  let rest := afterName s
  if !ends rest then none
  else
    let (directive, rest) ←
      if name = "YAML" then version? rest else if name = "TAG" then handle? rest else none
    return (directive, ← endLine rest)

end Directive
end NodeAudit.Yaml

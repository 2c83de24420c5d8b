import NodeAudit.Yaml.Scalar
import NodeAudit.Yaml.Tag

/-! The tokens of a YAML text. Indentation and the keys it implies are tokens too, so that the
grammar can be read from them without looking at places again. -/
namespace NodeAudit.Yaml

inductive Token where
  | directive (directive : Directive)
  | documentStart
  | documentEnd
  | blockSequence
  | blockMapping
  | blockEnd
  | flowSequence
  | flowSequenceEnd
  | flowMapping
  | flowMappingEnd
  | flowEntry
  | blockEntry
  | key
  | value
  | anchor (number : Nat)
  | reference (number : Nat)
  | tag (tag : Tag.Written)
  | scalar (plain : Bool) (text : String)

/-- The names of the anchors met so far, each with the number it has now. -/
abbrev Anchors := List (String × Nat)

namespace Anchors

/-- Numbers a name with the count of the names known before it. A name that is given again may
share its number with the next new one. -/
def give (name : String) (known : Anchors) : Anchors :=
  (name, known.length) :: known.filter fun entry => entry.1 ≠ name

def number? (name : String) (known : Anchors) : Option Nat :=
  (known.find? fun entry => entry.1 = name).map (·.2)

end Anchors

/-- A place where a key may have begun that only a later colon can tell. -/
structure PossibleKey where
  position : Nat
  required : Bool
  start : Placed

namespace PossibleKey

/-- Whether a colon at a character comes too late for the key: a key that needs no indicator stays
on one line and within 1024 characters. -/
def expired (key : PossibleKey) (p : Placed) : Bool :=
  key.start.line < p.line || key.start.index + 1024 < p.index

end PossibleKey

/-- A text read up to some character, with the collections that are open there. -/
structure Layout where
  rest : List Placed
  reversed : List Token := []
  /-- The columns of the open block collections, the innermost first. -/
  indents : List Nat := []
  keyAllowed : Bool := true
  /-- The key that may have begun in the innermost flow collection, or outside of all. -/
  possibleKey : Option PossibleKey := none
  outer : List (Option PossibleKey) := []
  anchors : Anchors := []

namespace Layout

def inFlow (layout : Layout) : Bool := !layout.outer.isEmpty

def add (layout : Layout) (token : Token) : Layout :=
  { layout with reversed := token :: layout.reversed }

def insert (layout : Layout) (position : Nat) (token : Token) : Layout :=
  let later := layout.reversed.length - position
  { layout with
    reversed := layout.reversed.take later ++ token :: layout.reversed.drop later }

/-- Whether an open key can still come; a required one that cannot is refused. -/
def keepKey (p : Placed) : Option PossibleKey → Option (Option PossibleKey)
  | none => some none
  | some key =>
    if !key.expired p then some (some key) else if key.required then none else some none

def expire (layout : Layout) (p : Placed) : Option Layout := do
  let possibleKey ← keepKey p layout.possibleKey
  let outer ← layout.outer.mapM (keepKey p)
  return { layout with possibleKey, outer }

def dropKey (layout : Layout) : Option Layout :=
  match layout.possibleKey with
  | some key => if key.required then none else some { layout with possibleKey := none }
  | none => some layout

def noteKey (layout : Layout) (p : Placed) : Option Layout :=
  if layout.keyAllowed then do
    let key : PossibleKey := {
      position := layout.reversed.length
      required := !layout.inFlow && layout.indents.head? == some p.column
      start := p }
    return { ← layout.dropKey with possibleKey := some key }
  else some layout

def closing (keep : Nat → Bool) : List Nat → List Token → List Nat × List Token
  | [], reversed => ([], reversed)
  | column :: indents, reversed =>
    if keep column then (column :: indents, reversed)
    else closing keep indents (.blockEnd :: reversed)

/-- Ends the innermost blocks up to the first that is kept. Inside flow collections none ends. -/
def closeBlocks (layout : Layout) (keep : Nat → Bool) : Layout :=
  if layout.inFlow then layout
  else
    let (indents, reversed) := closing keep layout.indents layout.reversed
    { layout with indents, reversed }

/-- Opens a block at a column, if no block is open there; its token goes to a position. -/
def openBlock (layout : Layout) (token : Token) (column position : Nat) : Layout :=
  if layout.inFlow || layout.indents.head?.any (column ≤ ·) then layout
  else { layout.insert position token with indents := column :: layout.indents }

def parent (layout : Layout) : Option Nat := layout.indents.head?

/-- Passes over blanks, comments and line breaks. A tab may not stand where a key may begin; after
a line break outside of flow collections a key may begin. -/
def skip (flow comment allowed : Bool) : List Placed → Bool × List Placed
  | [] => (allowed, [])
  | p :: rest =>
    if isBreak p.char then skip flow false (allowed || !flow) rest
    else if comment then skip flow true allowed rest
    else if p.char = ' ' ∨ (p.char = '\t' ∧ (flow ∨ !allowed)) then skip flow false allowed rest
    else if p.char = Utf8.mark ∧ p.index = 0 then skip flow false allowed rest
    else if p.char = '#' then skip flow true allowed rest
    else (allowed, p :: rest)

def startsPlain (flow : Bool) (c : Char) (rest : List Placed) : Bool :=
  if c == '-' then !next isBlank rest
  else if c == '?' || c == ':' then !flow && !ends rest
  else !isBlank c && !isBreak c && !flowIndicator c &&
    !"#&*!|>\x27\"%@`".toList.contains c

/-- A token that ends all blocks and before which no key can stand. -/
def atMargin (layout : Layout) (token : Token) (rest : List Placed) : Option Layout := do
  let layout ← (layout.closeBlocks fun _ => false).dropKey
  return { layout.add token with rest, keyAllowed := false }

def flowStart (layout : Layout) (token : Token) (p : Placed) (rest : List Placed) :
    Option Layout := do
  let layout ← layout.noteKey p
  return { layout.add token with
    rest, keyAllowed := true, possibleKey := none, outer := layout.possibleKey :: layout.outer }

def flowEnd (layout : Layout) (token : Token) (rest : List Placed) : Option Layout := do
  let layout ← layout.dropKey
  let (possibleKey, outer) :=
    match layout.outer with
    | key :: outer => (key, outer)
    | [] => (none, [])
  return { layout.add token with rest, keyAllowed := false, possibleKey, outer }

def separator (layout : Layout) (token : Token) (rest : List Placed) : Option Layout := do
  return { (← layout.dropKey).add token with rest, keyAllowed := true }

def indicated (layout : Layout) (block : Token) (p : Placed) : Option Layout :=
  if layout.inFlow then some layout
  else if layout.keyAllowed then some (layout.openBlock block p.column layout.reversed.length)
  else none

def blockEntry (layout : Layout) (p : Placed) (rest : List Placed) : Option Layout := do
  (← layout.indicated .blockSequence p).separator .blockEntry rest

def keyIndicator (layout : Layout) (p : Placed) (rest : List Placed) : Option Layout := do
  let layout ← (← layout.indicated .blockMapping p).dropKey
  return { layout.add .key with rest, keyAllowed := !layout.inFlow }

/-- The colon before a value. If a key may have begun, it did. -/
def valueIndicator (layout : Layout) (p : Placed) (rest : List Placed) : Option Layout :=
  match layout.possibleKey with
  | some key =>
    let layout := (layout.insert key.position .key).openBlock .blockMapping key.start.column
      key.position
    some { layout.add .value with rest, keyAllowed := false, possibleKey := none }
  | none => do
    let layout ← layout.indicated .blockMapping p
    return { layout.add .value with rest, keyAllowed := !layout.inFlow }

def anchor (layout : Layout) (p : Placed) (rest : List Placed) : Option Layout := do
  let layout ← layout.noteKey p
  let (name, rest) ← anchorName? rest
  return { layout.add (.anchor layout.anchors.length) with
    rest, keyAllowed := false, anchors := layout.anchors.give name }

/-- An alias, which must come after its anchor. -/
def reference (layout : Layout) (p : Placed) (rest : List Placed) : Option Layout := do
  let layout ← layout.noteKey p
  let (name, rest) ← anchorName? rest
  return { layout.add (.reference (← layout.anchors.number? name)) with rest, keyAllowed := false }

def tag (layout : Layout) (p : Placed) (rest : List Placed) : Option Layout := do
  let layout ← layout.noteKey p
  let (tag, rest) ← Tag.read layout.inFlow rest
  return { layout.add (.tag tag) with rest, keyAllowed := false }

def blockScalar (layout : Layout) (folded : Bool) (rest : List Placed) : Option Layout := do
  let layout ← layout.dropKey
  let (text, rest) ← Scalar.block folded layout.parent rest
  return { layout.add (.scalar false text) with rest, keyAllowed := true }

def quotedScalar (layout : Layout) (p : Placed) (rest : List Placed) : Option Layout := do
  let layout ← layout.noteKey p
  let (text, rest) ←
    if p.char = '"' then Scalar.doubleQuoted .empty [] rest
    else Scalar.singleQuoted .empty [] rest
  return { layout.add (.scalar false text) with rest, keyAllowed := false }

/-- A plain scalar. A key may follow it if a line ended after it. -/
def plainScalar (layout : Layout) (p : Placed) (rest : List Placed) : Option Layout := do
  let layout ← layout.noteKey p
  let indent := match layout.parent with
    | some n => n + 1
    | none => 0
  let (text, broken, rest) ← Scalar.plain layout.inFlow indent .empty [] (p :: rest)
  return { layout.add (.scalar true text) with rest, keyAllowed := broken }

def token (layout : Layout) (p : Placed) (rest : List Placed) : Option Layout := do
  let layout := (← layout.expire p).closeBlocks (· ≤ p.column)
  let c := p.char
  let flow := layout.inFlow
  if p.column == 0 && c == '%' then
    let (directive, rest) ← Directive.read rest
    layout.atMargin (.directive directive) rest
  else if marker '-' (p :: rest) then layout.atMargin .documentStart (rest.drop 2)
  else if marker '.' (p :: rest) then layout.atMargin .documentEnd (rest.drop 2)
  else if c == '[' then layout.flowStart .flowSequence p rest
  else if c == '{' then layout.flowStart .flowMapping p rest
  else if c == ']' then layout.flowEnd .flowSequenceEnd rest
  else if c == '}' then layout.flowEnd .flowMappingEnd rest
  else if c == ',' then layout.separator .flowEntry rest
  else if c == '-' && ends rest then layout.blockEntry p rest
  else if c == '?' && (flow || ends rest) then layout.keyIndicator p rest
  else if c == ':' && (flow || ends rest) then layout.valueIndicator p rest
  else if c == '*' then layout.reference p rest
  else if c == '&' then layout.anchor p rest
  else if c == '!' then layout.tag p rest
  else if c == '|' && !flow then layout.blockScalar false rest
  else if c == '>' && !flow then layout.blockScalar true rest
  else if c == '"' || c == Scalar.singleQuote then layout.quotedScalar p rest
  else if startsPlain flow c rest then layout.plainScalar p rest
  else none

/-- Reads tokens to the end of the text. Each takes at least one character. -/
def run : Nat → Layout → Option (List Token)
  | 0, _ => none
  | fuel + 1, layout =>
    match skip layout.inFlow false layout.keyAllowed layout.rest with
    | (_, []) => do
      let layout ← (layout.closeBlocks fun _ => false).dropKey
      return layout.reversed.reverse
    | (keyAllowed, p :: rest) => do
      run fuel (← token { layout with keyAllowed } p rest)

end Layout

def tokens (text : List Placed) : Option (List Token) :=
  Layout.run (text.length + 1) { rest := text }

end NodeAudit.Yaml

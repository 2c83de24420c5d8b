import NodeAudit.Yaml.Token

/-! The nodes of a YAML document, read from its tokens. What is left out where a node may stand is
an empty plain scalar. -/
namespace NodeAudit.Yaml

structure Properties where
  anchor : Option Nat := none
  tag : Option Bytes := none
deriving DecidableEq

inductive Node where
  | reference (anchor : Nat)
  | scalar (properties : Properties) (plain : Bool) (text : String)
  | sequence (properties : Properties) (items : List Node)
  | mapping (properties : Properties) (entries : List (Node × Node))

namespace Node

def empty : Node := .scalar {} true ""

def isEmpty : Node → Bool
  | .scalar _ true text => text.isEmpty
  | _ => false

/-- Where a node stands, which decides what may stand for it. -/
inductive Position where
  | flow
  | block
  /-- A key or a value of a block mapping, where a sequence needs no indentation of its own. -/
  | member

abbrev Handles := List (String × Bytes)

namespace Handles

def usual : Handles := [("!", [ascii '!']), ("!!", word "tag:yaml.org,2002:")]

def resolve? (handles : Handles) (tag : Tag.Written) : Option Bytes :=
  if tag.handle.isEmpty then some tag.suffix
  else (handles.find? fun entry => entry.1 = tag.handle).map (·.2 ++ tag.suffix)

end Handles

/-- Reads the properties of a node: an anchor and a tag in either order. -/
def properties (handles : Handles) : List Token → Option (Properties × List Token)
  | .anchor anchor :: .tag tag :: rest => do
    return (⟨some anchor, some (← handles.resolve? tag)⟩, rest)
  | .anchor anchor :: rest => some (⟨some anchor, none⟩, rest)
  | .tag tag :: .anchor anchor :: rest => do
    return (⟨some anchor, some (← handles.resolve? tag)⟩, rest)
  | .tag tag :: rest => do return (⟨none, some (← handles.resolve? tag)⟩, rest)
  | rest => some ({}, rest)

abbrev Reader := Position → List Token → Option (Node × List Token)

/-- A node in some position, or the empty one where a token comes that may follow it. -/
def orEmpty (node : Reader) (position : Position) (follows : Token → Bool) (tokens : List Token) :
    Option (Node × List Token) :=
  match tokens with
  | token :: rest => if follows token then some (empty, token :: rest) else node position tokens
  | [] => node position []

def endsEntry : Token → Bool
  | .blockEntry | .blockEnd => true
  | _ => false

def endsMember : Token → Bool
  | .key | .value | .blockEnd => true
  | _ => false

def endsUnindented (token : Token) : Bool := endsEntry token || endsMember token

def endsItem : Token → Bool
  | .flowEntry | .flowSequenceEnd => true
  | _ => false

def endsFlowMember : Token → Bool
  | .flowEntry | .flowMappingEnd => true
  | _ => false

def isValue : Token → Bool
  | .value => true
  | _ => false

def blockItems (node : Reader) : Nat → List Token → Option (List Node × List Token)
  | fuel + 1, .blockEntry :: rest => do
    let (item, rest) ← orEmpty node .block endsEntry rest
    let (items, rest) ← blockItems node fuel rest
    return (item :: items, rest)
  | _, .blockEnd :: rest => some ([], rest)
  | _, _ => none

/-- Reads the items of a sequence that is not indented; whatever else comes ends it. -/
def unindentedItems (node : Reader) : Nat → List Token → Option (List Node × List Token)
  | fuel + 1, .blockEntry :: rest => do
    let (item, rest) ← orEmpty node .block endsUnindented rest
    let (items, rest) ← unindentedItems node fuel rest
    return (item :: items, rest)
  | _, rest => some ([], rest)

def memberValue (node : Reader) (position : Position) (follows : Token → Bool) :
    List Token → Option (Node × List Token)
  | .value :: rest => orEmpty node position follows rest
  | rest => some (empty, rest)

def blockMembers (node : Reader) : Nat → List Token → Option (List (Node × Node) × List Token)
  | fuel + 1, .key :: rest => do
    let (key, rest) ← orEmpty node .member endsMember rest
    let (value, rest) ← memberValue node .member endsMember rest
    let (members, rest) ← blockMembers node fuel rest
    return ((key, value) :: members, rest)
  | _, .blockEnd :: rest => some ([], rest)
  | _, _ => none

def comma (first : Bool) : List Token → Option (List Token)
  | .flowEntry :: rest => if first then some (.flowEntry :: rest) else some rest
  | tokens => if first then some tokens else none

/-- Reads an item of a flow sequence, which may be a single member of a mapping. -/
def flowItem (node : Reader) : List Token → Option (Node × List Token)
  | .key :: rest => do
    let (key, rest) ← orEmpty node .flow (fun t => isValue t || endsItem t) rest
    let (value, rest) ← memberValue node .flow endsItem rest
    return (.mapping {} [(key, value)], rest)
  | tokens => node .flow tokens

/-- Reads the items of a flow sequence. A comma may stand after the last. -/
def flowItems (node : Reader) : Nat → Bool → List Token → Option (List Node × List Token)
  | _, _, .flowSequenceEnd :: rest => some ([], rest)
  | fuel + 1, first, tokens => do
    match ← comma first tokens with
    | .flowSequenceEnd :: rest => return ([], rest)
    | tokens =>
      let (item, rest) ← flowItem node tokens
      let (items, rest) ← flowItems node fuel false rest
      return (item :: items, rest)
  | 0, _, _ => none

/-- Reads a member of a flow mapping, whose value may be left out with its colon. -/
def flowMember (node : Reader) : List Token → Option ((Node × Node) × List Token)
  | .key :: rest => do
    let (key, rest) ← orEmpty node .flow (fun t => isValue t || endsFlowMember t) rest
    let (value, rest) ← memberValue node .flow endsFlowMember rest
    return ((key, value), rest)
  | tokens => do
    let (key, rest) ← node .flow tokens
    return ((key, empty), rest)

def flowMembers (node : Reader) : Nat → Bool → List Token →
    Option (List (Node × Node) × List Token)
  | _, _, .flowMappingEnd :: rest => some ([], rest)
  | fuel + 1, first, tokens => do
    match ← comma first tokens with
    | .flowMappingEnd :: rest => return ([], rest)
    | tokens =>
      let (member, rest) ← flowMember node tokens
      let (members, rest) ← flowMembers node fuel false rest
      return (member :: members, rest)
  | 0, _, _ => none

/-- Reads what follows the properties of a node, with a reader for the nodes inside it. -/
def content (node : Reader) (position : Position) (properties : Properties)
    (tokens : List Token) : Option (Node × List Token) :=
  match tokens, position with
  | .blockEntry :: _, .member => do
    let (items, rest) ← unindentedItems node (tokens.length + 1) tokens
    return (.sequence properties items, rest)
  | .scalar plain text :: rest, _ => some (.scalar properties plain text, rest)
  | .flowSequence :: rest, _ => do
    let (items, rest) ← flowItems node (tokens.length + 1) true rest
    return (.sequence properties items, rest)
  | .flowMapping :: rest, _ => do
    let (members, rest) ← flowMembers node (tokens.length + 1) true rest
    return (.mapping properties members, rest)
  | .blockSequence :: rest, .block | .blockSequence :: rest, .member => do
    let (items, rest) ← blockItems node (tokens.length + 1) rest
    return (.sequence properties items, rest)
  | .blockMapping :: rest, .block | .blockMapping :: rest, .member => do
    let (members, rest) ← blockMembers node (tokens.length + 1) rest
    return (.mapping properties members, rest)
  | _, _ => if properties = {} then none else some (.scalar properties true "", tokens)

def read (handles : Handles) : Nat → Reader
  | 0, _, _ => none
  | depth + 1, position, tokens =>
    match tokens with
    | .reference anchor :: rest => some (.reference anchor, rest)
    | _ => do
      let (properties, rest) ← properties handles tokens
      content (read handles depth) position properties rest

def endsDocument : Token → Bool
  | .directive _ | .documentStart | .documentEnd => true
  | _ => false

structure Preamble where
  version : Bool := false
  handles : Handles := []

/-- Takes in a directive, none of which may be given twice. -/
def Preamble.add (preamble : Preamble) : Directive → Option Preamble
  | .version => if preamble.version then none else some { preamble with version := true }
  | .handle name start =>
    if preamble.handles.any fun entry => entry.1 = name then none
    else some { preamble with handles := (name, start) :: preamble.handles }

def preamble (sofar : Preamble) : List Token → Option (Handles × List Token)
  | .directive directive :: rest => do preamble (← sofar.add directive) rest
  | .documentStart :: rest => some (sofar.handles ++ Handles.usual, rest)
  | _ => none

def startsDocument : Token → Bool
  | .directive _ | .documentStart => true
  | _ => false

def root (tokens : List Token) : Option (Node × List Token) :=
  if tokens.head?.any startsDocument then do
    let (handles, rest) ← preamble {} tokens
    if rest.head?.all endsDocument then return (empty, rest)
    else read handles (rest.length + 1) .block rest
  else read Handles.usual (tokens.length + 1) .block tokens

def isDocumentEnd : Token → Bool
  | .documentEnd => true
  | _ => false

/-- The node of a text's only document, which is empty if there is none. -/
def ofTokens? : List Token → Option Node
  | [] => some empty
  | tokens => do
    let (node, rest) ← root tokens
    if rest.all isDocumentEnd then return node else none

end Node
end NodeAudit.Yaml

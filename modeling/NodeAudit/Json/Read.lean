import NodeAudit.Json.Lexeme

/-! Reading JSON values from text. Arrays and objects may be nested 127 deep. -/
namespace NodeAudit.Json.Read

variable {α σ : Type}

/-- Looks for a further item of an array: tells whether there is one, and gives the bytes from
there on, with the closing bracket unread. -/
def more (first : Bool) (s : Bytes) : Except Stop (Bool × Bytes) :=
  match skipBlanks s with
  | [] => stopAt .endOfList []
  | b :: t =>
    if b = ascii ']' then .ok (false, b :: t)
    else if first then .ok (true, b :: t)
    else if b = ascii ',' then
      match skipBlanks t with
      | [] => stopAt .endOfValue []
      | c :: u => if c = ascii ']' then stopAt .trailingComma (c :: u) else .ok (true, c :: u)
    else stopAt .expectedCommaOrBracket (b :: t)

def items (item : Bytes → Except Stop (α × Bytes)) :
    Nat → Bool → Bytes → Except Stop (List α × Bytes)
  | 0, _, s => stopAt .endOfList s
  | fuel + 1, first, s => do
    match ← more first s with
    | (false, rest) => return ([], rest)
    | (true, rest) =>
      let (head, rest) ← item rest
      let (tail, rest) ← items item fuel false rest
      return (head :: tail, rest)

def name (first : Bool) (s : Bytes) : Except Stop (Option String × Bytes) :=
  match skipBlanks s with
  | [] => stopAt .endOfObject []
  | b :: t =>
    if b = ascii '}' then .ok (none, b :: t)
    else if b = ascii ',' ∧ !first then
      match skipBlanks t with
      | [] => stopAt .endOfValue []
      | c :: u =>
        if c = ascii '"' then do
          let (key, rest) ← string u
          return (some key, rest)
        else if c = ascii '}' then stopAt .trailingComma (c :: u)
        else stopAt .nameNotText (c :: u)
    else if first then
      if b = ascii '"' then do
        let (key, rest) ← string t
        return (some key, rest)
      else stopAt .nameNotText (b :: t)
    else stopAt .expectedCommaOrBrace (b :: t)

/-- Folds `member`, which reads from after a name on, over the members up to the closing brace. -/
def members (member : σ → String → Bytes → Except Stop (σ × Bytes)) :
    Nat → Bool → σ → Bytes → Except Stop (σ × Bytes)
  | 0, _, _, s => stopAt .endOfObject s
  | fuel + 1, first, state, s => do
    match ← name first s with
    | (none, rest) => return (state, rest)
    | (some key, rest) =>
      let (state, rest) ← member state key rest
      members member fuel false state rest

def colon (s : Bytes) : Except Stop Bytes :=
  match skipBlanks s with
  | [] => stopAt .endOfObject []
  | b :: t => if b = ascii ':' then .ok t else stopAt .expectedColon (b :: t)

def closeArray (s : Bytes) : Except Stop Bytes :=
  match skipBlanks s with
  | [] => stopAt .endOfList []
  | b :: t =>
    if b = ascii ']' then .ok t
    else if b = ascii ',' then
      match skipBlanks t with
      | [] => stopAt .trailingCharacters []
      | c :: u =>
        if c = ascii ']' then stopAt .trailingComma (c :: u)
        else stopAt .trailingCharacters (c :: u)
    else stopAt .trailingCharacters (b :: t)

def closeObject (s : Bytes) : Except Stop Bytes :=
  match skipBlanks s with
  | [] => stopAt .endOfObject []
  | b :: t =>
    if b = ascii '}' then .ok t
    else if b = ascii ',' then stopAt .trailingComma (b :: t)
    else stopAt .trailingCharacters (b :: t)

def array (item : Bytes → Except Stop (α × Bytes)) (s : Bytes) :
    Except Stop (List α × Bytes) := do
  let (list, rest) ← items item (s.length + 1) true s
  return (list, ← closeArray rest)

/-- Reads an object into a map. A name that is given again replaces the value before it. -/
def object (value : Bytes → Except Stop (α × Bytes)) (s : Bytes) :
    Except Stop (SortedMap α × Bytes) := do
  let (map, rest) ← members
    (fun map key rest => do
      let (found, rest) ← value (← colon rest)
      return (map.insert key found, rest))
    (s.length + 1) true .empty s
  return (map, ← closeObject rest)

/-- Reads a value whose nested values `inner` reads, if nesting goes on. -/
def element (inner : Option (Bytes → Except Stop (Json × Bytes))) (s : Bytes) :
    Except Stop (Json × Bytes) :=
  match skipBlanks s with
  | [] => stopAt .endOfValue []
  | b :: t =>
    if b = ascii 'n' then do return (.null, ← literal (word "ull") t)
    else if b = ascii 't' then do return (.boolean true, ← literal (word "rue") t)
    else if b = ascii 'f' then do return (.boolean false, ← literal (word "alse") t)
    else if b = ascii '-' then do
      let (read, rest) ← number true t
      return (.number read, rest)
    else if (digit? b).isSome then do
      let (read, rest) ← number false (b :: t)
      return (.number read, rest)
    else if b = ascii '"' then do
      let (read, rest) ← string t
      return (.text read, rest)
    else if b = ascii '[' then
      match inner with
      | none => stopAt .tooDeep (b :: t)
      | some value => do
        let (read, rest) ← array value t
        return (.array read, rest)
    else if b = ascii '{' then
      match inner with
      | none => stopAt .tooDeep (b :: t)
      | some value => do
        let (read, rest) ← object value t
        return (.object read.entries, rest)
    else stopAt .expectedValue (b :: t)

def value : Nat → Bytes → Except Stop (Json × Bytes)
  | 0 => element none
  | depth + 1 => element (some (value depth))

def depth : Nat := 127

/-- Reads a whole document: after it only blanks may follow. -/
def document (read : Bytes → Except Stop (α × Bytes)) (whole : Bytes) : Except Located α :=
  let result := do
    let (found, rest) ← read whole
    match skipBlanks rest with
    | [] => return found
    | rest => stopAt .trailingCharacters rest
  result.mapError fun stop => stop.locate whole

/-- Reads a scalar that was not expected and reports it. An array or an object is reported
unread. -/
def mismatch (expected : String) (s : Bytes) : Except Stop α :=
  match s with
  | [] => stopAt .endOfValue []
  | b :: t =>
    if b = ascii 'n' then do misfit (.kind .null expected) (← literal (word "ull") t)
    else if b = ascii 't' then do misfit (.kind (.boolean true) expected) (← literal (word "rue") t)
    else if b = ascii 'f' then do
      misfit (.kind (.boolean false) expected) (← literal (word "alse") t)
    else if b = ascii '-' then do
      let (read, rest) ← number true t
      misfit (.kind (.number read) expected) rest
    else if (digit? b).isSome then do
      let (read, rest) ← number false (b :: t)
      misfit (.kind (.number read) expected) rest
    else if b = ascii '"' then do
      let (read, rest) ← string t
      misfit (.kind (.text read) expected) rest
    else if b = ascii '[' then misfit (.kind .sequence expected) (b :: t)
    else if b = ascii '{' then misfit (.kind .map expected) (b :: t)
    else stopAt .expectedValue (b :: t)

/-- The bytes left after an attempt to close an array. A misfit found inside it is reported
there. -/
def leftAfterArray (s : Bytes) : Bytes :=
  match skipBlanks s with
  | [] => []
  | b :: t => if b = ascii ']' then t else if b = ascii ',' then skipBlanks t else b :: t

def leftAfterObject (s : Bytes) : Bytes :=
  match skipBlanks s with
  | [] => []
  | b :: t => if b = ascii '}' then t else b :: t

end NodeAudit.Json.Read

namespace NodeAudit.Json

def parse (text : Bytes) : Except Located Json := Read.document (Read.value Read.depth) text

end NodeAudit.Json

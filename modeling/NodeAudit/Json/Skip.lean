import NodeAudit.Json.Lexeme

/-! Passing over a JSON value without reading it: the grammar is checked, but nesting has no limit,
numbers no size, and escaped surrogates need no partner. -/
namespace NodeAudit.Json.Skip
open Read

/-- Passes over a string from after its opening quote on. Escaped surrogates need no partner. -/
def string : Bytes → Except Stop Bytes
  | [] => stop .endOfText []
  | b :: s =>
    if b = ascii '"' then .ok s
    else if b = ascii '\\' then
      match s with
      | [] => stop .endOfText []
      | e :: s =>
        if e = ascii 'u' then
          match s with
          | h₁ :: h₂ :: h₃ :: h₄ :: s =>
            if (unit? h₁ h₂ h₃ h₄).isSome then string s else stop .invalidEscape s
          | _ => stop .endOfText []
        else if (escape? e).isSome then string s
        else stop .invalidEscape s
    else if b < 0x20 then stop .controlCharacter (b :: s)
    else string s

def exponent (s : Bytes) : Except Stop Bytes :=
  let s :=
    match s with
    | b :: t => if b = ascii '+' ∨ b = ascii '-' then t else s
    | [] => s
  match s with
  | [] => stop .invalidNumber []
  | b :: t => if (digit? b).isSome then .ok (skipDigits t) else stop .invalidNumber t

def afterDigits : Bytes → Except Stop Bytes
  | [] => .ok []
  | b :: s => if b = ascii 'e' ∨ b = ascii 'E' then exponent s else .ok (b :: s)

def afterWhole : Bytes → Except Stop Bytes
  | [] => .ok []
  | b :: s =>
    if b = ascii '.' then
      if startsWithDigit s then afterDigits (skipDigits s) else stopAt .invalidNumber s
    else afterDigits (b :: s)

/-- Passes over a number from after its sign on, whatever its size. -/
def number : Bytes → Except Stop Bytes
  | [] => stop .invalidNumber []
  | b :: s =>
    match digit? b with
    | none => stop .invalidNumber s
    | some 0 => if startsWithDigit s then stopAt .invalidNumber s else afterWhole s
    | some _ => afterWhole (skipDigits s)

def items (item : Bytes → Except Stop Bytes) : Nat → Bool → Bytes → Except Stop Bytes
  | 0, _, s => stopAt .endOfList s
  | fuel + 1, first, s =>
    match skipBlanks s with
    | [] => stopAt .endOfList []
    | b :: t =>
      if b = ascii ']' then .ok t
      else if first then do items item fuel false (← item (b :: t))
      else if b = ascii ',' then do items item fuel false (← item t)
      else stopAt .expectedCommaOrBracket (b :: t)

def member (value : Bytes → Except Stop Bytes) (s : Bytes) : Except Stop Bytes :=
  match skipBlanks s with
  | [] => stopAt .endOfObject []
  | b :: t =>
    if b = ascii '"' then do
      let rest ← string t
      match skipBlanks rest with
      | [] => stopAt .endOfObject []
      | c :: u => if c = ascii ':' then value u else stopAt .expectedColon (c :: u)
    else stopAt .nameNotText (b :: t)

def members (value : Bytes → Except Stop Bytes) : Nat → Bool → Bytes → Except Stop Bytes
  | 0, _, s => stopAt .endOfObject s
  | fuel + 1, first, s =>
    match skipBlanks s with
    | [] => stopAt .endOfObject []
    | b :: t =>
      if b = ascii '}' then .ok t
      else if first then do members value fuel false (← member value (b :: t))
      else if b = ascii ',' then do members value fuel false (← member value t)
      else stopAt .expectedCommaOrBrace (b :: t)

def element (inner : Bytes → Except Stop Bytes) (s : Bytes) : Except Stop Bytes :=
  match skipBlanks s with
  | [] => stopAt .endOfValue []
  | b :: t =>
    if b = ascii 'n' then literal (word "ull") t
    else if b = ascii 't' then literal (word "rue") t
    else if b = ascii 'f' then literal (word "alse") t
    else if b = ascii '-' then number t
    else if (digit? b).isSome then number (b :: t)
    else if b = ascii '"' then string t
    else if b = ascii '[' then items inner (t.length + 1) true t
    else if b = ascii '{' then members inner (t.length + 1) true t
    else stopAt .expectedValue (b :: t)

def nested : Nat → Bytes → Except Stop Bytes
  | 0 => element fun s => stopAt .endOfValue s
  | depth + 1 => element (nested depth)

/-- Passes over a value. Each level of nesting takes a byte, so the length bounds the depth. -/
def value (s : Bytes) : Except Stop Bytes := nested s.length s

/-- The bytes of a value as they stand, without the blanks before it, and what follows. -/
def verbatim (s : Bytes) : Except Stop (Bytes × Bytes) := do
  let start := skipBlanks s
  let rest ← value start
  let raw := start.take (start.length - rest.length)
  match Utf8.decode raw with
  | (_, []) => return (raw, rest)
  | _ => stopMalformed start rest

end NodeAudit.Json.Skip

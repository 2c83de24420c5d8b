import NodeAudit.Json.Value
import NodeAudit.Number.Shortest
import NodeAudit.Text.Quoted

/-! Why a text is no JSON, or no JSON of the expected form, and where reading it stopped. -/
namespace NodeAudit.Json

inductive Flaw where
  | endOfValue
  | endOfObject
  | endOfList
  | endOfText
  | expectedValue
  | expectedLiteral
  | expectedColon
  | expectedCommaOrBrace
  | expectedCommaOrBracket
  | nameNotText
  | trailingComma
  | trailingCharacters
  | invalidNumber
  | numberOutOfRange
  | invalidEscape
  | loneSurrogate
  | brokenPair
  | controlCharacter
  | invalidCodePoint
  | tooDeep
deriving DecidableEq

def Flaw.message : Flaw → String
  | .endOfValue => "EOF while parsing a value"
  | .endOfObject => "EOF while parsing an object"
  | .endOfList => "EOF while parsing a list"
  | .endOfText => "EOF while parsing a string"
  | .expectedValue => "expected value"
  | .expectedLiteral => "expected ident"
  | .expectedColon => "expected `:`"
  | .expectedCommaOrBrace => "expected `,` or `\x7d`"
  | .expectedCommaOrBracket => "expected `,` or `]`"
  | .nameNotText => "key must be a string"
  | .trailingComma => "trailing comma"
  | .trailingCharacters => "trailing characters"
  | .invalidNumber => "invalid number"
  | .numberOutOfRange => "number out of range"
  | .invalidEscape => "invalid escape"
  | .loneSurrogate => "lone leading surrogate in hex escape"
  | .brokenPair => "unexpected end of hex escape"
  | .controlCharacter => "control character (\\u0000-\\u001F) found while parsing a string"
  | .invalidCodePoint => "invalid unicode code point"
  | .tooDeep => "recursion limit exceeded"

inductive Found where
  | null
  | boolean (value : Bool)
  | number (value : Number)
  | text (value : String)
  | sequence
  | map
deriving DecidableEq

def Found.message : Found → String
  | .null => "null"
  | .boolean value => "boolean `" ++ (if value then "true" else "false") ++ "`"
  | .number (.whole value _) => "integer `" ++ signedDecimal value ++ "`"
  | .number (.real value) => "floating point `" ++ value.text ++ "`"
  | .text value => "string " ++ Text.quoted value
  | .sequence => "sequence"
  | .map => "map"

def found : Json → Found
  | .null => .null
  | .boolean value => .boolean value
  | .number value => .number value
  | .text value => .text value
  | .array _ => .sequence
  | .object _ => .map

inductive Misfit where
  | kind (found : Found) (expected : String)
  | range (found : Found) (expected : String)
  | tooFew (length : Nat) (expected : String)
  | tooMany (length : Nat)
  | missing (field : String)
  | duplicate (field : String)
  | variant (name : String) (known : List String)
  | time (problem : String)
deriving DecidableEq

private def alternatives (names : List String) : String :=
  " or ".intercalate (names.map fun name => "`" ++ name ++ "`")

def Misfit.message : Misfit → String
  | .kind found expected => "invalid type: " ++ found.message ++ ", expected " ++ expected
  | .range found expected => "invalid value: " ++ found.message ++ ", expected " ++ expected
  | .tooFew length expected => "invalid length " ++ decimal length ++ ", expected " ++ expected
  | .tooMany length =>
    "invalid length " ++ decimal length ++ ", expected fewer elements in array"
  | .missing field => "missing field `" ++ field ++ "`"
  | .duplicate field => "duplicate field `" ++ field ++ "`"
  | .variant name known => "unknown variant `" ++ name ++ "`, expected " ++ alternatives known
  | .time problem => problem

inductive Cause where
  | flaw (flaw : Flaw)
  | misfit (misfit : Misfit)
deriving DecidableEq

def Cause.message : Cause → String
  | .flaw reason => reason.message
  | .misfit reason => reason.message

/-- Where reading stopped: `left` bytes were not consumed, and the first of those was looked at if
`peeked`. -/
structure Stop where
  cause : Cause
  left : Nat
  peeked : Bool
deriving DecidableEq

/-- A cause with its line and its column, the line counted from one and the column in bytes. -/
structure Located where
  cause : Cause
  line : Nat
  column : Nat
deriving DecidableEq

def Located.message (located : Located) : String :=
  located.cause.message ++ " at line " ++ decimal located.line ++ " column " ++
    decimal located.column

def Stop.locate (stop : Stop) (whole : Bytes) : Located :=
  let consumed := whole.length - stop.left
  let before := whole.take (if stop.peeked then consumed + 1 else consumed)
  { cause := stop.cause
    line := 1 + before.count 0x0A
    column := (before.reverse.takeWhile (· ≠ 0x0A)).length }

end NodeAudit.Json

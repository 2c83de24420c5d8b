import NodeAudit.Json.Value
import NodeAudit.Number.Shortest
import NodeAudit.Text.Utf8

/-! The compact text of a JSON value: no blanks, and in strings only what must be escaped. -/
namespace NodeAudit.Json

def escaped (c : Char) : Bytes :=
  if c = '"' then [ascii '\\', ascii '"']
  else if c = '\\' then [ascii '\\', ascii '\\']
  else if c = '\n' then [ascii '\\', ascii 'n']
  else if c = '\r' then [ascii '\\', ascii 'r']
  else if c = '\t' then [ascii '\\', ascii 't']
  else if c.toNat = 0x08 then [ascii '\\', ascii 'b']
  else if c.toNat = 0x0C then [ascii '\\', ascii 'f']
  else if c.toNat < 0x20 then
    [ascii '\\', ascii 'u', ascii '0', ascii '0',
      ascii (hexDigit (c.toNat / 16)), ascii (hexDigit (c.toNat % 16))]
  else String.utf8EncodeChar c

def compactText (text : String) : Bytes :=
  ascii '"' :: text.toList.flatMap escaped ++ [ascii '"']

def compactNumber : Number → Bytes
  | .whole value _ => word (signedDecimal value)
  | .real value => word value.text

def separated : List Bytes → Bytes
  | [] => []
  | [part] => part
  | part :: rest => part ++ ascii ',' :: separated rest

/-- The members of an object whose values are written already. -/
def compactObject (members : List (String × Bytes)) : Bytes :=
  ascii '{' :: separated (members.map fun m => compactText m.1 ++ ascii ':' :: m.2) ++ [ascii '}']

def compactArray (items : List Bytes) : Bytes :=
  ascii '[' :: separated items ++ [ascii ']']

mutual
def compact : Json → Bytes
  | .null => word "null"
  | .boolean value => word (if value then "true" else "false")
  | .number value => compactNumber value
  | .text value => compactText value
  | .array items => compactArray (compactItems items)
  | .object members => compactObject (compactMembers members)

def compactItems : List Json → List Bytes
  | [] => []
  | item :: rest => compact item :: compactItems rest

def compactMembers : List (String × Json) → List (String × Bytes)
  | [] => []
  | (name, value) :: rest => (name, compact value) :: compactMembers rest
end

def render (value : Json) : String := (Utf8.text? (compact value)).getD ""

end NodeAudit.Json

import NodeAudit.Json.Read

/-! Types with a JSON form. A codec reads it from a value and from text, and writes it. Both ways
of reading make the same demands; only reading from text can say where one is not met. -/
namespace NodeAudit
open Json

structure Codec (α : Type) where
  ofJson : Json → Except Misfit α
  /-- Reads from text, with arrays and objects nested at most as deep as the number says. -/
  read : Nat → Bytes → Except Stop (α × Bytes)
  toJson : α → Json

namespace Codec
variable {α : Type}

def parse (codec : Codec α) (text : Bytes) : Except Located α :=
  Read.document (codec.read Read.depth) text

def atByte (read : UInt8 → Bytes → Except Stop (α × Bytes)) (s : Bytes) :
    Except Stop (α × Bytes) :=
  match Read.skipBlanks s with
  | [] => Read.stopAt .endOfValue []
  | b :: t => read b t

/-- Consumes an opening bracket and reads what it opens, if nesting may go on. -/
def within (depth : Nat) (b : UInt8) (t : Bytes) (read : Nat → Bytes → Except Stop (α × Bytes)) :
    Except Stop (α × Bytes) :=
  match depth with
  | 0 => Read.stopAt .tooDeep (b :: t)
  | inner + 1 => read inner t

def string : Codec String where
  ofJson
    | .text value => .ok value
    | other => .error (.kind (found other) "a string")
  read _ := atByte fun b t =>
    if b = ascii '"' then Read.string t else Read.mismatch "a string" (b :: t)
  toJson := .text

def boolean : Codec Bool where
  ofJson
    | .boolean value => .ok value
    | other => .error (.kind (found other) "a boolean")
  read _ := atByte fun b t =>
    if b = ascii 't' then do return (true, ← Read.literal (word "rue") t)
    else if b = ascii 'f' then do return (false, ← Read.literal (word "alse") t)
    else Read.mismatch "a boolean" (b :: t)
  toJson := .boolean

/-- A number as a whole number of a type, which `expected` names. -/
def judge (expected : String) (ofInt? : Int → Option α) (read : Number) : Except Misfit α :=
  match read with
  | .whole value _ =>
    match ofInt? value with
    | some a => .ok a
    | none => .error (.range (.number read) expected)
  | .real _ => .error (.kind (.number read) expected)

def whole (expected : String) (ofInt? : Int → Option α) (toNumber : α → Number) : Codec α where
  ofJson
    | .number value => judge expected ofInt? value
    | other => .error (.kind (found other) expected)
  read _ := atByte fun b t =>
    if b = ascii '-' ∨ (digit? b).isSome then do
      let (value, rest) ←
        if b = ascii '-' then Read.number true t else Read.number false (b :: t)
      match judge expected ofInt? value with
      | .ok a => return (a, rest)
      | .error reason => Read.misfit reason rest
    else Read.mismatch expected (b :: t)
  toJson a := .number (toNumber a)

def int32 : Codec Int32 :=
  whole "i32"
    (fun i => if -2147483648 ≤ i ∧ i < 2147483648 then some (Int32.ofInt i) else none)
    (fun i => .whole i.toInt (by have := i.le_toInt; have := i.toInt_lt; omega))

def uint32 : Codec UInt32 :=
  whole "u32"
    (fun i => if 0 ≤ i ∧ i < 4294967296 then some (UInt32.ofNat i.toNat) else none)
    (fun n => .whole n.toNat (by have := n.toNat_lt; omega))

def int64 : Codec Int64 :=
  whole "i64"
    (fun i =>
      if -9223372036854775808 ≤ i ∧ i < 9223372036854775808 then some (Int64.ofInt i) else none)
    (fun i => .whole i.toInt (by have := i.le_toInt; have := i.toInt_lt; omega))

/-- Any value at all. No name of a member means anything by itself, not even one that a library
reserves for texts kept as they stand, `$serde_json::private::RawValue`. -/
def json : Codec Json where
  ofJson := .ok
  read := Read.value
  toJson := id

def optional (codec : Codec α) : Codec (Option α) where
  ofJson
    | .null => .ok none
    | other => some <$> codec.ofJson other
  read depth s :=
    match Read.skipBlanks s with
    | b :: t =>
      if b = ascii 'n' then do return (none, ← Read.literal (word "ull") t)
      else do
        let (a, rest) ← codec.read depth (b :: t)
        return (some a, rest)
    | [] => Read.stopAt .endOfValue []
  toJson
    | none => .null
    | some a => codec.toJson a

def list (codec : Codec α) : Codec (List α) where
  ofJson
    | .array items => items.mapM codec.ofJson
    | other => .error (.kind (found other) "a sequence")
  read depth := atByte fun b t =>
    if b = ascii '[' then within depth b t fun inner => Read.array (codec.read inner)
    else Read.mismatch "a sequence" (b :: t)
  toJson items := .array (items.map codec.toJson)

def mapOfMembers (codec : Codec α) (members : List (String × Json)) :
    Except Misfit (SortedMap α) :=
  members.foldlM (fun map member => return map.insert member.1 (← codec.ofJson member.2)) .empty

def map (codec : Codec α) : Codec (SortedMap α) where
  ofJson
    | .object members => mapOfMembers codec members
    | other => .error (.kind (found other) "a map")
  read depth := atByte fun b t =>
    if b = ascii '{' then within depth b t fun inner => Read.object (codec.read inner)
    else Read.mismatch "a map" (b :: t)
  toJson entries := .object (entries.entries.map fun entry => (entry.1, codec.toJson entry.2))

end Codec
end NodeAudit

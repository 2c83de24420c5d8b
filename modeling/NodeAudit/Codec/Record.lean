import NodeAudit.Codec.Basic
import NodeAudit.Json.Skip

/-! Records with a JSON form, as a list of fields that each read into and write out of the record.
A strict record may also be given as an array of its fields in order; it takes null only where a
field does, and no field twice. A lenient record is an object in which a missing or null field has
its default and the last of several fields of one name counts. -/
namespace NodeAudit
open Json

structure Field (ρ : Type) where
  name : String
  required : Bool
  ofJson : ρ → Json → Except Misfit ρ
  read : ρ → Nat → Bytes → Except Stop (ρ × Bytes)
  toJson : ρ → Option Json

namespace Field
variable {ρ α : Type}

def of (name : String) (codec : Codec α) (get : ρ → α) (set : ρ → α → ρ) : Field ρ where
  name
  required := false
  ofJson record value := set record <$> codec.ofJson value
  read record depth s := do
    let (a, rest) ← codec.read depth s
    return (set record a, rest)
  toJson record := some (codec.toJson (get record))

def need (name : String) (codec : Codec α) (get : ρ → α) (set : ρ → α → ρ) : Field ρ :=
  { of name codec get set with required := true }

/-- A field of a lenient record that is written only when it is set. -/
def maybe (name : String) (codec : Codec α) (get : ρ → Option α) (set : ρ → Option α → ρ) :
    Field ρ :=
  { of name codec.optional get set with toJson := fun record => codec.toJson <$> get record }

/-- A field of a lenient record that null sets to its default. -/
def filled [Inhabited α] (name : String) (codec : Codec α) (get : ρ → α) (set : ρ → α → ρ) :
    Field ρ :=
  { of name codec.optional (fun record => some (get record))
      (fun record a => set record (a.getD default)) with
    toJson := fun record => some (codec.toJson (get record)) }

end Field

namespace Codec
variable {ρ : Type}

def field? (fields : List (Field ρ)) (name : String) : Option (Field ρ) :=
  fields.find? fun field => field.name = name

/-- The members of a record, in ascending order of their names. -/
def members (fields : List (Field ρ)) (record : ρ) : List (String × Json) :=
  (SortedMap.ofList (fields.filterMap fun field =>
    (field.toJson record).map fun value => (field.name, value))).entries

/-- The first field that must be given and is not among the names seen. -/
def missing? (fields : List (Field ρ)) (seen : List String) : Option Misfit :=
  (fields.find? fun field => field.required && !seen.contains field.name).map
    fun field => .missing field.name

def elements (count : Nat) : String :=
  if count = 1 then "1 element" else decimal count ++ " elements"

def tooFew (name : String) (fields : List (Field ρ)) (index : Nat) : Misfit :=
  .tooFew index ("struct " ++ name ++ " with " ++ elements fields.length)

/-- Reads fields by position; `short` says what is wrong when items end before a required field. -/
def fromItems (short : Nat → Misfit) :
    Nat → List (Field ρ) → List Json → ρ → Except Misfit (ρ × List Json)
  | _, [], rest, record => .ok (record, rest)
  | index, field :: fields, [], record =>
    if field.required then .error (short index) else fromItems short (index + 1) fields [] record
  | index, field :: fields, item :: rest, record => do
    fromItems short (index + 1) fields rest (← field.ofJson record item)

def fromMembers (fields : List (Field ρ)) (members : List (String × Json)) (blank : ρ) :
    Except Misfit ρ :=
  members.foldlM (fun record member =>
    match field? fields member.1 with
    | some field => field.ofJson record member.2
    | none => .ok record) blank

/-- Reads fields by position from text, up to the bracket or past the last field. -/
def readItems (short : Nat → Misfit) (depth : Nat) :
    Nat → List (Field ρ) → ρ → Bytes → Except Stop (ρ × Bytes)
  | _, [], record, s => .ok (record, s)
  | index, field :: fields, record, s => do
    match ← Read.more (index == 0) s with
    | (true, rest) =>
      let (record, rest) ← field.read record depth rest
      readItems short depth (index + 1) fields record rest
    | (false, rest) =>
      if field.required then Read.misfit (short index) (Read.leftAfterArray rest)
      else readItems short depth (index + 1) fields record rest

structure Draft (ρ : Type) where
  record : ρ
  seen : List String

def readStrict (fields : List (Field ρ)) (depth : Nat) (draft : Draft ρ) (name : String)
    (s : Bytes) : Except Stop (Draft ρ × Bytes) :=
  match field? fields name with
  | none => do return (draft, ← Skip.value (← Read.colon s))
  | some field =>
    if draft.seen.contains name then
      Read.misfit (.duplicate name) (Read.leftAfterObject s)
    else do
      let (record, rest) ← field.read draft.record depth (← Read.colon s)
      return (⟨record, name :: draft.seen⟩, rest)

def readLenient (fields : List (Field ρ)) (depth : Nat) (record : ρ) (name : String)
    (s : Bytes) : Except Stop (ρ × Bytes) :=
  match field? fields name with
  | none => do return (record, ← Skip.value (← Read.colon s))
  | some field => do field.read record depth (← Read.colon s)

def strict (name : String) (blank : ρ) (fields : List (Field ρ)) : Codec ρ where
  ofJson
    | .array items => do
      match ← fromItems (tooFew name fields) 0 fields items blank with
      | (record, []) => return record
      | _ => .error (.tooMany items.length)
    | .object members => do
      let record ← fromMembers fields members blank
      match missing? fields (members.map (·.1)) with
      | some reason => .error reason
      | none => return record
    | other => .error (.kind (found other) ("struct " ++ name))
  read depth := atByte fun b t =>
    if b = ascii '[' then within depth b t fun inner s => do
      let (record, rest) ← readItems (tooFew name fields) inner 0 fields blank s
      return (record, ← Read.closeArray rest)
    else if b = ascii '{' then within depth b t fun inner s => do
      let (draft, rest) ←
        Read.members (readStrict fields inner) (s.length + 1) true ⟨blank, []⟩ s
      match missing? fields draft.seen with
      | some reason => Read.misfit reason (Read.leftAfterObject rest)
      | none => return (draft.record, ← Read.closeObject rest)
    else Read.mismatch ("struct " ++ name) (b :: t)
  toJson record := .object (members fields record)

def lenient (name : String) (blank : ρ) (fields : List (Field ρ)) : Codec ρ where
  ofJson
    | .object members => fromMembers fields members blank
    | other => .error (.kind (found other) name)
  read depth := atByte fun b t =>
    if b = ascii '[' then within depth b t fun _ s =>
      Read.misfit (.kind .sequence name) (Read.leftAfterArray s)
    else if b = ascii '{' then within depth b t fun inner s => do
      let (record, rest) ← Read.members (readLenient fields inner) (s.length + 1) true blank s
      return (record, ← Read.closeObject rest)
    else Read.mismatch name (b :: t)
  toJson record := .object (members fields record)

end Codec
end NodeAudit

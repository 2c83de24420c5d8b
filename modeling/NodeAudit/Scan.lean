import NodeAudit.Trace

/-! Compliance scans: what they scan, the roles of the nodes they select, and their names. -/
namespace NodeAudit

inductive ScanType where
  | platform
  | node
deriving DecidableEq

namespace ScanType

instance : Inhabited ScanType := ⟨.platform⟩

def name : ScanType → String
  | .platform => "Platform"
  | .node => "Node"

def annotation : String := "compliance.openshift.io/product-type"

def sameWord (a b : String) : Bool := a.toList.map Char.toLower == b.toList.map Char.toLower

def ofAnnotations (annotations : Labels) : ScanType :=
  match annotations.get? annotation with
  | some value => if sameWord value ScanType.node.name then .node else .platform
  | none => .platform

end ScanType

namespace Codec
open Json Read

private def scanTypeOf (name : String) : Except Misfit ScanType :=
  if name = ScanType.platform.name then .ok .platform
  else if name = ScanType.node.name then .ok .node
  else .error (.variant name [ScanType.platform.name, ScanType.node.name])

private def variantName (s : Bytes) : Except Stop (ScanType × Bytes) :=
  atByte (fun b t =>
    if b = ascii '"' then do
      let (name, rest) ← Read.string t
      match scanTypeOf name with
      | .ok type => return (type, rest)
      | .error reason => misfit reason rest
    else mismatch "variant identifier" (b :: t)) s

private def unit (s : Bytes) : Except Stop (Unit × Bytes) :=
  atByte (fun b t =>
    if b = ascii 'n' then do return ((), ← literal (word "ull") t)
    else mismatch "unit" (b :: t)) s

/-- A type of scan is written as its name, and may also be read from an object that has null under
that name alone. -/
def scanType : Codec ScanType where
  ofJson
    | .text name => scanTypeOf name
    | .object [(name, .null)] => scanTypeOf name
    | other => .error (.kind (found other) "string or map")
  read depth s :=
    match skipBlanks s with
    | [] => stopAt .endOfValue []
    | b :: t =>
      if b = ascii '"' then variantName (b :: t)
      else if b = ascii '{' then do
        let (type, rest) ← within depth b t fun _ inner => do
          let (type, rest) ← variantName inner
          let (_, rest) ← unit (← colon rest)
          return (type, rest)
        match skipBlanks rest with
        | [] => stop .endOfObject []
        | c :: u => if c = ascii '}' then return (type, u) else stop .expectedValue (c :: u)
      else stopAt .expectedValue (b :: t)
  toJson type := .text type.name

end Codec

namespace Roles

/-- What a label starts with to name a role: nothing, so every label names one. -/
def labelPrefix : String := ""

def everyone : String := "@all"

def labels (selector : Labels) : List String :=
  selector.keys.filter fun key => labelPrefix.toList.isPrefixOf key.toList

private def strip (label : String) : String :=
  String.ofList (label.toList.drop labelPrefix.length)

/-- The first label that names a role; a choice among several is logged. -/
def firstLabel (selector : Labels) : Trace (Option String) := do
  let found := labels selector
  if 2 ≤ found.length then
    Trace.log .roles .debug ("Node selector has " ++ decimal found.length ++
      " role labels, using the first in key order")
  return found.head?

def first (selector : Labels) : Trace (Option String) := do
  return (← firstLabel selector).map strip

def all (selector : Labels) : List String := (labels selector).map strip

def scanName (profile : String) (selector : Labels) : Trace String := do
  match ← first selector with
  | some role => return if role.isEmpty then profile else profile ++ "-" ++ role
  | none => return profile

def selector (role : String) : Labels :=
  if role = everyone then .empty else SortedMap.empty.insert (labelPrefix ++ role) ""

end Roles
end NodeAudit

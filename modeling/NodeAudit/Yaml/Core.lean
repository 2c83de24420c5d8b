import NodeAudit.Json.Value
import NodeAudit.Number.Decimal
import NodeAudit.Text.Utf8

/-! The core schema: which values plain scalars stand for, and what the tags of that schema make of
any scalar. -/
namespace NodeAudit.Yaml

inductive Numeral where
  | whole (value : Int)
  | real (value : Binary64)
  /-- Infinite, or no number in spite of its name. -/
  | notFinite

namespace Numeral

def push? (base n : Nat) (c : Char) : Option Nat := do
  let d ← hexOf? c
  if d < base then return base * n + d else none

def digits? (base : Nat) (text : List Char) : Option Nat :=
  if text.isEmpty then none else text.foldlM (push? base) 0

/-- Whether a text is digits after a zero that leads nowhere. -/
def paddedWithZero : List Char → Bool
  | '0' :: c :: rest => (c :: rest).all Char.isDigit
  | _ => false

def unsigned? (text : List Char) : Option Nat :=
  match text with
  | '0' :: 'x' :: rest => digits? 16 rest
  | '0' :: 'o' :: rest => digits? 8 rest
  | '0' :: 'b' :: rest => digits? 2 rest
  | _ => if paddedWithZero text then none else digits? 10 text

def whole? : List Char → Option Int
  | '+' :: rest => (unsigned? rest).map fun n => (n : Int)
  | '-' :: rest => (unsigned? rest).map fun n => -(n : Int)
  | text => (unsigned? text).map fun n => (n : Int)

def exponent? : List Char → Option Int
  | [] => some 0
  | c :: rest =>
    if c = 'e' ∨ c = 'E' then
      match rest with
      | '+' :: digits => (digits? 10 digits).map fun n => (n : Int)
      | '-' :: digits => (digits? 10 digits).map fun n => -(n : Int)
      | digits => (digits? 10 digits).map fun n => (n : Int)
    else none

/-- The decimal number of a text without a sign. A digit must stand on one side of the point. -/
def decimal? (text : List Char) : Option Decimal := do
  let (before, rest) := text.span Char.isDigit
  let (after, rest) :=
    match rest with
    | '.' :: rest => rest.span Char.isDigit
    | rest => ([], rest)
  let significand ← digits? 10 (before ++ after)
  return ⟨significand, (← exponent? rest) - after.length⟩

def real? (text : List Char) : Option Binary64 :=
  match text with
  | '-' :: rest => ((decimal? rest).bind (·.nearest?)).map (·.negate)
  | '+' :: rest => (decimal? rest).bind (·.nearest?)
  | _ => (decimal? text).bind (·.nearest?)

def notFiniteWords : List String :=
  [".inf", ".Inf", ".INF", "+.inf", "+.Inf", "+.INF", "-.inf", "-.Inf", "-.INF",
    ".nan", ".NaN", ".NAN"]

def float? (text : String) : Option Numeral :=
  if notFiniteWords.contains text then some .notFinite
  else (real? text.toList).map .real

/-- The whole numbers that some width of integer holds, though perhaps not 64 bits. -/
def bounded (i : Int) : Bool := -(twoTo 127 : Int) ≤ i && i < twoTo 128

def integer? (text : String) : Option Int := (whole? text.toList).filter bounded

def ofPlain? (text : String) : Option Numeral :=
  match integer? text with
  | some i => some (.whole i)
  | none =>
    let body := match text.toList with
      | '+' :: rest => rest
      | '-' :: rest => rest
      | rest => rest
    if paddedWithZero body then none else float? text

/-- A whole number beyond 64 bits has no value here; what is not finite has none either, and stands
for null. -/
def value? : Numeral → Option Json
  | .whole i => (Number.ofInt? i).map .number
  | .real x => some (.number (.real x))
  | .notFinite => some .null

end Numeral

namespace Core

def boolean? (text : String) : Option Bool :=
  if text = "true" ∨ text = "True" ∨ text = "TRUE" then some true
  else if text = "false" ∨ text = "False" ∨ text = "FALSE" then some false
  else none

def isNull (text : String) : Bool :=
  text == "~" || text == "null" || text == "Null" || text == "NULL"

def plain (text : String) : Option Json :=
  if text.isEmpty || isNull text then some .null
  else
    match boolean? text with
    | some b => some (.boolean b)
    | none =>
      match Numeral.ofPlain? text with
      | some numeral => numeral.value?
      | none => some (.text text)

def tag (name : String) : Bytes := word ("tag:yaml.org,2002:" ++ name)

/-- Whether a tag is private to an application, of which nothing is known here. -/
def isPrivate (tag : Bytes) : Bool := tag.head? == some (ascii '!') && (Utf8.text? tag).isSome

def tagged (t : Bytes) (plainStyle : Bool) (text : String) : Option Json :=
  if isPrivate t then none
  else if t = tag "bool" then (boolean? text).map .boolean
  else if t = tag "int" then (Numeral.integer? text).bind fun i => (Numeral.whole i).value?
  else if t = tag "float" then (Numeral.float? text).bind (·.value?)
  else if t = tag "null" then if isNull text then some .null else none
  else if t.head? = some (ascii '!') ∧ plainStyle then plain text
  else some (.text text)

def scalar (t : Option Bytes) (plainStyle : Bool) (text : String) : Option Json :=
  match t with
  | some t => tagged t plainStyle text
  | none => if plainStyle then plain text else some (.text text)

end Core
end NodeAudit.Yaml

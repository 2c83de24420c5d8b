import NodeAudit.Codec.Basic

/-! Time stamps, kept by their calendar fields in universal time. They are read in the relaxed form
of RFC 3339, where blanks may surround the parts of a date and of a time, and written in the strict
one with whole seconds. -/
namespace NodeAudit
open Json

structure Instant where
  year : Int
  month : Nat
  day : Nat
  hour : Nat
  minute : Nat
  second : Nat
  nanosecond : Nat
deriving DecidableEq

namespace Instant

inductive Problem where
  | tooShort
  | invalid
  | outOfRange
  | trailing
  /-- In universal time, a day outside the calendar. -/
  | impossible
deriving DecidableEq

def Problem.message : Problem → String
  | .tooShort => "premature end of input"
  | .invalid => "input contains invalid characters"
  | .outOfRange => "input is out of range"
  | .trailing => "trailing input"
  | .impossible => "no possible date and time matching input"

def leap (year : Int) : Bool := year % 4 == 0 && (year % 100 != 0 || year % 400 == 0)

def daysIn (year : Int) (month : Nat) : Nat :=
  if month = 2 then if leap year then 29 else 28
  else if month = 4 ∨ month = 6 ∨ month = 9 ∨ month = 11 then 30
  else 31

def inCalendar (year : Int) : Bool := -262143 ≤ year && year ≤ 262142

def nextDay (t : Instant) : Instant :=
  if t.day < daysIn t.year t.month then { t with day := t.day + 1 }
  else if t.month < 12 then { t with month := t.month + 1, day := 1 }
  else { t with year := t.year + 1, month := 1, day := 1 }

def previousDay (t : Instant) : Instant :=
  if 1 < t.day then { t with day := t.day - 1 }
  else if 1 < t.month then
    { t with month := t.month - 1, day := daysIn t.year (t.month - 1) }
  else { t with year := t.year - 1, month := 12, day := 31 }

/-- Moves a local time to universal time; the offset is in minutes and less than a day. -/
def shift (t : Instant) (offset : Int) : Instant :=
  let minutes : Int := (t.hour * 60 + t.minute : Nat) - offset
  let set (t : Instant) (minutes : Int) : Instant :=
    { t with hour := (minutes / 60).toNat, minute := (minutes % 60).toNat }
  if minutes < 0 then set t.previousDay (minutes + 1440)
  else if 1440 ≤ minutes then set t.nextDay (minutes - 1440)
  else set t minutes

def white (c : Char) : Bool :=
  (0x09 ≤ c.toNat && c.toNat ≤ 0x0D) || c.toNat == 0x20 || c.toNat == 0x85 || c.toNat == 0xA0 ||
    c.toNat == 0x1680 || (0x2000 ≤ c.toNat && c.toNat ≤ 0x200A) || c.toNat == 0x2028 ||
    c.toNat == 0x2029 || c.toNat == 0x202F || c.toNat == 0x205F || c.toNat == 0x3000

def trim (s : List Char) : List Char := s.dropWhile white

def decimalDigit (c : Char) : Bool := '0' ≤ c && c ≤ '9'

def numeral (ds : List Char) : Nat := ds.foldl (fun n c => n * 10 + (c.toNat - 0x30)) 0

def field (width : Nat) (s : List Char) : Except Problem (Nat × List Char) :=
  let ds := (s.take width).takeWhile decimalDigit
  if s.isEmpty then .error .tooShort
  else if ds.isEmpty then .error .invalid
  else .ok (numeral ds, s.drop ds.length)

def sign (c : Char) : List Char → Except Problem (List Char)
  | [] => .error .tooShort
  | d :: s => if c = d then .ok s else .error .invalid

def ranged (low high n : Nat) : Except Problem Unit :=
  if low ≤ n ∧ n ≤ high then .ok () else .error .outOfRange

def signedYear (s : List Char) : Except Problem (Int × List Char) :=
  match s with
  | '-' :: t => do
    let (n, rest) ← field t.length t
    return (-n, rest)
  | '+' :: t => do
    let (n, rest) ← field t.length t
    return (n, rest)
  | _ => do
    let (n, rest) ← field 4 s
    return (n, rest)

/-- A year beyond 32 bits is refused at once, and any other outside the calendar at the end. -/
def bounded (year : Int) : Except Problem Unit :=
  if -2147483648 ≤ year ∧ year < 2147483648 then .ok () else .error .outOfRange

/-- Reads a fraction of a second, of which nine digits count. -/
def fraction : List Char → Except Problem (Nat × List Char)
  | '.' :: s =>
    let ds := s.takeWhile decimalDigit
    if s.isEmpty then .error .tooShort
    else if ds.isEmpty then .error .invalid
    else .ok (numeral ((ds ++ List.replicate 9 '0').take 9), s.drop ds.length)
  | s => .ok (0, s)

def pair (s : List Char) (problem : Char → Problem) : Except Problem (Nat × List Char) :=
  match s with
  | a :: b :: rest =>
    if decimalDigit a && decimalDigit b then .ok (numeral [a, b], rest) else .error (problem a)
  | _ => .error .tooShort

def offset (s : List Char) : Except Problem (Int × List Char) :=
  let digits (negative : Bool) (s : List Char) : Except Problem (Int × List Char) := do
    let (hours, rest) ← pair s fun _ => .invalid
    let (minutes, rest) ← pair (rest.dropWhile fun c => c == ':' || white c) fun _ => .invalid
    if 59 < minutes then .error .outOfRange
    else
      let total : Int := (hours * 60 + minutes : Nat)
      return (if negative then -total else total, rest)
  match s with
  | [] => .error .tooShort
  | c :: t =>
    if c = 'Z' ∨ c = 'z' then .ok (0, t)
    else if s.length ≥ 3 ∧ (s.take 3).map Char.toUpper = ['U', 'T', 'C'] then .ok (0, s.drop 3)
    else if c = '+' then digits false t
    else if c = '-' ∨ c = '−' then digits true t
    else .error .invalid

def read (text : String) : Except Problem Instant := do
  let (year, s) ← signedYear (trim text.toList)
  bounded year
  let s ← sign '-' (trim s)
  let (month, s) ← field 2 (trim s)
  ranged 1 12 month
  let s ← sign '-' (trim s)
  let (day, s) ← field 2 (trim s)
  ranged 1 31 day
  let s ←
    match s with
    | [] => .error .tooShort
    | c :: t => if c = 'T' ∨ c = 't' ∨ c = ' ' then .ok t else .error .invalid
  let (hour, s) ← field 2 (trim s)
  ranged 0 23 hour
  let s ← sign ':' (trim s)
  let (minute, s) ← field 2 (trim s)
  ranged 0 59 minute
  let s ← sign ':' (trim s)
  let (second, s) ← field 2 (trim s)
  ranged 0 60 second
  let (nanosecond, s) ← fraction s
  let (offset, s) ← offset (trim s)
  if (trim s).isEmpty then
    if day ≤ daysIn year month ∧ -1440 < offset ∧ offset < 1440 ∧ inCalendar year then
      let time := shift { year, month, day, hour, minute, second, nanosecond } offset
      if inCalendar time.year then return time else .error .impossible
    else .error .outOfRange
  else .error .trailing

def padded (width n : Nat) : List Char :=
  let ds := (digits n).map fun d => Char.ofNat (0x30 + d)
  List.replicate (width - ds.length) '0' ++ ds

/-- Years of more or less than four digits carry a sign. -/
def yearDigits (year : Int) : List Char :=
  if year < 0 then '-' :: padded 4 year.natAbs
  else if 9999 < year then '+' :: padded 4 year.natAbs
  else padded 4 year.natAbs

def text (t : Instant) : String :=
  String.ofList (yearDigits t.year ++ ['-'] ++ padded 2 t.month ++ ['-'] ++ padded 2 t.day ++
    ['T'] ++ padded 2 t.hour ++ [':'] ++ padded 2 t.minute ++ [':'] ++ padded 2 t.second ++ ['Z'])

end Instant

namespace Codec

def timeForm : String := "an RFC 3339 formatted date and time string"

def judgeTime (text : String) : Except Misfit Instant :=
  (Instant.read text).mapError fun problem => .time problem.message

def instant : Codec Instant where
  ofJson
    | .text value => judgeTime value
    | other => .error (.kind (found other) timeForm)
  read _ := atByte fun b t =>
    if b = ascii '"' then do
      let (value, rest) ← Read.string t
      match judgeTime value with
      | .ok time => return (time, rest)
      | .error reason => Read.misfit reason rest
    else Read.mismatch timeForm (b :: t)
  toJson time := .text time.text

end Codec
end NodeAudit

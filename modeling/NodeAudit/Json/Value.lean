import NodeAudit.Number.Binary64
import NodeAudit.SortedMap

/-! JSON values. An integer and a floating-point number are never the same number here. -/
namespace NodeAudit

inductive Number where
  /-- A whole number that 64 bits can hold, signed below zero and unsigned from there on. -/
  | whole (value : Int) (bounded : -9223372036854775808 ≤ value ∧ value < 18446744073709551616)
  | real (value : Binary64)
deriving DecidableEq

namespace Number

def ofNat (n : Nat) (bounded : n < 18446744073709551616) : Number := .whole n (by omega)

def ofInt? (i : Int) : Option Number :=
  if bounded : -9223372036854775808 ≤ i ∧ i < 18446744073709551616 then
    some (.whole i bounded) else none

def agrees : Number → Number → Bool
  | .whole a _, .whole b _ => a == b
  | .real a, .real b => a.agrees b
  | _, _ => false

end Number

/-- Members of an object stand in ascending order of their names. -/
inductive Json where
  | null
  | boolean (value : Bool)
  | number (value : Number)
  | text (value : String)
  | array (items : List Json)
  | object (members : List (String × Json))

namespace Json

instance : Inhabited Json := ⟨.null⟩

mutual
def agrees : Json → Json → Bool
  | .null, .null => true
  | .boolean a, .boolean b => a == b
  | .number a, .number b => a.agrees b
  | .text a, .text b => a == b
  | .array a, .array b => itemsAgree a b
  | .object a, .object b => membersAgree a b
  | _, _ => false

def itemsAgree : List Json → List Json → Bool
  | [], [] => true
  | a :: as, b :: bs => agrees a b && itemsAgree as bs
  | _, _ => false

def membersAgree : List (String × Json) → List (String × Json) → Bool
  | [], [] => true
  | (k, a) :: as, (l, b) :: bs => k == l && agrees a b && membersAgree as bs
  | _, _ => false
end

end Json
end NodeAudit

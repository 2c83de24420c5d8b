import NodeAudit.Json.Value

/-! Values that agree are the same value, but for the sign of a zero. -/
namespace NodeAudit

namespace Binary64

/-- A number with a zero that has no sign. -/
def canonical (x : Binary64) : Binary64 := if x.isZero then zero else x

theorem agrees_iff (x y : Binary64) : x.agrees y = true ↔ x.canonical = y.canonical := by
  rw [agrees,Bool.or_eq_true,Bool.and_eq_true,beq_iff_eq,canonical,canonical]
  constructor
  · rintro (rfl | ⟨first,second⟩)
    · rfl
    · rw [if_pos first,if_pos second]
  · intro same
    cases first : x.isZero with
    | true =>
      refine .inr ⟨rfl,?_⟩
      rw [if_pos first] at same
      split at same
      next second => exact second
      next => exact same ▸ rfl
    | false =>
      rw [if_neg (by simp [first])] at same
      split at same
      next =>
        rw [same] at first
        contradiction
      next => exact .inl same

end Binary64

namespace Number

def canonical : Number → Number
  | .real x => .real x.canonical
  | .whole i bounded => .whole i bounded

theorem agrees_iff (x y : Number) : x.agrees y = true ↔ x.canonical = y.canonical := by
  cases x <;> cases y <;> simp [agrees,canonical,Binary64.agrees_iff]

end Number

namespace Json

mutual
/-- A value with zeros that have no sign. -/
def canonical : Json → Json
  | .number x => .number x.canonical
  | .array items => .array (canonicalItems items)
  | .object members => .object (canonicalMembers members)
  | other => other

def canonicalItems : List Json → List Json
  | [] => []
  | item :: rest => canonical item :: canonicalItems rest

def canonicalMembers : List (String × Json) → List (String × Json)
  | [] => []
  | (name,value) :: rest => (name,canonical value) :: canonicalMembers rest
end

mutual

theorem agrees_iff (a b : Json) : a.agrees b = true ↔ a.canonical = b.canonical :=
  match a with
  | .null => by cases b <;> simp [agrees,canonical]
  | .boolean x => by cases b <;> simp [agrees,canonical]
  | .number x => by cases b <;> simp [agrees,canonical,Number.agrees_iff]
  | .text s => by cases b <;> simp [agrees,canonical]
  | .array items => by
    cases b with
    | array others => rw [agrees,itemsAgree_iff items others,canonical,canonical,array.injEq]
    | _ => simp [agrees,canonical]
  | .object members => by
    cases b with
    | object others => rw [agrees,membersAgree_iff members others,canonical,canonical,object.injEq]
    | _ => simp [agrees,canonical]

theorem itemsAgree_iff (as bs : List Json) :
    itemsAgree as bs = true ↔ canonicalItems as = canonicalItems bs :=
  match as, bs with
  | [], [] => by simp [itemsAgree]
  | [], _ :: _ => by simp [itemsAgree,canonicalItems]
  | _ :: _, [] => by simp [itemsAgree,canonicalItems]
  | a :: as, b :: bs => by
    rw [itemsAgree,Bool.and_eq_true,agrees_iff a b,itemsAgree_iff as bs,canonicalItems,
      canonicalItems,List.cons.injEq]

theorem membersAgree_iff (as bs : List (String × Json)) :
    membersAgree as bs = true ↔ canonicalMembers as = canonicalMembers bs :=
  match as, bs with
  | [], [] => by simp [membersAgree]
  | [], _ :: _ => by simp [membersAgree,canonicalMembers]
  | _ :: _, [] => by simp [membersAgree,canonicalMembers]
  | (_,a) :: as, (_,b) :: bs => by
    rw [membersAgree,Bool.and_eq_true,Bool.and_eq_true,agrees_iff a b,membersAgree_iff as bs,
      canonicalMembers,canonicalMembers,List.cons.injEq,Prod.mk.injEq,beq_iff_eq]

end

end Json
end NodeAudit

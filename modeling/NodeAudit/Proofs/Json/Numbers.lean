import NodeAudit.Proofs.Json.Agreement
import NodeAudit.Proofs.SortedMap

/-! The numbers in a value, and what becomes of the value when each of them is replaced. -/
namespace NodeAudit.Json

mutual
/-- A value with its numbers replaced. -/
def renumber (f : Number → Number) : Json → Json
  | .number x => .number (f x)
  | .array items => .array (renumberItems f items)
  | .object members => .object (renumberMembers f members)
  | other => other

def renumberItems (f : Number → Number) : List Json → List Json
  | [] => []
  | item :: rest => renumber f item :: renumberItems f rest

def renumberMembers (f : Number → Number) : List (String × Json) → List (String × Json)
  | [] => []
  | (name,value) :: rest => (name,renumber f value) :: renumberMembers f rest
end

mutual
/-- The numbers in a value, in the order of its text. -/
def numbers : Json → List Number
  | .number x => [x]
  | .array items => numbersOfItems items
  | .object members => numbersOfMembers members
  | _ => []

def numbersOfItems : List Json → List Number
  | [] => []
  | item :: rest => numbers item ++ numbersOfItems rest

def numbersOfMembers : List (String × Json) → List Number
  | [] => []
  | (_,value) :: rest => numbers value ++ numbersOfMembers rest
end

theorem renumberItems_eq_map (f : Number → Number) (items : List Json) :
    renumberItems f items = items.map (renumber f) := by
  induction items with
  | nil => rfl
  | cons item items ih => rw [renumberItems,ih,List.map_cons]

theorem renumberMembers_eq_map (f : Number → Number) (members : List (String × Json)) :
    renumberMembers f members = members.map fun member => (member.1,renumber f member.2) := by
  induction members with
  | nil => rfl
  | cons member members ih =>
    obtain ⟨name,value⟩ := member
    rw [renumberMembers,ih,List.map_cons]

theorem renumber_object (f : Number → Number) (map : SortedMap Json) :
    renumber f (.object map.entries) =
      .object (map.relabel fun member => renumber f member.2).entries := by
  rw [renumber,renumberMembers_eq_map]
  rfl

mutual

theorem renumber_renumber (f g : Number → Number) (v : Json) :
    renumber g (renumber f v) = renumber (g ∘ f) v :=
  match v with
  | .null => rfl
  | .boolean _ => rfl
  | .number _ => rfl
  | .text _ => rfl
  | .array items => congrArg Json.array (renumberItems_renumberItems f g items)
  | .object members => congrArg Json.object (renumberMembers_renumberMembers f g members)

theorem renumberItems_renumberItems (f g : Number → Number) (items : List Json) :
    renumberItems g (renumberItems f items) = renumberItems (g ∘ f) items :=
  match items with
  | [] => rfl
  | item :: items => by
    simp only [renumberItems,renumber_renumber f g item,renumberItems_renumberItems f g items]

theorem renumberMembers_renumberMembers (f g : Number → Number) (members : List (String × Json)) :
    renumberMembers g (renumberMembers f members) = renumberMembers (g ∘ f) members :=
  match members with
  | [] => rfl
  | (_,value) :: members => by
    simp only [renumberMembers,renumber_renumber f g value,
      renumberMembers_renumberMembers f g members]

end

mutual

theorem renumber_id (v : Json) : renumber id v = v :=
  match v with
  | .null => rfl
  | .boolean _ => rfl
  | .number _ => rfl
  | .text _ => rfl
  | .array items => congrArg Json.array (renumberItems_id items)
  | .object members => congrArg Json.object (renumberMembers_id members)

theorem renumberItems_id (items : List Json) : renumberItems id items = items :=
  match items with
  | [] => rfl
  | item :: items => by rw [renumberItems,renumber_id item,renumberItems_id items]

theorem renumberMembers_id (members : List (String × Json)) :
    renumberMembers id members = members :=
  match members with
  | [] => rfl
  | (_,value) :: members => by rw [renumberMembers,renumber_id value,renumberMembers_id members]

end

mutual

/-- Two replacements make the same of a value if they make the same of its numbers. -/
theorem renumber_eq_iff (f g : Number → Number) (v : Json) :
    renumber f v = renumber g v ↔ ∀ x ∈ numbers v, f x = g x :=
  match v with
  | .null => by simp [renumber,numbers]
  | .boolean _ => by simp [renumber,numbers]
  | .number _ => by simp [renumber,numbers]
  | .text _ => by simp [renumber,numbers]
  | .array items => by
    rw [renumber,renumber,array.injEq,renumberItems_eq_iff f g items,numbers]
  | .object members => by
    rw [renumber,renumber,object.injEq,renumberMembers_eq_iff f g members,numbers]

theorem renumberItems_eq_iff (f g : Number → Number) (items : List Json) :
    renumberItems f items = renumberItems g items ↔ ∀ x ∈ numbersOfItems items, f x = g x :=
  match items with
  | [] => by simp [renumberItems,numbersOfItems]
  | item :: items => by
    rw [renumberItems,renumberItems,List.cons.injEq,renumber_eq_iff f g item,
      renumberItems_eq_iff f g items,numbersOfItems,List.forall_mem_append]

theorem renumberMembers_eq_iff (f g : Number → Number) (members : List (String × Json)) :
    renumberMembers f members = renumberMembers g members ↔
      ∀ x ∈ numbersOfMembers members, f x = g x :=
  match members with
  | [] => by simp [renumberMembers,numbersOfMembers]
  | (_,value) :: members => by
    rw [renumberMembers,renumberMembers,List.cons.injEq,Prod.mk.injEq,eq_self_iff_true,true_and,
      renumber_eq_iff f g value,renumberMembers_eq_iff f g members,numbersOfMembers,
      List.forall_mem_append]

end

mutual

theorem canonical_eq_renumber (v : Json) : v.canonical = renumber Number.canonical v :=
  match v with
  | .null => rfl
  | .boolean _ => rfl
  | .number _ => rfl
  | .text _ => rfl
  | .array items => congrArg Json.array (canonicalItems_eq_renumberItems items)
  | .object members => congrArg Json.object (canonicalMembers_eq_renumberMembers members)

theorem canonicalItems_eq_renumberItems (items : List Json) :
    canonicalItems items = renumberItems Number.canonical items :=
  match items with
  | [] => rfl
  | item :: items => by
    rw [canonicalItems,renumberItems,canonical_eq_renumber item,
      canonicalItems_eq_renumberItems items]

theorem canonicalMembers_eq_renumberMembers (members : List (String × Json)) :
    canonicalMembers members = renumberMembers Number.canonical members :=
  match members with
  | [] => rfl
  | (_,value) :: members => by
    rw [canonicalMembers,renumberMembers,canonical_eq_renumber value,
      canonicalMembers_eq_renumberMembers members]

end

theorem canonical_renumber (f : Number → Number) (v : Json) :
    (renumber f v).canonical = renumber (Number.canonical ∘ f) v := by
  rw [canonical_eq_renumber,renumber_renumber]

/-- A value agrees with what a replacement makes of it if all its numbers do. -/
theorem canonical_renumber_eq_iff (f : Number → Number) (v : Json) :
    (renumber f v).canonical = v.canonical ↔ ∀ x ∈ numbers v, (f x).canonical = x.canonical := by
  rw [canonical_renumber,canonical_eq_renumber v,renumber_eq_iff]
  rfl

/-- A replacement that keeps agreeing numbers in agreement keeps agreeing values so. -/
theorem canonical_renumber_congr {f : Number → Number}
    (steady : ∀ x, (f x.canonical).canonical = (f x).canonical) {v w : Json}
    (same : v.canonical = w.canonical) : (renumber f v).canonical = (renumber f w).canonical := by
  have through (u : Json) :
      (renumber f u).canonical = renumber (Number.canonical ∘ f) u.canonical := by
    rw [canonical_renumber,canonical_eq_renumber u,renumber_renumber,renumber_eq_iff]
    exact fun x _ => (steady x).symm
  rw [through v,through w,same]

end NodeAudit.Json

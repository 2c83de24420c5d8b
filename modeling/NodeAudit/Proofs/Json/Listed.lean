import NodeAudit.Proofs.Json.Readable

/-! What a value lists for fields of some names, by name or by position, and what is given by a
member that may be left out or a value that may be null. -/
namespace NodeAudit.Json
variable {α : Type}

/-- The members that a value lists for fields of some names: those of an object, or the items of an
array, of which there may be fewer than names, by position. -/
inductive Lists (names : List String) : Json → List (String × Json) → Prop where
  | object {members : List (String × Json)} : Lists names (.object members) members
  | array {items : List Json} (few : items.length ≤ names.length) :
      Lists names (.array items) (names.zip items)

/-- What a member gives that may be left out. -/
inductive Given (reads : Json → α → Prop) (start : α) : Option Json → α → Prop where
  | absent : Given reads start none start
  | present {v : Json} {a : α} (value : reads v a) : Given reads start (some v) a

/-- What a value gives that may be null instead. -/
inductive Nullable (reads : Json → α → Prop) : Json → Option α → Prop where
  | null : Nullable reads .null none
  | value {v : Json} {a : α} (there : v ≠ .null) (value : reads v a) : Nullable reads v (some a)

/-- A value in each of whose objects the names ascend, as they do in whatever was read. -/
def Ordered (v : Json) : Prop := ∃ depth, Readable depth v

theorem Given.congr {reads other : Json → α → Prop} {start a : α} {o : Option Json}
    (same : ∀ v a, o = some v → (reads v a ↔ other v a)) :
    Given reads start o a ↔ Given other start o a := by
  constructor
  · rintro (_ | value)
    · exact .absent
    · exact .present ((same _ _ rfl).mp value)
  · rintro (_ | value)
    · exact .absent
    · exact .present ((same _ _ rfl).mpr value)

theorem names_zip (names : List String) (items : List Json) :
    (names.zip items).map (·.1) = names.take items.length := by
  induction names generalizing items with
  | nil => rw [List.zip_nil_left,List.take_nil,List.map_nil]
  | cons name names ih =>
    cases items with
    | nil => rfl
    | cons item items =>
      rw [List.zip_cons_cons,List.map_cons,ih,List.length_cons,List.take_succ_cons]

section
variable {names : List String} {v : Json} {members : List (String × Json)}

theorem Lists.distinct (lists : Lists names v members) (apart : names.Nodup) (ordered : v.Ordered) :
    members.Pairwise fun a b => a.1 ≠ b.1 := by
  obtain ⟨depth,readable⟩ := ordered
  cases lists with
  | object =>
    cases readable
    exact SortedMap.distinct_entries _
  | @array items few =>
    apply List.pairwise_map.mp
    rw [names_zip]
    exact apart.sublist (List.take_sublist _ _)

theorem Lists.ordered (lists : Lists names v members) (ordered : v.Ordered)
    {entry : String × Json} (inside : entry ∈ members) : entry.2.Ordered := by
  obtain ⟨depth,readable⟩ := ordered
  cases lists with
  | object =>
    cases readable with
    | object each => exact ⟨_,each entry inside⟩
  | array few =>
    cases readable with
    | array each => exact ⟨_,each entry.2 (List.of_mem_zip inside).2⟩

/-- What is read from a member may be told by what is read from values in order. -/
theorem Lists.given_congr (lists : Lists names v members) (ordered : v.Ordered)
    {reads other : Json → α → Prop} (same : ∀ w a, w.Ordered → (reads w a ↔ other w a))
    (key : String) (start a : α) :
    Given reads start (Entries.find? key members) a ↔
      Given other start (Entries.find? key members) a := by
  refine Given.congr fun w a found => same w a ?_
  exact lists.ordered ordered (Entries.mem_of_find? found)

end
end NodeAudit.Json

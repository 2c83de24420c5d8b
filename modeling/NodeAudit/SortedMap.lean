/-! Finite maps from texts, kept as entries whose keys ascend by code point. That order is the
order of their UTF-8 bytes, and it makes two maps equal as soon as they look up alike. -/
namespace NodeAudit

namespace Entries
variable {α : Type}

abbrev Ascending (entries : List (String × α)) : Prop :=
  entries.Pairwise fun a b => a.1 < b.1

/-- Puts an entry in its place, over an entry of the same key. -/
def insert (key : String) (value : α) : List (String × α) → List (String × α)
  | [] => [(key, value)]
  | entry :: rest =>
    if key = entry.1 then (key, value) :: rest
    else if key < entry.1 then (key, value) :: entry :: rest
    else entry :: insert key value rest

def find? (key : String) (entries : List (String × α)) : Option α :=
  (entries.find? fun entry => entry.1 = key).map (·.2)

def erase (key : String) (entries : List (String × α)) : List (String × α) :=
  entries.filter fun entry => entry.1 ≠ key

theorem mem_insert {key : String} {value : α} {entries : List (String × α)} {entry : String × α}
    (member : entry ∈ insert key value entries) : entry = (key, value) ∨ entry ∈ entries := by
  induction entries with
  | nil => simpa [insert] using member
  | cons head rest ih =>
    simp only [insert] at member
    split at member
    · rcases List.mem_cons.1 member with first | later
      · exact .inl first
      · exact .inr (List.mem_cons_of_mem _ later)
    · split at member
      · rcases List.mem_cons.1 member with first | later
        · exact .inl first
        · exact .inr later
      · rcases List.mem_cons.1 member with first | later
        · exact .inr (first ▸ List.mem_cons_self)
        · exact (ih later).imp_right (List.mem_cons_of_mem _)

theorem ascending_insert {entries : List (String × α)} (ordered : Ascending entries)
    (key : String) (value : α) : Ascending (insert key value entries) := by
  induction entries with
  | nil => simp [insert, Ascending]
  | cons head rest ih =>
    obtain ⟨below, tail⟩ := List.pairwise_cons.1 ordered
    simp only [insert]
    split
    · next same => exact List.pairwise_cons.2 ⟨fun entry member => same ▸ below entry member, tail⟩
    · next other =>
      split
      · next less =>
        refine List.pairwise_cons.2 ⟨fun entry member => ?_, ordered⟩
        rcases List.mem_cons.1 member with first | later
        · exact first ▸ less
        · exact String.lt_trans less (below entry later)
      · next notLess =>
        refine List.pairwise_cons.2 ⟨fun entry member => ?_, ih tail⟩
        rcases mem_insert member with first | later
        · subst first
          exact Decidable.byContradiction fun notGreater =>
            other (String.le_antisymm (String.not_lt.1 notGreater) (String.not_lt.1 notLess))
        · exact below entry later

end Entries

structure SortedMap (α : Type) where
  entries : List (String × α)
  ascending : Entries.Ascending entries

namespace SortedMap
variable {α β : Type}

instance [DecidableEq α] : DecidableEq (SortedMap α) := fun a b =>
  if same : a.entries = b.entries then
    isTrue (by cases a; cases b; cases same; rfl)
  else isFalse fun equal => same (equal ▸ rfl)

instance : Inhabited (SortedMap α) := ⟨⟨[], .nil⟩⟩

def empty : SortedMap α := ⟨[], .nil⟩

def isEmpty (map : SortedMap α) : Bool := map.entries.isEmpty

def size (map : SortedMap α) : Nat := map.entries.length

def keys (map : SortedMap α) : List String := map.entries.map (·.1)

def get? (map : SortedMap α) (key : String) : Option α := Entries.find? key map.entries

def insert (map : SortedMap α) (key : String) (value : α) : SortedMap α :=
  ⟨Entries.insert key value map.entries, Entries.ascending_insert map.ascending key value⟩

def erase (map : SortedMap α) (key : String) : SortedMap α :=
  ⟨Entries.erase key map.entries, map.ascending.filter _⟩

/-- The map of a list of entries, where the last of several with one key counts. -/
def ofList (entries : List (String × α)) : SortedMap α :=
  entries.foldl (fun map entry => map.insert entry.1 entry.2) empty

end SortedMap

abbrev Labels := SortedMap String

end NodeAudit

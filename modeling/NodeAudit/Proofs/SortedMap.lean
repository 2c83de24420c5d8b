import Mathlib.Data.List.Induction
import NodeAudit.SortedMap

/-! What a map holds under each key after each operation. A map is determined by what it holds, and
of a list of entries it holds the last one for every key. -/
namespace NodeAudit

namespace Entries
variable {α : Type}

theorem find?_cons (key : String) (entry : String × α) (entries : List (String × α)) :
    find? key (entry :: entries) = if entry.1 = key then some entry.2 else find? key entries := by
  by_cases same : entry.1 = key
  · simp [find?,same]
  · simp [find?,same]

theorem find?_insert (key other : String) (value : α) (entries : List (String × α)) :
    find? other (insert key value entries) =
      if key = other then some value else find? other entries := by
  induction entries with
  | nil => rw [insert,find?_cons]
  | cons entry rest ih =>
    rw [insert]
    split
    next same =>
      rw [find?_cons,find?_cons,← same]
      split <;> rfl
    next different =>
      split
      next => rw [find?_cons]
      next =>
        rw [find?_cons,find?_cons,ih]
        by_cases first : entry.1 = other
        · rw [if_pos first,if_pos first,if_neg (fun second => different (second.trans first.symm))]
        · rw [if_neg first,if_neg first]

theorem find?_eq_none_iff (key : String) (entries : List (String × α)) :
    find? key entries = none ↔ ∀ entry ∈ entries, entry.1 ≠ key := by
  rw [find?,Option.map_eq_none_iff,List.find?_eq_none]
  simp only [decide_eq_true_iff,ne_eq]

theorem mem_of_find? {key : String} {entries : List (String × α)} {value : α}
    (found : find? key entries = some value) : (key,value) ∈ entries := by
  obtain ⟨entry,first,rfl⟩ := Option.map_eq_some_iff.mp found
  have named : entry.1 = key := by simpa using List.find?_some first
  rw [← named]
  exact List.mem_of_find?_eq_some first

theorem find?_none_of_below {key : String} {entries : List (String × α)}
    (below : ∀ entry ∈ entries, key < entry.1) : find? key entries = none := by
  rw [find?_eq_none_iff]
  rintro entry member rfl
  exact String.lt_irrefl _ (below entry member)

theorem find?_eq_some_iff {entries : List (String × α)} (ordered : Ascending entries)
    (key : String) (value : α) : find? key entries = some value ↔ (key,value) ∈ entries := by
  induction entries with
  | nil => simp [find?]
  | cons entry rest ih =>
    obtain ⟨below,tail⟩ := List.pairwise_cons.mp ordered
    rw [find?_cons,List.mem_cons]
    by_cases same : entry.1 = key
    · rw [if_pos same,Option.some.injEq]
      constructor
      · intro equal
        exact .inl (by rw [← same,← equal])
      · rintro (first | later)
        · rw [← first]
        · exact absurd (same ▸ below _ later) (String.lt_irrefl _)
    · rw [if_neg same,ih tail]
      constructor
      · exact .inr
      · rintro (first | later)
        · exact absurd (by rw [← first]) same
        · exact later

theorem find?_erase (key other : String) (entries : List (String × α)) :
    find? other (erase key entries) = if key = other then none else find? other entries := by
  induction entries with
  | nil => simp [erase,find?]
  | cons entry rest ih =>
    rw [erase] at ih
    rw [erase,List.filter_cons,find?_cons]
    by_cases same : entry.1 = key
    · rw [if_neg (by simp [same]),ih,same]
      split <;> rfl
    · rw [if_pos (by simp [same]),find?_cons,ih]
      by_cases first : entry.1 = other
      · rw [if_pos first,if_pos first,if_neg (fun second => same (first.trans second.symm))]
      · rw [if_neg first,if_neg first]

/-- Entries that ascend are determined by what is found among them. -/
theorem eq_of_find? {a b : List (String × α)} (first : Ascending a) (second : Ascending b)
    (same : ∀ key, find? key a = find? key b) : a = b := by
  have members : ∀ entry, entry ∈ a ↔ entry ∈ b := fun entry => by
    rw [← find?_eq_some_iff first,← find?_eq_some_iff second,same]
  induction a generalizing b with
  | nil =>
    cases b with
    | nil => rfl
    | cons entry rest => exact absurd ((members entry).mpr List.mem_cons_self) List.not_mem_nil
  | cons x a ih =>
    cases b with
    | nil => exact absurd ((members x).mp List.mem_cons_self) List.not_mem_nil
    | cons y b =>
      obtain ⟨belowX,tailA⟩ := List.pairwise_cons.mp first
      obtain ⟨belowY,tailB⟩ := List.pairwise_cons.mp second
      have head : x = y := by
        rcases List.mem_cons.mp ((members x).mp List.mem_cons_self) with equal | later
        · exact equal
        · rcases List.mem_cons.mp ((members y).mpr List.mem_cons_self) with equal | earlier
          · exact equal.symm
          · exact absurd (belowY x later) (String.lt_asymm (belowX y earlier))
      subst head
      have rest : ∀ key, find? key a = find? key b := by
        intro key
        by_cases atHead : x.1 = key
        · rw [find?_none_of_below (atHead ▸ belowX),find?_none_of_below (atHead ▸ belowY)]
        · have found := same key
          rwa [find?_cons,find?_cons,if_neg atHead,if_neg atHead] at found
      rw [ih tailA tailB rest fun entry => by
        rw [← find?_eq_some_iff tailA,← find?_eq_some_iff tailB,rest]]

end Entries

namespace SortedMap
variable {α : Type}

theorem get?_insert (map : SortedMap α) (key other : String) (value : α) :
    (map.insert key value).get? other = if key = other then some value else map.get? other :=
  Entries.find?_insert key other value map.entries

theorem get?_erase (map : SortedMap α) (key other : String) :
    (map.erase key).get? other = if key = other then none else map.get? other :=
  Entries.find?_erase key other map.entries

theorem get?_eq_some_iff (map : SortedMap α) (key : String) (value : α) :
    map.get? key = some value ↔ (key,value) ∈ map.entries :=
  Entries.find?_eq_some_iff map.ascending key value

theorem ext_entries {a b : SortedMap α} (same : a.entries = b.entries) : a = b := by
  obtain ⟨entries,first⟩ := a
  obtain ⟨others,second⟩ := b
  subst same
  rfl

theorem ext_get? {a b : SortedMap α} (same : ∀ key, a.get? key = b.get? key) : a = b :=
  ext_entries (Entries.eq_of_find? a.ascending b.ascending same)

/-- The entry of a key that has no entry of the same key after it. -/
def Final (entries : List (String × α)) (key : String) (value : α) : Prop :=
  ∃ before after, entries = before ++ (key,value) :: after ∧ ∀ entry ∈ after, entry.1 ≠ key

theorem final_append_singleton (entries : List (String × α)) (entry : String × α) (key : String)
    (value : α) : Final (entries ++ [entry]) key value ↔
      if entry.1 = key then entry.2 = value else Final entries key value := by
  split
  next same =>
    constructor
    · rintro ⟨before,after,split,others⟩
      rcases List.eq_nil_or_concat after with rfl | ⟨init,last,rfl⟩
      · have last := (List.append_inj' split rfl).2
        rw [List.cons.injEq] at last
        rw [last.1]
      · rw [List.concat_eq_append,← List.cons_append,← List.append_assoc] at split
        have equal := (List.append_inj' split rfl).2
        rw [List.cons.injEq] at equal
        exact absurd (equal.1 ▸ same) (others last (by simp))
    · rintro rfl
      exact ⟨entries,[],by rw [← same],fun _ member => absurd member List.not_mem_nil⟩
  next different =>
    constructor
    · rintro ⟨before,after,split,others⟩
      rcases List.eq_nil_or_concat after with rfl | ⟨init,last,rfl⟩
      · have last := (List.append_inj' split rfl).2
        rw [List.cons.injEq] at last
        exact absurd (by rw [last.1]) different
      · rw [List.concat_eq_append,← List.cons_append,← List.append_assoc] at split
        exact ⟨before,init,(List.append_inj' split rfl).1,
          fun entry member => others entry (by simp [member])⟩
    · rintro ⟨before,after,rfl,others⟩
      refine ⟨before,after ++ [entry],by simp,fun other member => ?_⟩
      rcases List.mem_append.mp member with inside | last
      · exact others other inside
      · rw [List.mem_singleton.mp last]
        exact different

theorem ofList_append_singleton (entries : List (String × α)) (entry : String × α) :
    ofList (entries ++ [entry]) = (ofList entries).insert entry.1 entry.2 := by
  rw [ofList,List.foldl_append]
  rfl

theorem get?_ofList (entries : List (String × α)) (key : String) (value : α) :
    (ofList entries).get? key = some value ↔ Final entries key value := by
  induction entries using List.reverseRecOn with
  | nil =>
    constructor
    · intro found
      contradiction
    · rintro ⟨before,after,split,-⟩
      simp at split
  | append_singleton entries entry ih =>
    rw [ofList_append_singleton,get?_insert,final_append_singleton]
    split
    · rw [Option.some.injEq]
    · exact ih

theorem mem_keys_iff (map : SortedMap α) (key : String) :
    key ∈ map.keys ↔ ∃ value, map.get? key = some value := by
  simp only [get?_eq_some_iff]
  simp [keys]

theorem mem_keys_ofList (entries : List (String × α)) (key : String) :
    key ∈ (ofList entries).keys ↔ ∃ value, (key,value) ∈ entries := by
  induction entries using List.reverseRecOn with
  | nil => simp [keys,ofList,empty]
  | append_singleton entries entry ih =>
    rw [mem_keys_iff] at ih
    rw [ofList_append_singleton,mem_keys_iff]
    simp only [get?_insert,List.mem_append,List.mem_singleton,exists_or,← ih]
    by_cases same : entry.1 = key
    · subst same
      simp only [if_true,Option.some.injEq,exists_eq',true_iff]
      exact .inr ⟨entry.2,rfl⟩
    · rw [if_neg same]
      refine (or_iff_left ?_).symm
      rintro ⟨value,rfl⟩
      exact same rfl

theorem mem_of_mem_ofList {entries : List (String × α)} {entry : String × α}
    (inside : entry ∈ (ofList entries).entries) : entry ∈ entries := by
  obtain ⟨before,after,rfl,-⟩ := (get?_ofList _ _ _).mp ((get?_eq_some_iff _ _ _).mpr inside)
  exact List.mem_append_right _ List.mem_cons_self

/-- Where no key is given twice, every entry is the last of its key. -/
theorem final_iff_mem {entries : List (String × α)}
    (distinct : entries.Pairwise fun a b => a.1 ≠ b.1) (key : String) (value : α) :
    Final entries key value ↔ (key,value) ∈ entries := by
  constructor
  · rintro ⟨before,after,rfl,-⟩
    exact List.mem_append_right _ List.mem_cons_self
  · intro member
    obtain ⟨before,after,rfl⟩ := List.append_of_mem member
    refine ⟨before,after,rfl,fun entry later same => ?_⟩
    have behind := (List.pairwise_append.mp distinct).2.1
    exact (List.pairwise_cons.mp behind).1 entry later same.symm

theorem distinct_entries (map : SortedMap α) : map.entries.Pairwise fun a b => a.1 ≠ b.1 := by
  refine map.ascending.imp fun {a b} (less : a.1 < b.1) => ?_
  rintro same
  exact String.lt_irrefl b.1 (same ▸ less)

/-- A map is the map of its own entries, in whatever order. -/
theorem ofList_perm {map : SortedMap α} {entries : List (String × α)}
    (same : entries.Perm map.entries) : ofList entries = map := by
  have distinct := same.symm.pairwise map.distinct_entries fun apart => apart.symm
  refine ext_get? fun key => Option.ext fun value => ?_
  rw [get?_ofList,get?_eq_some_iff,final_iff_mem distinct,same.mem_iff]

theorem ofList_entries (map : SortedMap α) : ofList map.entries = map := ofList_perm (.refl _)

/-- A map of the same keys with values that are made of its entries. -/
def relabel {β : Type} (map : SortedMap α) (f : String × α → β) : SortedMap β :=
  ⟨map.entries.map fun entry => (entry.1,f entry),List.pairwise_map.mpr map.ascending⟩

theorem get?_relabel {β : Type} (map : SortedMap α) (f : String × α → β) (key : String) (b : β) :
    (map.relabel f).get? key = some b ↔ ∃ a, map.get? key = some a ∧ f (key,a) = b := by
  simp only [get?_eq_some_iff]
  constructor
  · intro member
    obtain ⟨⟨name,a⟩,inside,equal⟩ := List.mem_map.mp member
    obtain ⟨rfl,rfl⟩ := Prod.mk.inj equal
    exact ⟨a,inside,rfl⟩
  · rintro ⟨a,inside,rfl⟩
    exact List.mem_map.mpr ⟨(key,a),inside,rfl⟩

end SortedMap
end NodeAudit

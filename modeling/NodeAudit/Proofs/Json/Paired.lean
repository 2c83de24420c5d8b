import NodeAudit.Proofs.Json.Meaning

/-! The texts of the members of an object beside what the texts mean. What is done to members by
their names alone keeps the two beside each other. -/
namespace NodeAudit.Json
open Utf8

section
variable {α : Type} {denotes : Bytes → α → Prop}

theorem pairs_insert {entry : String × Bytes} {member : String × α} (pair : Pair denotes entry member)
    {entries : List (String × Bytes)} {members : List (String × α)}
    (pairs : List.Forall₂ (Pair denotes) entries members) :
    List.Forall₂ (Pair denotes) (Entries.insert entry.1 entry.2 entries)
      (Entries.insert member.1 member.2 members) := by
  have own : Pair denotes (entry.1,entry.2) (member.1,member.2) := pair
  induction pairs with
  | nil => exact .cons own .nil
  | cons head tail ih =>
    rw [Entries.insert,Entries.insert,← pair.1,head.1]
    rw [← pair.1] at ih own
    split
    next => exact .cons own tail
    next =>
      split
      next => exact .cons own (.cons head tail)
      next => exact .cons head ih

theorem pairs_erase (key : String) {entries : List (String × Bytes)} {members : List (String × α)}
    (pairs : List.Forall₂ (Pair denotes) entries members) :
    List.Forall₂ (Pair denotes) (Entries.erase key entries) (Entries.erase key members) := by
  induction pairs with
  | nil => exact .nil
  | cons head tail ih =>
    rw [Entries.erase,Entries.erase,List.filter_cons,List.filter_cons,head.1]
    split
    next => exact .cons head ih
    next => exact ih

theorem pairs_ofList {entries : List (String × Bytes)} {members : List (String × α)}
    (pairs : List.Forall₂ (Pair denotes) entries members) :
    List.Forall₂ (Pair denotes) (SortedMap.ofList entries).entries
      (SortedMap.ofList members).entries := by
  suffices run : ∀ (map : SortedMap Bytes) (other : SortedMap α),
      List.Forall₂ (Pair denotes) map.entries other.entries →
        List.Forall₂ (Pair denotes) (Read.fill map entries).entries
          (Read.fill other members).entries from
    run .empty .empty .nil
  induction pairs with
  | nil => exact fun _ _ start => start
  | cons head _ ih => exact fun map other start => ih _ _ (pairs_insert head start)

theorem pairs_find? {entries : List (String × Bytes)} {members : List (String × α)}
    (pairs : List.Forall₂ (Pair denotes) entries members) (key : String) :
    Option.Rel denotes (Entries.find? key entries) (Entries.find? key members) := by
  induction pairs with
  | nil => exact .none
  | cons head _ ih =>
    rw [Entries.find?_cons,Entries.find?_cons,head.1]
    split
    next => exact .some head.2
    next => exact ih

theorem pairs_zip {texts : List Bytes} {list : List α} (pairs : List.Forall₂ denotes texts list)
    (names : List String) : List.Forall₂ (Pair denotes) (names.zip texts) (names.zip list) := by
  induction pairs generalizing names with
  | nil =>
    rw [List.zip_nil_right,List.zip_nil_right]
    exact .nil
  | cons head _ ih =>
    cases names with
    | nil => exact .nil
    | cons name names => exact .cons ⟨rfl,head⟩ (ih names)

end

section
variable {α : Type} {denotes : Bytes → α → Prop} {keeps : Bytes → Bytes → Prop}

theorem Member.paired (kept : ∀ v a, denotes v a → keeps v v) {s : Bytes} {member : String × α}
    (written : Member denotes s member) :
    ∃ entry, Member keeps s entry ∧ Pair denotes entry member := by
  obtain ⟨first,spelled,second,third,value,fourth⟩ := written
  exact ⟨(_,_),.parts first spelled second third (kept _ _ value) fourth,rfl,value⟩

theorem Members.paired (kept : ∀ v a, denotes v a → keeps v v) {s : Bytes}
    {members : List (String × α)} (written : Members denotes s members) :
    ∃ entries, Members keeps s entries ∧ List.Forall₂ (Pair denotes) entries members := by
  induction written with
  | last only =>
    obtain ⟨entry,text,pair⟩ := only.paired kept
    exact ⟨[entry],.last text,.cons pair .nil⟩
  | next first _ ih =>
    obtain ⟨entry,text,pair⟩ := first.paired kept
    obtain ⟨entries,texts,pairs⟩ := ih
    exact ⟨entry :: entries,.next text texts,.cons pair pairs⟩

/-- Where every value keeps its text, the texts are found in the object beside their meanings. -/
theorem Object.paired (kept : ∀ v a, denotes v a → keeps v v) {s : Bytes}
    {members : List (String × α)} (written : Object denotes s members) :
    ∃ entries, Object keeps s entries ∧ List.Forall₂ (Pair denotes) entries members := by
  cases written with
  | empty inside => exact ⟨[],.empty inside,.nil⟩
  | members inside =>
    obtain ⟨entries,texts,pairs⟩ := inside.paired kept
    exact ⟨entries,.members texts,pairs⟩

theorem Items.paired (kept : ∀ v a, denotes v a → keeps v v) {s : Bytes} {list : List α}
    (written : Items denotes s list) :
    ∃ texts, Items keeps s texts ∧ List.Forall₂ denotes texts list := by
  induction written with
  | last first value second =>
    exact ⟨[_],.last first (kept _ _ value) second,.cons value .nil⟩
  | next first value second _ ih =>
    obtain ⟨texts,written,pairs⟩ := ih
    exact ⟨_ :: texts,.next first (kept _ _ value) second written,.cons value pairs⟩

theorem Sequence.paired (kept : ∀ v a, denotes v a → keeps v v) {s : Bytes} {list : List α}
    (written : Sequence denotes s list) :
    ∃ texts, Sequence keeps s texts ∧ List.Forall₂ denotes texts list := by
  cases written with
  | empty inside => exact ⟨[],.empty inside,.nil⟩
  | items inside =>
    obtain ⟨texts,written,pairs⟩ := inside.paired kept
    exact ⟨texts,.items written,pairs⟩

theorem Object.valid (valid : ∀ v a, denotes v a → Valid v) {s : Bytes}
    {members : List (String × α)} (written : Object denotes s members) : Valid s := by
  have kept : ∀ v a, denotes v a → v = v ∧ Valid v := fun v a value => ⟨rfl,valid v a value⟩
  obtain ⟨entries,texts,-⟩ := @Object.paired _ _ (fun v raw => raw = v ∧ Valid v) kept _ _ written
  have own : ∀ v raw : Bytes, raw = v ∧ Valid v → raw = v := fun _ _ keeps => keeps.1
  have document := Document.parts Read.blanks_nil texts Read.blanks_nil
  rw [List.nil_append,List.append_nil] at document
  refine (document_valid_iff own document).mpr fun entry member => ?_
  obtain ⟨v,same,valid⟩ := texts.values entry member
  exact same ▸ valid

theorem Items.valid (valid : ∀ v a, denotes v a → Valid v) {s : Bytes} {list : List α}
    (written : Items denotes s list) : Valid s := by
  induction written with
  | last first value second =>
    exact valid_append (valid_blanks first)
      (valid_append (valid _ _ value) (valid_blanks second))
  | next first value second _ ih =>
    exact valid_append (valid_blanks first) (valid_append (valid _ _ value)
      (valid_append (valid_blanks second) ((valid_cons_iff (by decide) _).mpr ih)))

theorem Sequence.valid (valid : ∀ v a, denotes v a → Valid v) {s : Bytes} {list : List α}
    (written : Sequence denotes s list) : Valid s := by
  cases written with
  | empty inside =>
    exact (valid_cons_iff (by decide) _).mpr
      (valid_append (valid_blanks inside) (valid_ascii (by decide)))
  | items inside =>
    exact (valid_cons_iff (by decide) _).mpr
      (valid_append (inside.valid valid) (valid_ascii (by decide)))

end

theorem Element.valid {inner : Option (Bytes → Json → Prop)}
    (values : ∀ value, inner = some value → ∀ v a, value v a → Valid v) {s : Bytes} {a : Json}
    (element : Element inner s a) : Valid s := by
  cases element with
  | null | true | false => exact valid_of_small (by decide +kernel)
  | positive reads => exact valid_magnitude (Read.number_place reads).1
  | negative reads =>
    exact (valid_cons_iff (by decide) _).mpr (valid_magnitude (Read.number_place reads).1)
  | text spelled =>
    exact (valid_cons_iff (by decide) _).mpr (valid_append
      ((spells_valid_iff spelled []).mpr (valid_bytes _)) (valid_ascii (by decide)))
  | array nested sequence => exact sequence.valid (values _ nested)
  | object nested object => exact object.valid (values _ nested)

/-- A text that means something is well-formed UTF-8. -/
theorem means_valid {depth : Nat} {s : Bytes} {a : Json} (means : Means depth s a) : Valid s := by
  induction depth generalizing s a with
  | zero => exact means.valid fun _ impossible => by cases impossible
  | succ depth ih =>
    refine means.valid fun value nested v a given => ?_
    obtain rfl := Option.some.inj nested
    exact ih given

end NodeAudit.Json

import NodeAudit.Proofs.Json.Listed
import NodeAudit.Proofs.Json.Paired

/-! The texts that stand in a record under the names of its fields. They are its members, of which
the last of a name counts, or the items of an array by position. -/
namespace NodeAudit.Json
open Read

/-- The texts that a record lists for fields of some names. -/
inductive Lays (names : List String) (s : Bytes) : List (String × Bytes) → Prop where
  | object {list : List (String × Bytes)} (object : Object Verbatim s list) : Lays names s list
  | array {items : List Bytes} (sequence : Sequence Verbatim s items) :
      Lays names s (names.zip items)

/-- The last text under a name in an object. -/
def Last (s : Bytes) (key : String) (raw : Bytes) : Prop :=
  ∃ list, Object Verbatim s list ∧ SortedMap.Final list key raw

/-- The last text under a name in an object, or the one at the place of the name in an array. -/
def Under (names : List String) (s : Bytes) (key : String) (raw : Bytes) : Prop :=
  ∃ list, Lays names s list ∧ SortedMap.Final list key raw

/-- The text of a string. -/
def Quotes (t : Bytes) (value : String) : Prop :=
  ∃ body, t = ascii '"' :: (body ++ [ascii '"']) ∧ Spells body (Utf8.bytes value)

theorem Quotes.unique {t : Bytes} {value other : String} (first : Quotes t value)
    (second : Quotes t other) : value = other := by
  obtain ⟨body,rfl,spelled⟩ := first
  obtain ⟨others,same,again⟩ := second
  obtain rfl := List.append_cancel_right (List.cons.inj same).2
  have one := (string_iff _ value []).mpr ⟨body,rfl,spelled⟩
  rw [(string_iff _ other []).mpr ⟨body,rfl,again⟩] at one
  exact (Prod.mk.inj (Except.ok.inj one)).1.symm

/-- Reads the text of a value. -/
def slice (s : Bytes) : Except Stop (Bytes × Bytes) := do
  let rest ← Skip.value s
  return ((skipBlanks s).take ((skipBlanks s).length - rest.length),rest)

theorem skipBlanks_value {gap t : Bytes} (blanks : Blanks gap) (written : Written .value t)
    (rest : Bytes) : skipBlanks (gap ++ (t ++ rest)) = t ++ rest := by
  obtain ⟨b,u,shape,ink,-⟩ := Skip.value_head written
  rw [skipBlanks_append blanks,shape,List.cons_append,skipBlanks_cons ink]

theorem slice_complete : Completes slice Verbatim := by
  rintro before v _ rest blanks ⟨written,rfl⟩ delimited
  refine bind_eq_ok.mpr ⟨rest,Skip.value_complete blanks written delimited,?_⟩
  rw [skipBlanks_value blanks written,List.length_append,Nat.add_sub_cancel,List.take_left]
  rfl

/-- Blanks and the text of a value are told apart. -/
theorem text_unique {before v gap t rest : Bytes} (first : Blanks before) (value : Written .value v)
    (second : Blanks gap) (written : Written .value t)
    (same : before ++ (v ++ rest) = gap ++ (t ++ rest)) : v = t := by
  have start := congrArg skipBlanks same
  rw [skipBlanks_value first value,skipBlanks_value second written] at start
  exact List.append_cancel_right start

theorem Object.brace {α : Type} {denotes : Bytes → α → Prop} {s : Bytes} {list : List (String × α)}
    (object : Object denotes s list) : ∃ t, s = ascii '{' :: t := by
  cases object <;> exact ⟨_,rfl⟩

theorem Sequence.bracket {α : Type} {denotes : Bytes → α → Prop} {s : Bytes} {list : List α}
    (sequence : Sequence denotes s list) : ∃ t, s = ascii '[' :: t := by
  cases sequence <;> exact ⟨_,rfl⟩

theorem Object.ofList_unique {s : Bytes} {list other : List (String × Bytes)}
    (first : Object Verbatim s list) (second : Object Verbatim s other) :
    SortedMap.ofList list = SortedMap.ofList other := by
  obtain ⟨t,rfl⟩ := first.brace
  have one := object_complete slice_complete first (List.append_nil _).symm
  rw [object_complete slice_complete second (List.append_nil _).symm] at one
  exact (Prod.mk.inj (Except.ok.inj one)).1.symm

theorem Sequence.unique {s : Bytes} {items others : List Bytes}
    (first : Sequence Verbatim s items) (second : Sequence Verbatim s others) : items = others := by
  obtain ⟨t,rfl⟩ := first.bracket
  have headed : Headed Verbatim := headed_of_written fun _ _ verbatim => verbatim.1
  have one := array_complete headed slice_complete first (List.append_nil _).symm
  rw [array_complete headed slice_complete second (List.append_nil _).symm] at one
  exact (Prod.mk.inj (Except.ok.inj one)).1.symm

theorem final_congr {list other : List (String × Bytes)}
    (same : SortedMap.ofList list = SortedMap.ofList other) (key : String) (raw : Bytes) :
    SortedMap.Final list key raw ↔ SortedMap.Final other key raw := by
  rw [← SortedMap.get?_ofList,same,SortedMap.get?_ofList]

theorem last_iff {s : Bytes} {list : List (String × Bytes)} (object : Object Verbatim s list)
    (key : String) (raw : Bytes) : Last s key raw ↔ SortedMap.Final list key raw := by
  constructor
  · rintro ⟨other,again,final⟩
    exact (final_congr (again.ofList_unique object) key raw).mp final
  · intro final
    exact ⟨list,object,final⟩

/-- Nothing stands under a name in null. -/
theorem Last.solid {s : Bytes} {key : String} {raw : Bytes} (last : Last s key raw) :
    s ≠ word "null" := by
  rintro rfl
  obtain ⟨list,object,-⟩ := last
  obtain ⟨t,same⟩ := object.brace
  exact absurd (List.cons.inj same).1 (by decide)

section
variable {names : List String} {s : Bytes} {list other : List (String × Bytes)}

theorem Under.written {key : String} {raw : Bytes} (under : Under names s key raw) :
    Written .value s := by
  obtain ⟨_,object | sequence,-⟩ := under
  · exact object_written (fun _ _ verbatim => verbatim.1) object
  · exact sequence_written (fun _ _ verbatim => verbatim.1) sequence

theorem Lays.ofList_unique (first : Lays names s list) (second : Lays names s other) :
    SortedMap.ofList list = SortedMap.ofList other := by
  cases first with
  | object one =>
    cases second with
    | object two => exact one.ofList_unique two
    | array two =>
      obtain ⟨t,rfl⟩ := one.brace
      obtain ⟨u,same⟩ := two.bracket
      exact absurd (List.cons.inj same).1 (by decide)
  | array one =>
    cases second with
    | object two =>
      obtain ⟨t,rfl⟩ := two.brace
      obtain ⟨u,same⟩ := one.bracket
      exact absurd (List.cons.inj same).1 (by decide)
    | array two => rw [one.unique two]

theorem under_iff (lays : Lays names s list) (key : String) (raw : Bytes) :
    Under names s key raw ↔ SortedMap.Final list key raw := by
  constructor
  · rintro ⟨other,again,final⟩
    exact (final_congr (again.ofList_unique lays) key raw).mp final
  · intro final
    exact ⟨list,lays,final⟩

end
end NodeAudit.Json

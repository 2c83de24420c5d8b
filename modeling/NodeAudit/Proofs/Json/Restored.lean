import NodeAudit.Proofs.Json.Numbers
import NodeAudit.Proofs.Json.Readable

/-! The compact text of a value that was read is read again. What comes back need not be the value:
each of its numbers is what its own text is read as, and a floating-point number may be read as one
of its neighbours. -/
namespace NodeAudit
open Json

/-- What a number is read as from its compact text. -/
def Number.restored (x : Number) : Number :=
  match Json.parse (compactNumber x) with
  | .ok (.number y) => y
  | _ => x

namespace Json

theorem means_signed {negative : Bool} {s : Bytes} {y : Number}
    (reads : ∀ rest, Delimited rest → Read.number negative (s ++ rest) = .ok (y,rest)) :
    Means 0 ((if negative then [ascii '-'] else []) ++ s) (.number y) := by
  have alone := reads [] trivial
  rw [List.append_nil] at alone
  cases negative with
  | true => exact .negative alone
  | false => exact .positive alone

theorem means_compactNumber (x : Number) : Means 0 (compactNumber x) (.number x.restored) := by
  obtain ⟨negative,s,shape,-,y,reads⟩ := Read.recovers_number x
  have means : Means 0 (compactNumber x) (.number y) := shape ▸ means_signed reads
  have same : x.restored = y := by
    rw [Number.restored,parse_means (Nat.zero_le _) means]
  rwa [same]

theorem restored_whole (i : Int) (bounded : -9223372036854775808 ≤ i ∧ i < 18446744073709551616) :
    (Number.whole i bounded).restored = .whole i bounded := by
  obtain ⟨-,reads⟩ := Read.number_digits (Read.natAbs_fits bounded) (decide (i < 0))
  rw [Read.wholeNumber_natAbs i bounded] at reads
  have means := means_signed reads
  rw [← Read.compactNumber_whole i bounded] at means
  exact number.inj (means_unique (means_compactNumber _) means)

section
variable {α : Type} {denotes : Bytes → α → Prop}

theorem items_compact {part : Bytes} {a : α} (first : denotes part a) {parts : List Bytes}
    {list : List α} (others : List.Forall₂ denotes parts list) :
    Items denotes (separated (part :: parts)) (a :: list) := by
  induction others generalizing part a with
  | nil => simpa [separated] using Items.last Read.blanks_nil first Read.blanks_nil
  | cons second _ ih => exact .next Read.blanks_nil first Read.blanks_nil (ih second)

/-- The compact text of an array, whatever its items denote. -/
theorem sequence_compact {parts : List Bytes} {list : List α}
    (items : List.Forall₂ denotes parts list) : Sequence denotes (compactArray parts) list := by
  cases items with
  | nil => exact .empty Read.blanks_nil
  | cons first others => exact .items (items_compact first others)

end

/-- Whatever reading to a depth gave, its compact text means it with its numbers restored. -/
theorem Readable.restored {depth : Nat} {v : Json} (readable : Readable depth v) :
    Means depth (compact v) (renumber Number.restored v) := by
  induction readable with
  | null => exact means_mono (Nat.zero_le _) (show Means 0 _ _ from .null)
  | @boolean depth value =>
    cases value with
    | true => exact means_mono (Nat.zero_le _) (show Means 0 _ _ from .true)
    | false => exact means_mono (Nat.zero_le _) (show Means 0 _ _ from .false)
  | number => exact means_mono (Nat.zero_le _) (means_compactNumber _)
  | text => exact means_mono (Nat.zero_le _) (show Means 0 _ _ from .text (spells_text _))
  | @array depth items inside ih =>
    rw [compact,renumber,compactItems_eq_map,renumberItems_eq_map]
    refine .array rfl (sequence_compact ?_)
    rw [List.forall₂_map_left_iff,List.forall₂_map_right_iff,List.forall₂_same]
    exact ih
  | @object depth map inside ih =>
    rw [compact,compactMembers_eq_map,renumber_object,means_object_iff]
    refine ⟨_,object_compact ?_,(SortedMap.ofList_entries _).symm⟩
    refine List.forall₂_map_left_iff.mpr (List.forall₂_map_right_iff.mpr (List.forall₂_same.mpr ?_))
    exact fun member given => ⟨rfl,ih member given⟩

theorem parse_readable {depth : Nat} (bound : depth ≤ Read.depth) {v : Json}
    (readable : Readable depth v) : parse (compact v) = .ok (renumber Number.restored v) :=
  parse_means bound readable.restored

/-- A value whose compact text can be read at all is read as itself with its numbers restored. -/
theorem parse_compact {depth : Nat} {v w : Json} (readable : Readable depth v)
    (back : parse (compact v) = .ok w) : w = renumber Number.restored v := by
  obtain ⟨before,text,after,first,means,last,whole⟩ := (parse_iff _ _).mp back
  exact (means_place first means (Read.delimited_blanks last) Read.blanks_nil readable.restored
    (show Delimited [] from trivial) (by simpa using whole.symm)).1

end Json
end NodeAudit

import NodeAudit.Instant
import NodeAudit.Proofs.Json.Lexeme
import NodeAudit.Proofs.Text.Decimal

/-! Time stamps that were read are dates of the calendar, and those of whole seconds are read back
from the text that they are written as. -/
namespace NodeAudit.Instant
open Json.Read

/-- A day of the calendar and a time of day, where a minute may end in a leap second. -/
structure Dated (t : Instant) : Prop where
  month : 1 ≤ t.month ∧ t.month ≤ 12
  day : 1 ≤ t.day ∧ t.day ≤ daysIn t.year t.month
  hour : t.hour ≤ 23
  minute : t.minute ≤ 59
  second : t.second ≤ 60

theorem daysIn_range (year : Int) (month : Nat) : 1 ≤ daysIn year month ∧ daysIn year month ≤ 31 := by
  unfold daysIn
  repeat' split
  all_goals decide

theorem nextDay_dated {t : Instant} (dated : t.Dated) : t.nextDay.Dated := by
  obtain ⟨month,day,hour,minute,second⟩ := dated
  rw [nextDay]
  split
  next more => exact ⟨month,⟨Nat.succ_pos _,more⟩,hour,minute,second⟩
  split
  next later =>
    exact ⟨⟨Nat.succ_pos _,later⟩,⟨Nat.le_refl 1,(daysIn_range _ _).1⟩,hour,minute,second⟩
  next =>
    have first : 1 ≤ 1 ∧ 1 ≤ 12 := by decide
    exact ⟨first,⟨Nat.le_refl 1,(daysIn_range _ _).1⟩,hour,minute,second⟩

theorem previousDay_dated {t : Instant} (dated : t.Dated) : t.previousDay.Dated := by
  obtain ⟨month,day,hour,minute,second⟩ := dated
  rw [previousDay]
  split
  next more =>
    exact ⟨month,⟨Nat.le_sub_of_add_le more,Nat.le_trans (Nat.sub_le _ _) day.2⟩,hour,minute,second⟩
  split
  next later =>
    exact ⟨⟨Nat.le_sub_of_add_le later,Nat.le_trans (Nat.sub_le _ _) month.2⟩,
      ⟨(daysIn_range _ _).1,Nat.le_refl _⟩,hour,minute,second⟩
  next =>
    have last : 1 ≤ 12 ∧ 12 ≤ 12 := by decide
    have day : 1 ≤ 31 ∧ 31 ≤ daysIn (t.year - 1) 12 := by simp [daysIn]
    exact ⟨last,day,hour,minute,second⟩

/-- An offset of less than a day leads at most to a neighbouring day. -/
theorem shift_dated {t : Instant} (dated : t.Dated) {offset : Int}
    (bounded : -1440 < offset ∧ offset < 1440) : (shift t offset).Dated := by
  have hour := dated.hour
  have minute := dated.minute
  simp only [shift]
  split
  next =>
    obtain ⟨month,day,_,_,second⟩ := previousDay_dated dated
    exact ⟨month,day,by simp only; omega,by simp only; omega,second⟩
  split
  next =>
    obtain ⟨month,day,_,_,second⟩ := nextDay_dated dated
    exact ⟨month,day,by simp only; omega,by simp only; omega,second⟩
  next => exact ⟨dated.month,dated.day,by simp only; omega,by simp only; omega,dated.second⟩

theorem shift_zero {t : Instant} (dated : t.Dated) : shift t 0 = t := by
  have hour := dated.hour
  have minute := dated.minute
  have hours : (((t.hour * 60 + t.minute : Nat) - 0 : Int) / 60).toNat = t.hour := by omega
  have minutes : (((t.hour * 60 + t.minute : Nat) - 0 : Int) % 60).toNat = t.minute := by omega
  simp only [shift]
  rw [if_neg (by omega),if_neg (by omega),hours,minutes]

theorem ranged_ok {low high n : Nat} {u : Unit} (passed : ranged low high n = .ok u) :
    low ≤ n ∧ n ≤ high := by
  rw [ranged] at passed
  split at passed
  next inside => exact inside
  next => contradiction

theorem separator_ok {α : Type} {s : List Char} {next : List Char → Except Problem α} {a : α}
    (passed : (match s with
      | [] => (Except.error Problem.tooShort >>= next : Except Problem α)
      | c :: t =>
        if c = 'T' ∨ c = 't' ∨ c = ' ' then Except.ok t >>= next
        else Except.error Problem.invalid >>= next) = .ok a) : ∃ t, next t = .ok a := by
  split at passed
  next => contradiction
  next c t =>
    split at passed
    next => exact ⟨t,passed⟩
    next => contradiction

/-- A time stamp that was read is one of the calendar. -/
theorem read_dated {text : String} {t : Instant} (passed : read text = .ok t) :
    t.Dated ∧ inCalendar t.year = true := by
  obtain ⟨⟨year,_⟩,-,passed⟩ := bind_eq_ok.mp passed
  obtain ⟨_,-,passed⟩ := bind_eq_ok.mp passed
  obtain ⟨_,-,passed⟩ := bind_eq_ok.mp passed
  obtain ⟨⟨month,_⟩,-,passed⟩ := bind_eq_ok.mp passed
  obtain ⟨_,months,passed⟩ := bind_eq_ok.mp passed
  obtain ⟨_,-,passed⟩ := bind_eq_ok.mp passed
  obtain ⟨⟨day,_⟩,-,passed⟩ := bind_eq_ok.mp passed
  obtain ⟨_,days,passed⟩ := bind_eq_ok.mp passed
  obtain ⟨_,passed⟩ := separator_ok passed
  obtain ⟨⟨hour,_⟩,-,passed⟩ := bind_eq_ok.mp passed
  obtain ⟨_,hours,passed⟩ := bind_eq_ok.mp passed
  obtain ⟨_,-,passed⟩ := bind_eq_ok.mp passed
  obtain ⟨⟨minute,_⟩,-,passed⟩ := bind_eq_ok.mp passed
  obtain ⟨_,minutes,passed⟩ := bind_eq_ok.mp passed
  obtain ⟨_,-,passed⟩ := bind_eq_ok.mp passed
  obtain ⟨⟨second,_⟩,-,passed⟩ := bind_eq_ok.mp passed
  obtain ⟨_,seconds,passed⟩ := bind_eq_ok.mp passed
  obtain ⟨⟨nanosecond,_⟩,-,passed⟩ := bind_eq_ok.mp passed
  obtain ⟨⟨offset,_⟩,-,passed⟩ := bind_eq_ok.mp passed
  simp only at passed
  split at passed
  · split at passed
    next valid =>
      split at passed
      next within =>
        obtain rfl := Except.ok.inj passed
        refine ⟨shift_dated ?_ ⟨valid.2.1,valid.2.2.1⟩,within⟩
        exact ⟨ranged_ok months,⟨(ranged_ok days).1,valid.1⟩,(ranged_ok hours).2,
          (ranged_ok minutes).2,(ranged_ok seconds).2⟩
      next => contradiction
    next => contradiction
  · contradiction

/-- The digits of a number, with zeros in front. -/
def paddedDigits (width n : Nat) : List Nat :=
  List.replicate (width - (digits n).length) 0 ++ digits n

theorem padded_eq (width n : Nat) : padded width n = (paddedDigits width n).map digitChar := by
  rw [paddedDigits,List.map_append,List.map_replicate]
  simp only [padded,List.length_map]
  rfl

theorem paddedDigits_small (width n : Nat) : ∀ d ∈ paddedDigits width n, d < 10 := by
  intro d member
  rcases List.mem_append.mp member with front | back
  · rw [(List.mem_replicate.mp front).2]
    decide
  · exact digits_lt_ten n d back

theorem ofDigits_paddedDigits (width n : Nat) : ofDigits (paddedDigits width n) = n := by
  rw [paddedDigits,ofDigits_append,ofDigits_zeros,ofDigits_digits,Nat.zero_mul,Nat.zero_add]

theorem length_paddedDigits {width n : Nat} (positive : 0 < width) (fits : n < 10 ^ width) :
    (paddedDigits width n).length = width := by
  have most : (digits n).length ≤ width := by
    rcases Nat.eq_zero_or_pos n with rfl | given
    · rw [digits_small (by decide)]
      exact positive
    · have low := Nat.lt_of_le_of_lt (digits_length given).1 fits
      have fewer := (Nat.pow_lt_pow_iff_right (by decide : 1 < 10)).mp low
      omega
  rw [paddedDigits,List.length_append,List.length_replicate]
  omega

theorem digitChar_plain {d : Nat} (small : d < 10) :
    decimalDigit (digitChar d) = true ∧ white (digitChar d) = false := by
  have all : ∀ d, d < 10 → decimalDigit (digitChar d) = true ∧ white (digitChar d) = false := by
    decide
  exact all d small

theorem foldl_digitChars {ds : List Nat} (small : ∀ d ∈ ds, d < 10) (start : Nat) :
    (ds.map digitChar).foldl (fun n c => n * 10 + (c.toNat - 0x30)) start =
      ds.foldl (fun n d => n * 10 + d) start := by
  induction ds generalizing start with
  | nil => rfl
  | cons d ds ih =>
    obtain ⟨first,others⟩ := List.forall_mem_cons.mp small
    rw [List.map_cons,List.foldl_cons,List.foldl_cons,toNat_digitChar first,
      Nat.add_sub_cancel_left,ih others]

/-- A field takes up its digits and no more. -/
theorem field_digits {ds : List Nat} (given : ds ≠ []) (small : ∀ d ∈ ds, d < 10) {width : Nat}
    (fits : ds.length ≤ width) {rest : List Char}
    (ends : (rest.take (width - ds.length)).takeWhile decimalDigit = []) :
    field width (ds.map digitChar ++ rest) = .ok (ofDigits ds,rest) := by
  have taken : ((ds.map digitChar ++ rest).take width).takeWhile decimalDigit =
      ds.map digitChar := by
    rw [List.take_append,List.take_of_length_le (by rwa [List.length_map]),List.length_map,
      List.takeWhile_append_of_pos,ends,List.append_nil]
    exact List.forall_mem_map.mpr fun d member => (digitChar_plain (small d member)).1
  have some : ds.map digitChar ≠ [] := fun none => given (List.map_eq_nil_iff.mp none)
  have number : numeral (ds.map digitChar) = ofDigits ds := foldl_digitChars small 0
  simp only [field,taken,number,List.isEmpty_iff,List.append_eq_nil_iff,some,false_and,if_false,
    List.drop_left]

theorem trim_cons {c : Char} (ink : white c = false) (s : List Char) : trim (c :: s) = c :: s := by
  rw [trim,List.dropWhile_cons,ink]
  rfl

theorem trim_digits {ds : List Nat} (given : ds ≠ []) (small : ∀ d ∈ ds, d < 10)
    (rest : List Char) : trim (ds.map digitChar ++ rest) = ds.map digitChar ++ rest := by
  cases ds with
  | nil => contradiction
  | cons d ds => exact trim_cons (digitChar_plain (small d List.mem_cons_self)).2 _

/-- Two digits are read wherever they stand. -/
theorem field_padded {n : Nat} (small : n < 100) (rest : List Char) :
    field 2 (trim (padded 2 n ++ rest)) = .ok (n,rest) := by
  have length : (paddedDigits 2 n).length = 2 := length_paddedDigits (by decide) small
  have given : paddedDigits 2 n ≠ [] := List.ne_nil_of_length_pos (by omega)
  have digits := paddedDigits_small 2 n
  rw [padded_eq,trim_digits given digits,field_digits given digits (Nat.le_of_eq length),
    ofDigits_paddedDigits]
  rw [length]
  rfl

theorem dash_stops (n : Nat) (rest : List Char) :
    (('-' :: rest).take n).takeWhile decimalDigit = [] := by
  cases n <;> rfl

theorem signedYear_digits {ds : List Nat} (given : ds ≠ []) (small : ∀ d ∈ ds, d < 10)
    (s : List Char) : signedYear (ds.map digitChar ++ s) = do
      let (n,rest) ← field 4 (ds.map digitChar ++ s)
      return ((n : Int),rest) := by
  have unsigned : ∀ d, d < 10 → digitChar d ≠ '-' ∧ digitChar d ≠ '+' := by decide
  cases ds with
  | nil => contradiction
  | cons d ds =>
    obtain ⟨minus,plus⟩ := unsigned d (small d List.mem_cons_self)
    rw [List.map_cons,List.cons_append,signedYear]
    · rintro t same
      exact minus (List.cons.inj same).1
    · rintro t same
      exact plus (List.cons.inj same).1

theorem signedYear_yearDigits (year : Int) (rest : List Char) :
    signedYear (trim (yearDigits year ++ '-' :: rest)) = .ok (year,'-' :: rest) := by
  have small := paddedDigits_small 4 year.natAbs
  have given : paddedDigits 4 year.natAbs ≠ [] :=
    List.append_ne_nil_of_right_ne_nil _ (digits_ne_nil _)
  have signed : field (padded 4 year.natAbs ++ '-' :: rest).length
      (padded 4 year.natAbs ++ '-' :: rest) = .ok (year.natAbs,'-' :: rest) := by
    rw [padded_eq,field_digits given small ?_ (dash_stops _ rest),ofDigits_paddedDigits]
    rw [List.length_append,List.length_map]
    exact Nat.le_add_right _ _
  rw [yearDigits]
  split
  next below =>
    rw [List.cons_append,trim_cons (by decide),signedYear,signed]
    exact congrArg (fun y => Except.ok (y,'-' :: rest)) (by omega)
  split
  next =>
    rw [List.cons_append,trim_cons (by decide),signedYear,signed]
    exact congrArg (fun y => Except.ok (y,'-' :: rest)) (by omega)
  next =>
    have length : (paddedDigits 4 year.natAbs).length = 4 :=
      length_paddedDigits (by decide) (by omega)
    rw [padded_eq,trim_digits given small,signedYear_digits given small,
      field_digits given small (Nat.le_of_eq length) (dash_stops _ rest),ofDigits_paddedDigits]
    exact congrArg (fun y => Except.ok (y,'-' :: rest)) (by omega)

theorem sign_self {c : Char} (ink : white c = false) (s : List Char) :
    sign c (trim (c :: s)) = .ok s := by
  rw [trim_cons ink,sign,if_pos rfl]

theorem ranged_inside {low high n : Nat} (inside : low ≤ n ∧ n ≤ high) :
    ranged low high n = .ok () := if_pos inside

/-- A time stamp of whole seconds is read back from its text. -/
theorem read_text {t : Instant} (dated : t.Dated) (year : inCalendar t.year = true)
    (seconds : t.nanosecond = 0) : read t.text = .ok t := by
  obtain ⟨month,day,hour,minute,second⟩ := id dated
  have most := (daysIn_range t.year t.month).2
  have calendar : -262143 ≤ t.year ∧ t.year ≤ 262142 := by simpa [inCalendar] using year
  have bounded : bounded t.year = .ok () := if_pos (by omega)
  have valid : t.day ≤ daysIn t.year t.month ∧ (-1440 : Int) < 0 ∧ (0 : Int) < 1440 ∧
      inCalendar t.year = true := ⟨day.2,by decide,by decide,year⟩
  have same : ⟨t.year,t.month,t.day,t.hour,t.minute,t.second,0⟩ = t := by rw [← seconds]
  have dash := sign_self (show white '-' = false by decide)
  have colon := sign_self (show white ':' = false by decide)
  rw [read,text,String.toList_ofList]
  simp only [List.append_assoc,List.cons_append,List.nil_append]
  simp only [signedYear_yearDigits,bounded,dash,colon,field_padded (show t.month < 100 by omega),
    field_padded (show t.day < 100 by omega),field_padded (show t.hour < 100 by omega),
    field_padded (show t.minute < 100 by omega),field_padded (show t.second < 100 by omega),
    ranged_inside month,ranged_inside ⟨day.1,Nat.le_trans day.2 most⟩,
    ranged_inside ⟨Nat.zero_le _,hour⟩,ranged_inside ⟨Nat.zero_le _,minute⟩,
    ranged_inside ⟨Nat.zero_le _,second⟩,bind,Except.bind,true_or,if_true]
  -- The text is in universal time, so the offset shifts it by nothing.
  refine Eq.trans (if_pos valid) ?_
  show (if inCalendar (shift ⟨_,_,_,_,_,_,0⟩ 0).year = true then Except.ok _ else _) = _
  rw [same,shift_zero dated,if_pos year]

end NodeAudit.Instant

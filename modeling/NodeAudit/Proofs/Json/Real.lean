import NodeAudit.Json.Compact
import NodeAudit.Proofs.Json.Numeral
import NodeAudit.Proofs.Number.Trimmed

/-! The text of a number, in each of the layouts of a floating-point one, is read as a number
again. -/
namespace NodeAudit.Json.Read
open Binary64

theorem word_append (a b : String) : word (a ++ b) = word a ++ word b := by
  rw [word,String.toList_append,List.map_append]
  rfl

theorem word_shownDigits (ds : List Nat) : word (shownDigits ds) = digitBytes ds := by
  rw [word,shownDigits,String.toList_ofList,List.map_map]
  rfl

theorem word_zeros (n : Nat) : word (zeros n) = digitBytes (List.replicate n 0) := by
  rw [word,zeros,String.toList_ofList,List.map_replicate,digitBytes,List.map_replicate]
  rfl

theorem word_decimal (n : Nat) : word (decimal n) = digitBytes (digits n) := by
  rw [word,toList_decimal,List.map_map]
  rfl

theorem finishReal_some {d : Decimal} {y : Binary64} (found : d.stepwise? = some y)
    (negative : Bool) (rest : Bytes) :
    finishReal negative d rest = .ok (.real { y with negative },rest) := by
  rw [finishReal,found]

/-- What reads a number off its text, with whatever may follow a value. -/
def Recovers (negative : Bool) (s : Bytes) : Prop :=
  Magnitude s ∧ ∃ read, ∀ rest, Delimited rest → number negative (s ++ rest) = .ok (read,rest)

theorem recovers_point {d : Nat} {ds fs : List Nat} (small : ∀ e ∈ d :: ds ++ fs, e < 10)
    (lead : d ≠ 0 ∨ ds = []) (given : fs ≠ []) (fits : ofDigits (d :: ds ++ fs) < 2 ^ 63)
    (negative : Bool) : Recovers negative (digitBytes (d :: ds) ++ ascii '.' :: digitBytes fs) := by
  have length : 0 < fs.length := List.length_pos_iff.mpr given
  have down : -(fs.length : Int) < 0 := by omega
  have room : (2 ^ 63 : Nat) ≤ twoTo 64 := by decide
  obtain ⟨y,found⟩ := @Decimal.stepwise?_down ⟨ofDigits (d :: ds ++ fs),-fs.length⟩ fits down
  have front : ∀ e ∈ d :: ds, e < 10 := fun e member => small e (List.mem_append_left _ member)
  have back : ∀ e ∈ fs, e < 10 := fun e member => small e (List.mem_append_right _ member)
  have shape := Magnitude.parts (whole_digitBytes front lead)
    (.digits (digitBytes_ne_nil given) (digits_digitBytes back)) .absent
  rw [List.append_nil] at shape
  refine ⟨shape,.real { y with negative },fun rest delimited => ?_⟩
  rw [List.append_assoc,List.cons_append,
    number_point small lead given (Nat.lt_of_lt_of_le fits room) negative delimited]
  exact finishReal_some found negative rest

theorem recovers_scientific {x : Binary64} (nonzero : x.isZero = false) {d : Nat} {ds : List Nat}
    {last : Int} (cut : trimmed x.shortest = (d :: ds,last)) (small : ∀ e ∈ d :: ds, e < 10)
    (length : ds.length < 18) (least : -400 < last) (most : last < 309) (negative : Bool) :
    Recovers negative (digitBytes [d] ++ ((if ds = [] then [] else ascii '.' :: digitBytes ds) ++
      ascii 'e' :: ascii (if last + ds.length < 0 then '-' else '+') ::
        digitBytes (digits (last + ds.length).natAbs))) := by
  obtain ⟨y,found⟩ := shown_stepwise nonzero
  have room : (2 ^ 63 : Nat) ≤ twoTo 64 := by decide
  have fits : ofDigits (d :: ds) < twoTo 64 :=
    (ofDigits_small small (by rw [List.length_cons]; omega)).trans_le room
  have fitting : ofDigits (digits (last + ds.length).natAbs) < twoTo 31 := by
    have large : 1000 < twoTo 31 := by decide
    rw [ofDigits_digits]
    omega
  have value : shifted ⟨ofDigits (d :: ds),-ds.length⟩ (decide (last + ds.length < 0))
      (ofDigits (digits (last + ds.length).natAbs)) = shown x := by
    rw [ofDigits_digits,shown,cut,shifted]
    congr 1
    by_cases negative : last + ds.length < 0
    · simp only [negative,decide_true,if_true]
      omega
    · simp only [negative,decide_false,Bool.false_eq_true,if_false]
      omega
  obtain ⟨first,others⟩ := List.forall_mem_cons.mp small
  have fraction : Fraction (if ds = [] then [] else ascii '.' :: digitBytes ds) := by
    split
    next => exact .absent
    next given => exact .digits (digitBytes_ne_nil given) (digits_digitBytes others)
  have sign : ascii (if last + ds.length < 0 then '-' else '+') = ascii '+' ∨
      ascii (if last + ds.length < 0 then '-' else '+') = ascii '-' := by
    split
    next => exact .inr rfl
    next => exact .inl rfl
  have shape := Magnitude.parts
    (whole_digitBytes (List.forall_mem_singleton.mpr first) (.inr rfl)) fraction
    (.signed (.inl rfl) sign (digitBytes_ne_nil (digits_ne_nil (last + ds.length).natAbs))
      (digits_digitBytes (digits_lt_ten _)))
  refine ⟨shape,.real { y with negative },fun rest delimited => ?_⟩
  have read := number_scientific small fits (digits_ne_nil (last + ds.length).natAbs)
    (digits_lt_ten _) fitting negative (decide (last + ds.length < 0)) delimited
  rw [value,finishReal_some found] at read
  rw [← read]
  simp only [List.append_assoc,List.cons_append,decide_eq_true_eq]

theorem word_sign (negative : Bool) :
    word (if negative then "-" else "") = if negative then [ascii '-'] else [] := by
  cases negative <;> rfl

theorem word_fraction (d : Nat) (ds : List Nat) :
    word (if (d :: ds).length ≤ 1 then "" else "." ++ shownDigits ds) =
      if ds = [] then [] else ascii '.' :: digitBytes ds := by
  cases ds with
  | nil => rfl
  | cons e ds =>
    rw [if_neg (by simp),if_neg (List.cons_ne_nil _ _),word_append,word_shownDigits]
    rfl

theorem word_mark (p : Prop) [Decidable p] :
    word (if p then "e-" else "e+") = [ascii 'e',ascii (if p then '-' else '+')] := by
  split <;> rfl

theorem zeros_small (n : Nat) : ∀ d ∈ List.replicate n 0, d < 10 := by
  intro d member
  rw [List.eq_of_mem_replicate member]
  exact Nat.zero_lt_succ 9

/-- All digits before the point, with zeros behind them. -/
theorem recovers_padded {d : Nat} (nonzero : d ≠ 0) {ds : List Nat} (small : ∀ e ∈ d :: ds, e < 10)
    {n : Nat} (length : ds.length + n < 16) (negative : Bool) : ∃ s,
      word ((if negative then "-" else "") ++ shownDigits (d :: ds) ++ zeros n ++ ".0") =
        (if negative then [ascii '-'] else []) ++ s ∧ Recovers negative s := by
  have padded : ∀ e ∈ d :: (ds ++ List.replicate n 0) ++ [0], e < 10 := by
    rw [← List.cons_append,List.forall_mem_append,List.forall_mem_append,List.forall_mem_singleton]
    exact ⟨⟨small,zeros_small _⟩,by omega⟩
  refine ⟨_,?_,recovers_point padded (.inl nonzero) (List.cons_ne_nil _ _)
    (ofDigits_small padded ?_) negative⟩
  · rw [word_append,word_append,word_append,word_sign,word_shownDigits,word_zeros,
      ← List.cons_append,digitBytes_append]
    simp only [List.append_assoc]
    rfl
  · simp only [List.length_append,List.length_cons,List.length_replicate,List.length_nil]
    omega

/-- Digits on both sides of the point. -/
theorem recovers_split {d : Nat} (nonzero : d ≠ 0) {ds : List Nat} (small : ∀ e ∈ d :: ds, e < 10)
    (fits : ofDigits (d :: ds) < 2 ^ 63) {n : Nat} (short : n < ds.length) (negative : Bool) : ∃ s,
      word ((if negative then "-" else "") ++ shownDigits ((d :: ds).splitAt (n + 1)).1 ++ "." ++
        shownDigits ((d :: ds).splitAt (n + 1)).2) =
        (if negative then [ascii '-'] else []) ++ s ∧ Recovers negative s := by
  have split : ds.take n ++ ds.drop n = ds := List.take_append_drop _ _
  refine ⟨_,?_,@recovers_point d (ds.take n) (ds.drop n)
    (by rw [List.cons_append,split]; exact small) (.inl nonzero) (fun none => ?_)
    (by rw [List.cons_append,split]; exact fits) negative⟩
  · rw [List.splitAt_eq,word_append,word_append,word_append,word_sign,word_shownDigits,
      word_shownDigits]
    simp only [List.append_assoc]
    rfl
  · have long := List.drop_eq_nil_iff.mp none
    omega

/-- All digits after the point, with zeros in front of them. -/
theorem recovers_hidden {d : Nat} {ds : List Nat} (small : ∀ e ∈ d :: ds, e < 10)
    (fits : ofDigits (d :: ds) < 2 ^ 63) (n : Nat) (negative : Bool) : ∃ s,
      word ((if negative then "-" else "") ++ "0." ++ zeros n ++ shownDigits (d :: ds)) =
        (if negative then [ascii '-'] else []) ++ s ∧ Recovers negative s := by
  have padded : ∀ e ∈ 0 :: (List.replicate n 0 ++ d :: ds), e < 10 :=
    List.forall_mem_cons.mpr ⟨by omega,List.forall_mem_append.mpr ⟨zeros_small _,small⟩⟩
  have value : ofDigits (0 :: (List.replicate n 0 ++ d :: ds)) = ofDigits (d :: ds) := by
    rw [ofDigits_cons,ofDigits_append,ofDigits_zeros]
    omega
  refine ⟨_,?_,@recovers_point 0 [] (List.replicate n 0 ++ d :: ds)
    (by rw [List.cons_append,List.nil_append]; exact padded) (.inr rfl)
    (List.append_ne_nil_of_right_ne_nil _ (List.cons_ne_nil _ _)) (value.trans_lt fits) negative⟩
  rw [word_append,word_append,word_append,word_sign,word_shownDigits,word_zeros,
    digitBytes_append]
  simp only [List.append_assoc]
  rfl

/-- The text of a number is its sign and what reads it, in whatever layout. -/
theorem recovers_text (x : Binary64) :
    ∃ s, word x.text = (if x.negative then [ascii '-'] else []) ++ s ∧ Recovers x.negative s := by
  rw [Binary64.text]
  cases zero : x.isZero with
  | true =>
    refine ⟨digitBytes [0] ++ ascii '.' :: digitBytes [0],?_,
      recovers_point (by decide) (.inr rfl) (List.cons_ne_nil _ _) (by decide) _⟩
    rw [if_pos rfl,word_append,word_sign]
    rfl
  | false =>
    obtain ⟨d,ds,last,cut,nonzero,small,length,least,near⟩ := shown_spec zero
    have most := shown_last_lt nonzero near
    have first : last + ((d :: ds).length : Nat) - 1 = last + ds.length := by
      rw [List.length_cons]
      omega
    have fits : ofDigits (d :: ds) < 2 ^ 63 :=
      ofDigits_small small (by rw [List.length_cons]; omega)
    simp only [cut,first,Bool.false_eq_true,if_false]
    split
    next =>
      refine ⟨_,?_,recovers_scientific zero cut small length least most x.negative⟩
      have lead : List.take 1 (d :: ds) = [d] := rfl
      have others : List.drop 1 (d :: ds) = ds := rfl
      rw [lead,others,word_append,word_append,word_append,word_append,word_sign,word_shownDigits,
        word_fraction d ds,word_mark,word_decimal]
      simp only [List.append_assoc,List.cons_append,List.nil_append]
    next inside =>
      split
      next up => exact recovers_padded nonzero small (by omega) x.negative
      next down =>
        split
        next both => exact recovers_split nonzero small fits (by omega) x.negative
        next => exact recovers_hidden small fits _ x.negative

/-- Digits that 64 bits can hold are read as a whole number, or as minus zero. -/
theorem number_digits {n : Nat} (fits : n < twoTo 64) (negative : Bool) :
    Magnitude (digitBytes (digits n)) ∧ ∀ rest, Delimited rest →
      number negative (digitBytes (digits n) ++ rest) = .ok (wholeNumber negative n,rest) := by
  have lead : ∃ d ds, digits n = d :: ds ∧ (d ≠ 0 ∨ ds = []) := by
    rcases Nat.eq_zero_or_pos n with rfl | positive
    · exact ⟨0,[],digits_small (by omega),.inr rfl⟩
    · obtain ⟨d,ds,split,nonzero⟩ := digits_head positive
      exact ⟨d,ds,split,.inl nonzero⟩
  obtain ⟨d,ds,split,lead⟩ := lead
  have small : ∀ e ∈ d :: ds, e < 10 := split ▸ digits_lt_ten n
  have value : ofDigits (d :: ds) = n := split ▸ ofDigits_digits n
  have shape := Magnitude.parts (whole_digitBytes small lead) .absent .absent
  rw [List.append_nil,List.append_nil] at shape
  rw [split]
  refine ⟨shape,fun rest delimited => ?_⟩
  rw [number_whole small lead (value ▸ fits) negative (Skip.delimited_digit delimited),value]
  cases rest with
  | nil => rfl
  | cons b s =>
    obtain ⟨_,point,small,large⟩ := Skip.delimited_plain delimited
    rw [afterWhole,if_neg point,if_neg (not_or.mpr ⟨small,large⟩)]

theorem compactNumber_whole (i : Int) (bounded : -9223372036854775808 ≤ i ∧ i < 18446744073709551616) :
    compactNumber (.whole i bounded) =
      (if decide (i < 0) then [ascii '-'] else []) ++ digitBytes (digits i.natAbs) := by
  rw [compactNumber,signedDecimal]
  by_cases below : i < 0
  · rw [if_pos below,word_append,word_decimal,decide_eq_true below]
    rfl
  · rw [if_neg below,word_decimal,decide_eq_false below]
    rfl

theorem natAbs_fits {i : Int} (bounded : -9223372036854775808 ≤ i ∧ i < 18446744073709551616) :
    i.natAbs < twoTo 64 := by
  have power : twoTo 64 = 18446744073709551616 := by decide
  omega

/-- The digits of a whole number and its sign make that number. -/
theorem wholeNumber_natAbs (i : Int) (bounded : -9223372036854775808 ≤ i ∧ i < 18446744073709551616) :
    wholeNumber (decide (i < 0)) i.natAbs = .whole i bounded := by
  have signed : (if decide (i < 0) then -(i.natAbs : Int) else i.natAbs) = i := by
    split
    next below =>
      have negative := of_decide_eq_true below
      omega
    next above =>
      have positive := of_decide_eq_false (Bool.not_eq_true _ ▸ above)
      omega
  have some : ¬(decide (i < 0) = true ∧ i.natAbs = 0) := by
    rw [decide_eq_true_eq]
    omega
  rw [wholeNumber,signed,if_neg some,Number.ofInt?,dif_pos bounded]

theorem recovers_number (x : Number) : ∃ negative s,
    compactNumber x = (if negative then [ascii '-'] else []) ++ s ∧ Recovers negative s := by
  cases x with
  | real y => exact ⟨y.negative,recovers_text y⟩
  | whole i bounded =>
    obtain ⟨shape,reads⟩ := number_digits (natAbs_fits bounded) (decide (i < 0))
    exact ⟨_,_,compactNumber_whole i bounded,shape,_,reads⟩

end NodeAudit.Json.Read

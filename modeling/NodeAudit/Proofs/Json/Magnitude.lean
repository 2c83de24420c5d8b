import NodeAudit.Proofs.Json.Numeral

/-! Reading a number takes up what the grammar calls one. The number depends on those bytes alone,
whatever follows them that may follow a value. -/
namespace NodeAudit.Json.Read

/-- A reader of a part of a number that takes up text of one form, and gives the same for that text
wherever it stands. -/
def Takes (read : Bytes → Except Stop (Number × Bytes)) (form : Bytes → Prop) : Prop :=
  ∀ s x rest, read s = .ok (x,rest) → ∃ t, form t ∧ s = t ++ rest ∧
    ∀ other, Delimited other → read (t ++ other) = .ok (x,other)

theorem takes_finish (negative : Bool) (d : Decimal) : Takes (finishReal negative d) (· = []) := by
  intro s x rest read
  rw [finishReal] at read
  split at read
  next y found =>
    obtain ⟨rfl,rfl⟩ := Prod.mk.inj (Except.ok.inj read)
    exact ⟨[],rfl,rfl,fun other _ => by rw [List.nil_append,finishReal,found]⟩
  next => contradiction

theorem exponentDigits_end (negative down : Bool) (d : Decimal) (e : Nat) {rest : Bytes}
    (ends : startsWithDigit rest = false) :
    exponentDigits negative down d e rest = finishReal negative (shifted d down e) rest := by
  cases shape : rest with
  | nil => rfl
  | cons b s => rw [exponentDigits,not_digit_head ends shape]

theorem takes_exponentDigits (negative down : Bool) (d : Decimal) (e : Nat) :
    Takes (exponentDigits negative down d e) Digits := by
  have finish {e : Nat} {s rest : Bytes} {x : Number} (ends : startsWithDigit s = false)
      (read : finishReal negative (shifted d down e) s = .ok (x,rest)) :
      ∃ t, Digits t ∧ s = t ++ rest ∧ ∀ other, Delimited other →
        exponentDigits negative down d e (t ++ other) = .ok (x,other) := by
    obtain ⟨t,rfl,whole,again⟩ := takes_finish negative (shifted d down e) s x rest read
    refine ⟨[],List.forall_mem_nil _,whole,fun other delimited => ?_⟩
    rw [List.nil_append,exponentDigits_end _ _ _ _ (Skip.delimited_digit delimited)]
    exact again other delimited
  intro s
  induction s generalizing e with
  | nil =>
    intro x rest read
    exact finish rfl read
  | cons b s ih =>
    intro x rest read
    cases digit : digit? b with
    | none =>
      have ends : startsWithDigit (b :: s) = false := by rw [startsWithDigit,digit]; rfl
      rw [exponentDigits_end _ _ _ _ ends] at read
      exact finish ends read
    | some n =>
      have lead : (digit? b).isSome = true := by rw [digit]; rfl
      simp only [exponentDigits,digit] at read
      split at read
      next fits =>
        obtain ⟨t,inside,rfl,again⟩ := ih _ _ _ read
        refine ⟨b :: t,List.forall_mem_cons.mpr ⟨lead,inside⟩,rfl,fun other delimited => ?_⟩
        simp only [List.cons_append,exponentDigits,digit,if_pos fits]
        exact again other delimited
      next far =>
        split at read
        next => contradiction
        next tiny =>
          obtain ⟨rfl,rfl⟩ := Prod.mk.inj (Except.ok.inj read)
          obtain ⟨t,inside,whole,-⟩ := digits_skip s
          refine ⟨b :: t,List.forall_mem_cons.mpr ⟨lead,inside⟩,by rw [List.cons_append,← whole],
            fun other delimited => ?_⟩
          simp only [List.cons_append,exponentDigits,digit,if_neg far,if_neg tiny,
            skipDigits_append inside (Skip.delimited_digit delimited)]

theorem exponentPart_unsigned (negative : Bool) (d : Decimal) {b : UInt8} {n : Nat}
    (digit : digit? b = some n) (s : Bytes) :
    exponentPart negative d (b :: s) = exponentDigits negative false d n s := by
  have lead : (digit? b).isSome = true := by rw [digit]; rfl
  have plus : b ≠ ascii '+' := by
    rintro rfl
    exact absurd lead (by decide)
  have minus : b ≠ ascii '-' := by
    rintro rfl
    exact absurd lead (by decide)
  simp only [exponentPart,if_neg plus,if_neg minus,digit]

theorem exponentPart_signed (negative : Bool) (d : Decimal) {sign b : UInt8}
    (signs : sign = ascii '+' ∨ sign = ascii '-') {n : Nat} (digit : digit? b = some n) (s : Bytes) :
    exponentPart negative d (sign :: b :: s) =
      exponentDigits negative (sign = ascii '-') d n s := by
  rcases signs with rfl | rfl
  · simp only [exponentPart,if_true,digit]
    rfl
  · simp only [exponentPart,show ascii '-' ≠ ascii '+' by decide,if_false,if_true,digit]
    rfl

theorem takes_exponentPart (negative : Bool) (d : Decimal) :
    Takes (exponentPart negative d) fun t =>
      ∀ letter, letter = ascii 'e' ∨ letter = ascii 'E' → Exponent (letter :: t) := by
  intro s x rest read
  cases s with
  | nil => contradiction
  | cons b s =>
    by_cases signs : b = ascii '+' ∨ b = ascii '-'
    · cases s with
      | nil => rcases signs with rfl | rfl <;> contradiction
      | cons c s =>
        cases digit : digit? c with
        | none =>
          rcases signs with rfl | rfl
          · simp [exponentPart,digit,stop] at read
          · simp [exponentPart,show ascii '-' ≠ ascii '+' by decide,digit,stop] at read
        | some n =>
          rw [exponentPart_signed negative d signs digit] at read
          obtain ⟨t,inside,rfl,again⟩ := takes_exponentDigits _ _ _ _ _ _ _ read
          refine ⟨b :: c :: t,fun letter letters => .signed letters signs (List.cons_ne_nil _ _)
            (List.forall_mem_cons.mpr ⟨by rw [digit]; rfl,inside⟩),rfl,fun other delimited => ?_⟩
          rw [List.cons_append,List.cons_append,exponentPart_signed negative d signs digit]
          exact again other delimited
    · cases digit : digit? b with
      | none => simp [exponentPart,not_or.mp signs,digit,stop] at read
      | some n =>
        rw [exponentPart_unsigned negative d digit] at read
        obtain ⟨t,inside,rfl,again⟩ := takes_exponentDigits _ _ _ _ _ _ _ read
        refine ⟨b :: t,fun letter letters => .plain letters (List.cons_ne_nil _ _)
          (List.forall_mem_cons.mpr ⟨by rw [digit]; rfl,inside⟩),rfl,fun other delimited => ?_⟩
        rw [List.cons_append,exponentPart_unsigned negative d digit]
        exact again other delimited

theorem takes_afterDigits (negative : Bool) (d : Decimal) :
    Takes (afterDigits negative d) Exponent := by
  have finish {s rest : Bytes} {x : Number} (read : finishReal negative d s = .ok (x,rest)) :
      ∃ t, Exponent t ∧ s = t ++ rest ∧ ∀ other, Delimited other →
        afterDigits negative d (t ++ other) = .ok (x,other) := by
    obtain ⟨t,rfl,whole,again⟩ := takes_finish negative d s x rest read
    refine ⟨[],.absent,whole,fun other delimited => ?_⟩
    rw [List.nil_append,afterDigits_delimited _ _ delimited]
    exact again other delimited
  intro s x rest read
  cases s with
  | nil => exact finish read
  | cons b s =>
    rw [afterDigits] at read
    split at read
    next letters =>
      obtain ⟨t,form,rfl,again⟩ := takes_exponentPart _ _ _ _ _ read
      refine ⟨b :: t,form b letters,rfl,fun other delimited => ?_⟩
      rw [List.cons_append,afterDigits,if_pos letters]
      exact again other delimited
    next => exact finish read

/-- What digits make of a significand, and which of them no longer fit, is for the digits to say. -/
theorem gather_run {ds : Bytes} (inside : Digits ds) (significand taken : Nat) :
    ∃ n m left, Digits left ∧ m + left.length = taken + ds.length ∧
      ∀ rest, startsWithDigit rest = false →
        gather significand taken (ds ++ rest) = (n,m,left ++ rest) := by
  induction ds generalizing significand taken with
  | nil =>
    refine ⟨significand,taken,[],List.forall_mem_nil _,rfl,fun rest ends => ?_⟩
    cases shape : rest with
    | nil => rfl
    | cons b s =>
      rw [List.nil_append,gather,not_digit_head ends shape]
  | cons b ds ih =>
    obtain ⟨lead,others⟩ := List.forall_mem_cons.mp inside
    obtain ⟨d,digit⟩ := Option.isSome_iff_exists.mp lead
    by_cases fits : significand * 10 + d < twoTo 64
    · obtain ⟨n,m,left,rear,count,run⟩ := ih others (significand * 10 + d) (taken + 1)
      refine ⟨n,m,left,rear,by rw [count,List.length_cons]; omega,fun rest ends => ?_⟩
      simp only [List.cons_append,gather,digit,if_pos fits]
      exact run rest ends
    · refine ⟨significand,taken,b :: ds,inside,rfl,fun rest _ => ?_⟩
      simp only [List.cons_append,gather,digit,if_neg fits]

/-- Digits after a point make a decimal, from which reading goes on behind them. -/
theorem fraction_run {ds : Bytes} (given : ds ≠ []) (inside : Digits ds) (negative : Bool)
    (d : Decimal) : ∃ m : Decimal, ∀ rest, startsWithDigit rest = false →
      fraction negative d (ds ++ rest) = afterDigits negative m rest := by
  obtain ⟨n,taken,left,rear,count,run⟩ := gather_run inside d.significand 0
  refine ⟨⟨n,d.exponent - taken⟩,fun rest ends => ?_⟩
  simp only [fraction,run rest ends]
  by_cases more : left = []
  · have some : taken ≠ 0 := by
      have length := List.length_pos_iff.mpr given
      rw [more,List.length_nil] at count
      omega
    rw [more,List.nil_append]
    simp only [ends,Bool.false_eq_true,if_false,if_neg some]
  · rw [if_pos (startsWithDigit_append more rear rest),skipDigits_append rear ends]

theorem takes_fraction (negative : Bool) (d : Decimal) :
    Takes (fraction negative d) fun t => ∃ ds tail, t = ds ++ tail ∧ Fraction (ascii '.' :: ds) ∧
      Exponent tail := by
  intro s x rest read
  obtain ⟨ds,inside,whole,ends⟩ := digits_skip s
  generalize skipDigits s = after at whole ends
  subst whole
  by_cases given : ds = []
  · subst given
    rw [List.nil_append] at read
    have nothing : gather d.significand 0 after = (d.significand,0,after) := by
      cases shape : after with
      | nil => rfl
      | cons b s => rw [gather,not_digit_head ends shape]
    simp only [fraction,nothing,ends,Bool.false_eq_true,if_false,if_true] at read
    split at read <;> contradiction
  · obtain ⟨m,run⟩ := fraction_run given inside negative d
    rw [run after ends] at read
    obtain ⟨tail,exponent,rfl,again⟩ := takes_afterDigits _ _ _ _ _ read
    refine ⟨ds ++ tail,⟨ds,tail,rfl,.digits given inside,exponent⟩,(List.append_assoc _ _ _).symm,
      fun other delimited => ?_⟩
    rw [List.append_assoc,run _ (Skip.exponent_ends exponent delimited)]
    exact again other delimited

/-- What may follow the digits before a point. -/
def Tail (t : Bytes) : Prop := ∃ first second, t = first ++ second ∧ Fraction first ∧ Exponent second

theorem tail_point {negative : Bool} {d : Decimal} {s rest : Bytes} {x : Number}
    (read : fraction negative d s = .ok (x,rest)) : ∃ t, Tail (ascii '.' :: t) ∧ s = t ++ rest ∧
      ∀ other, Delimited other → fraction negative d (t ++ other) = .ok (x,other) := by
  obtain ⟨_,⟨ds,tail,rfl,fraction,exponent⟩,whole,again⟩ := takes_fraction _ _ _ _ _ read
  exact ⟨_,⟨_,tail,rfl,fraction,exponent⟩,whole,again⟩

theorem takes_afterWhole (negative : Bool) (n : Nat) : Takes (afterWhole negative n) Tail := by
  have bare : Tail [] := ⟨[],[],rfl,.absent,.absent⟩
  have same {other : Bytes} (delimited : Delimited other) :
      afterWhole negative n other = .ok (wholeNumber negative n,other) := by
    cases other with
    | nil => rfl
    | cons b s =>
      obtain ⟨_,point,small,large⟩ := Skip.delimited_plain delimited
      rw [afterWhole,if_neg point,if_neg (not_or.mpr ⟨small,large⟩)]
  intro s x rest read
  cases s with
  | nil =>
    obtain ⟨rfl,rfl⟩ := Prod.mk.inj (Except.ok.inj read)
    exact ⟨[],bare,rfl,fun other => same⟩
  | cons b s =>
    rw [afterWhole] at read
    split at read
    next point =>
      obtain ⟨t,tail,rfl,again⟩ := tail_point read
      refine ⟨b :: t,point ▸ tail,rfl,fun other delimited => ?_⟩
      rw [List.cons_append,afterWhole,if_pos point]
      exact again other delimited
    next point =>
      split at read
      next letters =>
        obtain ⟨t,form,rfl,again⟩ := takes_exponentPart _ _ _ _ _ read
        refine ⟨b :: t,⟨[],_,rfl,.absent,form b letters⟩,rfl,fun other delimited => ?_⟩
        rw [List.cons_append,afterWhole,if_neg point,if_pos letters]
        exact again other delimited
      next =>
        obtain ⟨rfl,rfl⟩ := Prod.mk.inj (Except.ok.inj read)
        exact ⟨[],bare,rfl,fun other => same⟩

theorem takes_afterLong (negative : Bool) (d : Decimal) : Takes (afterLong negative d) Tail := by
  have plain {s : Bytes} (point : ∀ b t, s = b :: t → b ≠ ascii '.') :
      afterLong negative d s = afterDigits negative d s := by
    cases s with
    | nil => rfl
    | cons b t => rw [afterLong,if_neg (point b t rfl)]
  intro s x rest read
  by_cases point : ∃ t, s = ascii '.' :: t
  · obtain ⟨s,rfl⟩ := point
    rw [afterLong,if_pos rfl] at read
    obtain ⟨t,tail,rfl,again⟩ := tail_point read
    refine ⟨_,tail,rfl,fun other delimited => ?_⟩
    rw [List.cons_append,afterLong,if_pos rfl]
    exact again other delimited
  · rw [plain fun b t shape same => point ⟨t,same ▸ shape⟩] at read
    obtain ⟨t,exponent,rfl,again⟩ := takes_afterDigits _ _ _ _ _ read
    refine ⟨t,⟨[],t,rfl,.absent,exponent⟩,rfl,fun other delimited => ?_⟩
    rw [plain fun b u shape => Skip.exponent_point exponent delimited shape]
    exact again other delimited

/-- Behind its first digit, a number goes on as the digits say. -/
theorem number_run {b : UInt8} {n : Nat} (digit : digit? b = some (n + 1)) {ds : Bytes}
    (inside : Digits ds) (negative : Bool) : ∃ after, Takes after Tail ∧
      ∀ rest, startsWithDigit rest = false → number negative (b :: (ds ++ rest)) = after rest := by
  obtain ⟨significand,taken,left,rear,-,run⟩ := gather_run inside (n + 1) 0
  by_cases more : left = []
  · refine ⟨_,takes_afterWhole negative significand,fun rest ends => ?_⟩
    simp only [number,digit,run rest ends,more,List.nil_append,ends,Bool.false_eq_true,if_false]
  · refine ⟨_,takes_afterLong negative ⟨significand,(left.length : Nat)⟩,fun rest ends => ?_⟩
    simp only [number,digit,run rest ends,startsWithDigit_append more rear rest,if_true,
      skipDigits_append rear ends,List.length_append,Nat.add_sub_cancel]

theorem tail_ends {t other : Bytes} (tail : Tail t) (delimited : Delimited other) :
    startsWithDigit (t ++ other) = false := by
  obtain ⟨first,second,rfl,fraction,exponent⟩ := tail
  rw [List.append_assoc]
  exact Skip.fraction_ends fraction exponent delimited

/-- Reading a number takes up one by the grammar. -/
theorem takes_number (negative : Bool) : Takes (number negative) Magnitude := by
  have whole {b : UInt8} {ds t : Bytes} (form : Whole (b :: ds)) (tail : Tail t) :
      Magnitude (b :: (ds ++ t)) := by
    obtain ⟨first,second,rfl,fraction,exponent⟩ := tail
    exact .parts form fraction exponent
  intro s x rest read
  cases s with
  | nil => contradiction
  | cons b s =>
    cases digit : digit? b with
    | none =>
      simp only [number,digit] at read
      contradiction
    | some n =>
      cases n with
      | zero =>
        simp only [number,digit] at read
        split at read
        next => contradiction
        next =>
          obtain ⟨t,tail,rfl,again⟩ := takes_afterWhole _ _ _ _ _ read
          obtain rfl := Skip.digit?_eq_zero digit
          refine ⟨_,whole .zero tail,rfl,fun other delimited => ?_⟩
          simp only [List.cons_append,List.nil_append,number,digit,tail_ends tail delimited,
            Bool.false_eq_true,if_false]
          exact again other delimited
      | succ n =>
        obtain ⟨ds,inside,split,ends⟩ := digits_skip s
        generalize skipDigits s = after at split ends
        subst split
        obtain ⟨next,takes,run⟩ := number_run digit inside negative
        rw [run after ends] at read
        obtain ⟨t,tail,rfl,again⟩ := takes _ _ _ read
        have nonzero : b ≠ ascii '0' := by
          rintro rfl
          cases digit
        refine ⟨_,whole (.digits (by rw [digit]; rfl) nonzero inside) tail,
          by rw [List.cons_append,List.append_assoc],fun other delimited => ?_⟩
        rw [List.cons_append,List.append_assoc,run _ (tail_ends tail delimited)]
        exact again other delimited

end NodeAudit.Json.Read

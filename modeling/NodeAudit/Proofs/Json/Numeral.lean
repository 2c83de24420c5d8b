import NodeAudit.Proofs.Json.Skip
import NodeAudit.Proofs.Text.Decimal

/-! Reading numbers that are given by their digits. Digits that fit the significand are all kept,
so nothing of such a number is lost before it is scaled. -/
namespace NodeAudit.Json.Read

def digitBytes (ds : List Nat) : Bytes := ds.map fun d => ascii (digitChar d)

theorem digitBytes_append (front back : List Nat) :
    digitBytes (front ++ back) = digitBytes front ++ digitBytes back := List.map_append

theorem digit?_digitChar {d : Nat} (small : d < 10) : digit? (ascii (digitChar d)) = some d := by
  have all : ∀ d, d < 10 → digit? (ascii (digitChar d)) = some d := by decide
  exact all d small

theorem digits_digitBytes {ds : List Nat} (small : ∀ d ∈ ds, d < 10) : Digits (digitBytes ds) := by
  intro b member
  obtain ⟨d,inside,rfl⟩ := List.mem_map.mp member
  rw [digit?_digitChar (small d inside)]
  rfl

theorem digitBytes_ne_nil {ds : List Nat} (given : ds ≠ []) : digitBytes ds ≠ [] :=
  fun none => given (List.map_eq_nil_iff.mp none)

theorem whole_digitBytes {d : Nat} {ds : List Nat} (small : ∀ e ∈ d :: ds, e < 10)
    (lead : d ≠ 0 ∨ ds = []) : Whole (digitBytes (d :: ds)) := by
  obtain ⟨first,others⟩ := List.forall_mem_cons.mp small
  cases d with
  | zero =>
    obtain rfl : ds = [] := lead.resolve_left (fun nonzero => nonzero rfl)
    exact .zero
  | succ d =>
    have nonzero : ∀ d, d < 9 → ascii (digitChar (d + 1)) ≠ ascii '0' := by decide
    exact .digits (Option.isSome_of_mem (digit?_digitChar first)) (nonzero d (by omega))
      (digits_digitBytes others)

theorem not_digit_head {rest : Bytes} (ends : startsWithDigit rest = false) {b : UInt8} {s : Bytes}
    (shape : rest = b :: s) : digit? b = none := by
  rw [shape] at ends
  simpa [startsWithDigit] using ends

theorem ofDigits_step (n d : Nat) (ds : List Nat) :
    (n * 10 + d) * 10 ^ ds.length + ofDigits ds =
      n * 10 ^ (d :: ds).length + ofDigits (d :: ds) := by
  rw [ofDigits_cons,List.length_cons,Nat.pow_succ,Nat.add_mul,Nat.mul_assoc,Nat.mul_comm 10,
    Nat.add_assoc]

theorem gather_digits {ds : List Nat} (small : ∀ d ∈ ds, d < 10) {rest : Bytes}
    (ends : startsWithDigit rest = false) {significand : Nat} (taken : Nat)
    (fits : significand * 10 ^ ds.length + ofDigits ds < twoTo 64) :
    gather significand taken (digitBytes ds ++ rest) =
      (significand * 10 ^ ds.length + ofDigits ds,taken + ds.length,rest) := by
  induction ds generalizing significand taken with
  | nil =>
    have nothing : ofDigits [] = 0 := rfl
    rw [digitBytes,List.map_nil,List.nil_append,List.length_nil,Nat.pow_zero,nothing,Nat.mul_one,
      Nat.add_zero,Nat.add_zero]
    cases shape : rest with
    | nil => rfl
    | cons b s => rw [gather,not_digit_head ends shape]
  | cons d ds ih =>
    obtain ⟨first,others⟩ := List.forall_mem_cons.mp small
    have step := ofDigits_step significand d ds
    have small : significand * 10 + d < twoTo 64 := by
      rw [← step] at fits
      have grows : (significand * 10 + d) * 1 ≤ (significand * 10 + d) * 10 ^ ds.length :=
        Nat.mul_le_mul_left _ (Nat.pow_pos (by omega))
      omega
    show gather significand taken (ascii (digitChar d) :: (digitBytes ds ++ rest)) = _
    rw [gather,digit?_digitChar first]
    simp only [if_pos small]
    rw [ih others (taken + 1) (by rw [step]; exact fits),step,List.length_cons]
    congr 2
    omega

/-- Digits before a point or an exponent: zero alone, or any that do not begin with it. -/
theorem number_whole {d : Nat} {ds : List Nat} (small : ∀ e ∈ d :: ds, e < 10)
    (lead : d ≠ 0 ∨ ds = []) (fits : ofDigits (d :: ds) < twoTo 64) (negative : Bool)
    {rest : Bytes} (ends : startsWithDigit rest = false) :
    number negative (digitBytes (d :: ds) ++ rest) =
      afterWhole negative (ofDigits (d :: ds)) rest := by
  obtain ⟨first,others⟩ := List.forall_mem_cons.mp small
  show number negative (ascii (digitChar d) :: (digitBytes ds ++ rest)) = _
  rw [number,digit?_digitChar first]
  cases d with
  | zero =>
    obtain rfl : ds = [] := lead.resolve_left (fun nonzero => nonzero rfl)
    show (if startsWithDigit rest then _ else _) = _
    rw [ends]
    rfl
  | succ d =>
    rw [ofDigits_cons] at fits ⊢
    have taken := gather_digits others ends 0 fits
    simp only [taken,ends]
    rfl

theorem fraction_digits {ds : List Nat} (given : ds ≠ []) (small : ∀ d ∈ ds, d < 10)
    {significand : Nat} (fits : significand * 10 ^ ds.length + ofDigits ds < twoTo 64)
    (negative : Bool) {rest : Bytes} (ends : startsWithDigit rest = false) :
    fraction negative ⟨significand,0⟩ (digitBytes ds ++ rest) =
      afterDigits negative ⟨significand * 10 ^ ds.length + ofDigits ds,-ds.length⟩ rest := by
  have taken := gather_digits small ends 0 fits
  have some : ds.length ≠ 0 := fun none => given (List.length_eq_zero_iff.mp none)
  rw [fraction]
  simp only [taken,ends,Nat.zero_add,if_neg some,Int.zero_sub]
  rfl

theorem exponentDigits_digits {ds : List Nat} (small : ∀ d ∈ ds, d < 10) {e : Nat}
    (fits : e * 10 ^ ds.length + ofDigits ds < twoTo 31) (negative down : Bool) (d : Decimal)
    {rest : Bytes} (ends : startsWithDigit rest = false) :
    exponentDigits negative down d e (digitBytes ds ++ rest) =
      finishReal negative (shifted d down (e * 10 ^ ds.length + ofDigits ds)) rest := by
  induction ds generalizing e with
  | nil =>
    have nothing : ofDigits [] = 0 := rfl
    rw [digitBytes,List.map_nil,List.nil_append,List.length_nil,Nat.pow_zero,nothing,Nat.mul_one,
      Nat.add_zero]
    cases shape : rest with
    | nil => rfl
    | cons b s => rw [exponentDigits,not_digit_head ends shape]
  | cons digit ds ih =>
    obtain ⟨first,others⟩ := List.forall_mem_cons.mp small
    have step := ofDigits_step e digit ds
    have small : e * 10 + digit < twoTo 31 := by
      rw [← step] at fits
      have grows : (e * 10 + digit) * 1 ≤ (e * 10 + digit) * 10 ^ ds.length :=
        Nat.mul_le_mul_left _ (Nat.pow_pos (by omega))
      omega
    show exponentDigits negative down d e (ascii (digitChar digit) :: (digitBytes ds ++ rest)) = _
    rw [exponentDigits,digit?_digitChar first]
    simp only [if_pos small]
    rw [ih others (by rw [step]; exact fits),step]

theorem exponentPart_digits {ds : List Nat} (given : ds ≠ []) (small : ∀ d ∈ ds, d < 10)
    (fits : ofDigits ds < twoTo 31) (negative down : Bool) (d : Decimal) {rest : Bytes}
    (ends : startsWithDigit rest = false) :
    exponentPart negative d (ascii (if down then '-' else '+') :: (digitBytes ds ++ rest)) =
      finishReal negative (shifted d down (ofDigits ds)) rest := by
  cases ds with
  | nil => contradiction
  | cons digit ds =>
    obtain ⟨first,others⟩ := List.forall_mem_cons.mp small
    have run := exponentDigits_digits others (by rw [← ofDigits_cons]; exact fits) negative down d
      ends
    rw [← ofDigits_cons] at run
    have split : digitBytes (digit :: ds) ++ rest =
        ascii (digitChar digit) :: (digitBytes ds ++ rest) := rfl
    rw [← run,exponentPart,split]
    cases down with
    | true =>
      simp only [if_true,show ascii '-' ≠ ascii '+' by decide,if_false,digit?_digitChar first]
    | false =>
      simp only [Bool.false_eq_true,if_false,if_true,digit?_digitChar first]

theorem afterDigits_delimited (negative : Bool) (d : Decimal) {rest : Bytes}
    (delimited : Delimited rest) : afterDigits negative d rest = finishReal negative d rest := by
  cases rest with
  | nil => rfl
  | cons b s =>
    obtain ⟨_,_,small,large⟩ := Skip.delimited_plain delimited
    rw [afterDigits,if_neg (not_or.mpr ⟨small,large⟩)]

/-- A number with a point but without an exponent. -/
theorem number_point {d : Nat} {ds fs : List Nat} (small : ∀ e ∈ d :: ds ++ fs, e < 10)
    (lead : d ≠ 0 ∨ ds = []) (given : fs ≠ []) (fits : ofDigits (d :: ds ++ fs) < twoTo 64)
    (negative : Bool) {rest : Bytes} (delimited : Delimited rest) :
    number negative (digitBytes (d :: ds) ++ ascii '.' :: (digitBytes fs ++ rest)) =
      finishReal negative ⟨ofDigits (d :: ds ++ fs),-fs.length⟩ rest := by
  rw [ofDigits_append] at fits ⊢
  have whole : ofDigits (d :: ds) < twoTo 64 := by
    have grows : ofDigits (d :: ds) * 1 ≤ ofDigits (d :: ds) * 10 ^ fs.length :=
      Nat.mul_le_mul_left _ (Nat.pow_pos (by omega))
    omega
  have front := @number_whole d ds (fun e member => small e (List.mem_append_left _ member)) lead
    whole negative (ascii '.' :: (digitBytes fs ++ rest)) rfl
  rw [front,afterWhole,if_pos rfl,
    fraction_digits given (fun e member => small e (List.mem_append_right _ member)) fits negative
      (Skip.delimited_digit delimited)]
  exact afterDigits_delimited _ _ delimited

/-- A number of one digit and perhaps a fraction, with an exponent. -/
theorem number_scientific {d : Nat} {fs : List Nat} (small : ∀ e ∈ d :: fs, e < 10)
    (fits : ofDigits (d :: fs) < twoTo 64) {xs : List Nat} (given : xs ≠ [])
    (scale : ∀ e ∈ xs, e < 10) (fitting : ofDigits xs < twoTo 31) (negative down : Bool)
    {rest : Bytes} (delimited : Delimited rest) :
    number negative (digitBytes [d] ++ ((if fs = [] then [] else ascii '.' :: digitBytes fs) ++
        ascii 'e' :: ascii (if down then '-' else '+') :: (digitBytes xs ++ rest))) =
      finishReal negative (shifted ⟨ofDigits (d :: fs),-fs.length⟩ down (ofDigits xs)) rest := by
  obtain ⟨first,others⟩ := List.forall_mem_cons.mp small
  have part (m : Decimal) := exponentPart_digits given scale fitting negative down m
    (Skip.delimited_digit delimited)
  generalize ascii (if down then '-' else '+') :: (digitBytes xs ++ rest) = tail at part ⊢
  have single : ∀ e ∈ [d], e < 10 := by
    rw [List.forall_mem_singleton]
    exact first
  have whole : ofDigits [d] < twoTo 64 := by
    have bound := ofDigits_lt single
    have room : 10 ^ 1 < twoTo 64 := by decide
    rw [List.length_singleton] at bound
    exact Nat.lt_trans bound room
  cases fs with
  | nil =>
    have front := @number_whole d [] single (.inr rfl) whole negative (ascii 'e' :: tail) rfl
    rw [if_pos rfl,List.nil_append,front,afterWhole,if_neg (by decide),if_pos (.inl rfl),part]
    rfl
  | cons f fs =>
    have front := @number_whole d [] single (.inr rfl) whole negative
      (ascii '.' :: (digitBytes (f :: fs) ++ ascii 'e' :: tail)) rfl
    have sum : ofDigits (d :: f :: fs) = ofDigits [d] * 10 ^ (f :: fs).length + ofDigits (f :: fs) :=
      ofDigits_append [d] (f :: fs)
    have point := @fraction_digits (f :: fs) (List.cons_ne_nil _ _) others (ofDigits [d])
      (by rw [← sum]; exact fits) negative (ascii 'e' :: tail) rfl
    rw [if_neg (List.cons_ne_nil _ _),List.cons_append,front,afterWhole,if_pos rfl,point,afterDigits,
      if_pos (.inl rfl),part,sum]

end NodeAudit.Json.Read

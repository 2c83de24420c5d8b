import NodeAudit.Proofs.Text.Decimal
import NodeAudit.Yaml.Core

/-! The words of booleans and of whole numbers stand for what they spell. -/
namespace NodeAudit.Yaml

/-- The values that JSON and YAML write alike. -/
inductive Common : Json → Prop where
  | boolean (b : Bool) : Common (.boolean b)
  | whole (i : Int) (bounded : -9223372036854775808 ≤ i ∧ i < 18446744073709551616) :
      Common (.number (.whole i bounded))

/-- The word of such a value. -/
def wordOf : Json → String
  | .boolean true => "true"
  | .boolean false => "false"
  | .number (.whole i _) => signedDecimal i
  | _ => ""

namespace Numeral

theorem push?_digitChar (n : Nat) {d : Nat} (small : d < 10) :
    push? 10 n (digitChar d) = some (n * 10 + d) := by
  have each : ∀ d, d < 10 → hexOf? (digitChar d) = some d := by decide
  rw [push?,each d small]
  show (if d < 10 then _ else _) = _
  rw [if_pos small,Nat.mul_comm]
  rfl

theorem foldlM_digits {ds : List Nat} (small : ∀ d ∈ ds, d < 10) (n : Nat) :
    (ds.map digitChar).foldlM (push? 10) n = some (ds.foldl (fun n d => n * 10 + d) n) := by
  induction ds generalizing n with
  | nil => rfl
  | cons d ds ih =>
    obtain ⟨first,others⟩ := List.forall_mem_cons.mp small
    rw [List.map_cons,List.foldlM_cons,push?_digitChar n first]
    exact ih others _

theorem digits?_digits (n : Nat) : digits? 10 ((digits n).map digitChar) = some n := by
  have given : ((digits n).map digitChar).isEmpty = false := by
    rw [List.isEmpty_eq_false_iff]
    exact fun none => digits_ne_nil n (List.map_eq_nil_iff.mp none)
  rw [digits?,given]
  refine (foldlM_digits (digits_lt_ten n) 0).trans ?_
  exact congrArg some (ofDigits_digits n)

/-- The first digit of a number, which is not zero unless it is the only one. -/
theorem digits_chars (n : Nat) : ∃ d ds, (digits n).map digitChar = digitChar d :: ds ∧ d < 10 ∧
    (d = 0 → ds = []) := by
  rcases Nat.eq_zero_or_pos n with rfl | positive
  · exact ⟨0,[],rfl,by omega,fun _ => rfl⟩
  · obtain ⟨d,ds,shape,nonzero⟩ := digits_head positive
    refine ⟨d,ds.map digitChar,by rw [shape,List.map_cons],?_,fun zero => absurd zero nonzero⟩
    exact digits_lt_ten n d (by rw [shape]; exact List.mem_cons_self)

/-- A digit is no other character, and zero only if it is zero's. -/
theorem digitChar_ne {d : Nat} (small : d < 10) :
    digitChar d ≠ '+' ∧ digitChar d ≠ '-' ∧ (digitChar d = '0' → d = 0) := by
  have each : ∀ d, d < 10 →
    digitChar d ≠ '+' ∧ digitChar d ≠ '-' ∧ (digitChar d = '0' → d = 0) := by decide
  exact each d small

theorem unsigned?_digits (n : Nat) : unsigned? ((digits n).map digitChar) = some n := by
  obtain ⟨d,ds,shape,small,alone⟩ := digits_chars n
  have value := digits?_digits n
  rw [shape] at value ⊢
  by_cases zero : d = 0
  · rw [alone zero,zero] at value ⊢
    exact value
  · have head : digitChar d ≠ '0' := fun same => zero ((digitChar_ne small).2.2 same)
    have unpadded : paddedWithZero (digitChar d :: ds) = false := by
      unfold paddedWithZero
      split
      next same => exact absurd (List.cons.inj same).1 head
      next => rfl
    unfold unsigned?
    split
    next same => exact absurd (List.cons.inj same).1 head
    next same => exact absurd (List.cons.inj same).1 head
    next same => exact absurd (List.cons.inj same).1 head
    next => rw [unpadded,value]; rfl

theorem toList_signedDecimal (i : Int) : (signedDecimal i).toList =
    if i < 0 then '-' :: (digits i.natAbs).map digitChar else (digits i.natAbs).map digitChar := by
  rw [signedDecimal]
  split
  next =>
    rw [String.toList_append,toList_decimal]
    rfl
  next => exact toList_decimal _

theorem whole?_signedDecimal (i : Int) : whole? (signedDecimal i).toList = some i := by
  have magnitude := unsigned?_digits i.natAbs
  rw [toList_signedDecimal]
  split
  next negative =>
    have sign : -(i.natAbs : Int) = i := by omega
    rw [whole?,magnitude]
    exact congrArg some sign
  next positive =>
    obtain ⟨d,ds,shape,small,-⟩ := digits_chars i.natAbs
    obtain ⟨plus,minus,-⟩ := digitChar_ne small
    rw [shape] at magnitude ⊢
    unfold whole?
    split
    next same => exact absurd (List.cons.inj same).1 plus
    next same => exact absurd (List.cons.inj same).1 minus
    next =>
      have same : (i.natAbs : Int) = i := by omega
      rw [magnitude]
      exact congrArg some same

theorem ofPlain?_signedDecimal {i : Int}
    (bounded : -9223372036854775808 ≤ i ∧ i < 18446744073709551616) :
    ofPlain? (signedDecimal i) = some (.whole i) := by
  have held : Numeral.bounded i = true := by
    have low : (twoTo 127 : Int) = 170141183460469231731687303715884105728 := rfl
    have high : (twoTo 128 : Int) = 340282366920938463463374607431768211456 := rfl
    rw [Numeral.bounded,low,high]
    simp only [Bool.and_eq_true,decide_eq_true_eq]
    omega
  rw [ofPlain?,integer?,whole?_signedDecimal,Option.filter_some,held]
  rfl

end Numeral

/-- A whole number is written as a word that starts with a digit or a minus sign. -/
theorem signedDecimal_head (i : Int) : ∃ c rest, (signedDecimal i).toList = c :: rest ∧
    (c.isDigit || c == '-') = true := by
  rw [Numeral.toList_signedDecimal]
  split
  next => exact ⟨'-',_,rfl,rfl⟩
  next =>
    obtain ⟨d,ds,shape,small,-⟩ := Numeral.digits_chars i.natAbs
    have each : ∀ d, d < 10 → ((digitChar d).isDigit || digitChar d == '-') = true := by decide
    exact ⟨digitChar d,ds,shape,each d small⟩

theorem signedDecimal_ne (i : Int) {word : String}
    (other : word.toList.head?.all (fun c => !(c.isDigit || c == '-')) = true) :
    signedDecimal i ≠ word := by
  rintro rfl
  obtain ⟨c,rest,shape,head⟩ := signedDecimal_head i
  rw [shape,List.head?_cons,Option.all_some,head] at other
  contradiction

theorem plain_wordOf {v : Json} (common : Common v) : Core.plain (wordOf v) = some v := by
  cases common with
  | boolean b => cases b <;> rfl
  | whole i bounded =>
    have empty : (signedDecimal i).isEmpty = false :=
      Bool.eq_false_iff.mpr fun none => signedDecimal_ne i rfl (String.isEmpty_iff.mp none)
    have null : Core.isNull (signedDecimal i) = false := by
      simp (disch := decide) only [Core.isNull,beq_eq_false_iff_ne.mpr (signedDecimal_ne i _),
        Bool.or_self]
    have boolean : Core.boolean? (signedDecimal i) = none := by
      simp (disch := decide) only [Core.boolean?,signedDecimal_ne,or_self,if_false]
    rw [wordOf,Core.plain,empty,null,boolean,Numeral.ofPlain?_signedDecimal bounded]
    show (Numeral.whole i).value? = _
    rw [Numeral.value?,Number.ofInt?,dif_pos bounded]
    rfl

end NodeAudit.Yaml

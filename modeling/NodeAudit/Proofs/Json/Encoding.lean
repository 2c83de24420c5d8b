import NodeAudit.Proofs.Json.Lexeme

/-! Cutting JSON text into lexemes never cuts a character, so a text is well-formed UTF-8 as soon
as its parts are. -/
namespace NodeAudit.Json
open Utf8

theorem valid_ascii {b : UInt8} (small : b < 0x80) : Valid [b] :=
  ⟨[Char.ofNat b.toNat],by rw [encode,List.flatMap_singleton,encodeChar_ascii b small]⟩

theorem valid_cons_iff {b : UInt8} (small : b < 0x80) (s : Bytes) : Valid (b :: s) ↔ Valid s :=
  valid_append_iff (valid_ascii small) s

theorem starts_of_small {b : UInt8} (small : b < 0x80) : continues b = false := by
  rw [← Bool.not_eq_true,continues_iff]
  rw [UInt8.lt_iff_toNat_lt] at small
  simp only [UInt8.reduceToNat] at small
  omega

/-- A text may be cut before an ASCII byte and after it. -/
theorem valid_around_iff {b : UInt8} (small : b < 0x80) (s t : Bytes) :
    Valid (s ++ b :: t) ↔ Valid s ∧ Valid t := by
  rw [valid_cut_iff (starts_of_small small),valid_cons_iff small]

theorem valid_around_char_iff (c : Char) (s t : Bytes) :
    Valid (s ++ (String.utf8EncodeChar c ++ t)) ↔ Valid s ∧ Valid t := by
  obtain ⟨lead,rest,shape,start,-⟩ := encodeChar_shape c
  rw [← valid_append_iff (valid_encodeChar c) t,shape]
  exact valid_cut_iff start

theorem small_of_hex {b : UInt8} {n : Nat} (hex : hex? b = some n) : b < 0x80 := by
  rw [UInt8.lt_iff_toNat_lt]
  simp only [hex?,UInt8.le_iff_toNat_le,UInt8.reduceToNat] at hex ⊢
  split at hex
  next => omega
  next =>
    split at hex
    next => omega
    next =>
      split at hex
      next => omega
      next => contradiction

theorem small_of_unit {a b c d : UInt8} {n : Nat} (hex : Read.unit? a b c d = some n) :
    a < 0x80 ∧ b < 0x80 ∧ c < 0x80 ∧ d < 0x80 := by
  simp only [Read.unit?,Option.bind_eq_bind,Option.bind_eq_some_iff] at hex
  obtain ⟨_,first,_,second,_,third,_,fourth,_⟩ := hex
  exact ⟨small_of_hex first,small_of_hex second,small_of_hex third,small_of_hex fourth⟩

theorem small_of_escape {e c : UInt8} (known : Read.escape? e = some c) : e < 0x80 ∧ c < 0x80 := by
  unfold Read.escape? at known
  split at known
  next plain =>
    obtain rfl := Option.some.inj known
    rcases plain with rfl | rfl | rfl <;> decide
  iterate 5
    split at known
    next letter =>
      obtain rfl := Option.some.inj known
      subst letter
      decide
  contradiction

theorem valid_unit_iff {a b c d : UInt8} {n : Nat} (hex : Read.unit? a b c d = some n)
    (s t : Bytes) : Valid (s ++ ascii '\\' :: ascii 'u' :: a :: b :: c :: d :: t) ↔
      Valid s ∧ Valid t := by
  obtain ⟨first,second,third,fourth⟩ := small_of_unit hex
  rw [valid_around_iff (by decide),valid_cons_iff (by decide),valid_cons_iff first,
    valid_cons_iff second,valid_cons_iff third,valid_cons_iff fourth]

/-- A string is well-formed just when what it denotes is. Escapes stand for whole characters, so
both may be cut at each of them. -/
theorem spells_valid_iff {body bytes : Bytes} (spelled : Spells body bytes) (s : Bytes) :
    Valid (s ++ body) ↔ Valid (s ++ bytes) := by
  induction spelled generalizing s with
  | nil => exact Iff.rfl
  | plain _ _ _ _ ih =>
    rw [List.append_cons,ih,← List.append_cons]
  | escape known _ ih =>
    obtain ⟨first,second⟩ := small_of_escape known
    rw [valid_around_iff (by decide),valid_cons_iff first,valid_around_iff second]
    exact and_congr_right' (ih [])
  | unit hex _ _ _ ih =>
    rw [valid_unit_iff hex,valid_around_char_iff]
    exact and_congr_right' (ih [])
  | pair high _ low _ _ ih =>
    rw [valid_unit_iff high,valid_around_char_iff]
    refine and_congr_right' ((valid_unit_iff low [] _).trans ?_)
    rw [and_iff_right ⟨[],rfl⟩]
    exact ih []

theorem small_of_blank {b : UInt8} (white : Read.blank b = true) : b < 0x80 := by
  simp only [Read.blank,Bool.or_eq_true,beq_iff_eq] at white
  rcases white with ((rfl | rfl) | rfl) | rfl <;> decide

theorem valid_blanks {s : Bytes} (blanks : Blanks s) : Valid s := by
  induction s with
  | nil => exact ⟨[],rfl⟩
  | cons b s ih =>
    obtain ⟨white,rest⟩ := List.forall_mem_cons.mp blanks
    exact (valid_cons_iff (small_of_blank white) s).mpr (ih rest)

theorem valid_blanks_iff {blanks : Bytes} (white : Blanks blanks) {b : UInt8} (small : b < 0x80)
    (s t : Bytes) : Valid (s ++ (blanks ++ b :: t)) ↔ Valid s ∧ Valid t := by
  cases blanks with
  | nil => exact valid_around_iff small s t
  | cons x blanks =>
    obtain ⟨first,rest⟩ := List.forall_mem_cons.mp white
    rw [List.cons_append,valid_around_iff (small_of_blank first),
      valid_append_iff (valid_blanks rest),valid_cons_iff small]

section
variable {denotes : Bytes → Bytes → Prop}

theorem member_valid_iff (own : ∀ v raw, denotes v raw → raw = v) {s : Bytes}
    {member : String × Bytes} (written : Member denotes s member) {b : UInt8} (small : b < 0x80)
    (t : Bytes) : Valid (s ++ b :: t) ↔ Valid member.2 ∧ Valid t := by
  obtain @⟨before,body,middle,gap,v,after,name,raw,first,spelled,second,third,value,fourth⟩ :=
    written
  have text : Valid body := (spells_valid_iff spelled []).mpr (valid_bytes name)
  rw [own v raw value]
  simp only [List.append_assoc,List.cons_append]
  rw [valid_append_iff (valid_blanks first),valid_cons_iff (by decide),
    valid_around_iff (by decide),and_iff_right text,valid_append_iff (valid_blanks second),
    valid_cons_iff (by decide),valid_append_iff (valid_blanks third),valid_blanks_iff fourth small]

theorem members_valid_iff (own : ∀ v raw, denotes v raw → raw = v) {s : Bytes}
    {members : List (String × Bytes)} (written : Members denotes s members) {b : UInt8}
    (small : b < 0x80) (t : Bytes) :
    Valid (s ++ b :: t) ↔ (∀ member ∈ members, Valid member.2) ∧ Valid t := by
  induction written with
  | last only => rw [member_valid_iff own only small,List.forall_mem_singleton]
  | next first _ ih =>
    rw [List.append_assoc,List.cons_append,member_valid_iff own first (by decide),ih,
      List.forall_mem_cons,and_assoc]

/-- An object whose members keep their text is well-formed just when each of their texts is. -/
theorem document_valid_iff (own : ∀ v raw, denotes v raw → raw = v) {s : Bytes}
    {members : List (String × Bytes)} (written : Document denotes s members) :
    Valid s ↔ ∀ member ∈ members, Valid member.2 := by
  obtain ⟨first,object,second⟩ := written
  rw [valid_append_iff (valid_blanks first)]
  cases object with
  | empty inside =>
    rw [List.cons_append,List.append_assoc,valid_cons_iff (by decide),
      valid_append_iff (valid_blanks inside),List.cons_append,List.nil_append,
      valid_cons_iff (by decide),iff_true_intro (valid_blanks second)]
    simp
  | members inside =>
    rw [List.cons_append,List.append_assoc,valid_cons_iff (by decide),List.cons_append,
      List.nil_append,members_valid_iff own inside (by decide),
      and_iff_left (valid_blanks second)]

end

end NodeAudit.Json

import NodeAudit.Proofs.Text.Decimal
import NodeAudit.Text.Utf8

/-! UTF-8 in both directions. Decoding undoes encoding and loses nothing, a text may be cut before
any byte that starts a character, and the order of characters is the order of their bytes. -/
namespace NodeAudit.Utf8

theorem toNat_ofNat {n : Nat} (small : n < 256) : (UInt8.ofNat n).toNat = n :=
  UInt8.toNat_ofNat_of_lt' small

/-- A character by the number of bytes it takes. -/
theorem encodeChar_forms (c : Char) :
    (c.toNat < 0x80 ∧ String.utf8EncodeChar c = [UInt8.ofNat c.toNat]) ∨
    (0x80 ≤ c.toNat ∧ c.toNat < 0x800 ∧ String.utf8EncodeChar c =
      [UInt8.ofNat (0xC0 + c.toNat / 64),UInt8.ofNat (0x80 + c.toNat % 64)]) ∨
    (0x800 ≤ c.toNat ∧ c.toNat < 0x10000 ∧ String.utf8EncodeChar c =
      [UInt8.ofNat (0xE0 + c.toNat / 4096),UInt8.ofNat (0x80 + c.toNat / 64 % 64),
        UInt8.ofNat (0x80 + c.toNat % 64)]) ∨
    (0x10000 ≤ c.toNat ∧ c.toNat < 0x110000 ∧ String.utf8EncodeChar c =
      [UInt8.ofNat (0xF0 + c.toNat / 262144),UInt8.ofNat (0x80 + c.toNat / 4096 % 64),
        UInt8.ofNat (0x80 + c.toNat / 64 % 64),UInt8.ofNat (0x80 + c.toNat % 64)]) := by
  have valid : c.toNat < 0xD800 ∨ 0xDFFF < c.toNat ∧ c.toNat < 0x110000 := c.valid
  have value : c.val.toNat = c.toNat := rfl
  unfold String.utf8EncodeChar
  simp only [value]
  by_cases one : c.toNat ≤ 127
  · exact .inl ⟨by omega,by rw [if_pos one]⟩
  · rw [if_neg one]
    by_cases two : c.toNat ≤ 2047
    · refine .inr (.inl ⟨by omega,by omega,?_⟩)
      rw [if_pos two,show c.toNat / 64 % 32 + 192 = 0xC0 + c.toNat / 64 by omega,
        show c.toNat % 64 + 128 = 0x80 + c.toNat % 64 by omega]
    · rw [if_neg two]
      by_cases three : c.toNat ≤ 65535
      · refine .inr (.inr (.inl ⟨by omega,by omega,?_⟩))
        rw [if_pos three,show c.toNat / 4096 % 16 + 224 = 0xE0 + c.toNat / 4096 by omega,
          show c.toNat / 64 % 64 + 128 = 0x80 + c.toNat / 64 % 64 by omega,
          show c.toNat % 64 + 128 = 0x80 + c.toNat % 64 by omega]
      · refine .inr (.inr (.inr ⟨by omega,by omega,?_⟩))
        rw [if_neg three,show c.toNat / 262144 % 8 + 240 = 0xF0 + c.toNat / 262144 by omega,
          show c.toNat / 4096 % 64 + 128 = 0x80 + c.toNat / 4096 % 64 by omega,
          show c.toNat / 64 % 64 + 128 = 0x80 + c.toNat / 64 % 64 by omega,
          show c.toNat % 64 + 128 = 0x80 + c.toNat % 64 by omega]

theorem continues_iff (b : UInt8) : continues b = true ↔ 0x80 ≤ b.toNat ∧ b.toNat < 0xC0 := by
  simp [continues,UInt8.le_iff_toNat_le,UInt8.lt_iff_toNat_lt]

theorem ofNat_eq_iff {n : Nat} (small : n < 256) (b : UInt8) :
    UInt8.ofNat n = b ↔ n = b.toNat := by
  rw [← UInt8.toNat_inj,toNat_ofNat small]

theorem charOfNat_eq_iff {n : Nat} (valid : n.isValidChar) (c : Char) :
    Char.ofNat n = c ↔ n = c.toNat := by
  rw [← Char.toNat_inj,toNat_charOfNat valid]

theorem two_iff (a b : UInt8) (c : Char) :
    two? a b = some c ↔ String.utf8EncodeChar c = [a,b] := by
  have boundA := a.toNat_lt
  have boundB := b.toNat_lt
  unfold two? six
  dsimp only
  rw [Option.ite_none_right_eq_some,continues_iff,Option.some.injEq]
  simp only [UInt8.le_iff_toNat_le,UInt8.lt_iff_toNat_lt,UInt8.reduceToNat]
  constructor
  · rintro ⟨bounds,value⟩
    rw [charOfNat_eq_iff (Or.inl (by omega))] at value
    rcases encodeChar_forms c with ⟨_,_⟩ | ⟨_,_,form⟩ | ⟨_,_,_⟩ | ⟨_,_,_⟩
    · omega
    · rw [form,List.cons.injEq,List.cons.injEq,ofNat_eq_iff (by omega),ofNat_eq_iff (by omega)]
      exact ⟨by omega,by omega,rfl⟩
    · omega
    · omega
  · intro encoded
    rcases encodeChar_forms c with ⟨_,form⟩ | ⟨_,_,form⟩ | ⟨_,_,form⟩ | ⟨_,_,form⟩
    · simp [form] at encoded
    · rw [form,List.cons.injEq,List.cons.injEq,ofNat_eq_iff (by omega),
        ofNat_eq_iff (by omega)] at encoded
      rw [charOfNat_eq_iff (Or.inl (by omega))]
      omega
    · simp [form] at encoded
    · simp [form] at encoded

theorem three_iff (a b d : UInt8) (c : Char) :
    three? a b d = some c ↔ String.utf8EncodeChar c = [a,b,d] := by
  have boundA := a.toNat_lt
  have boundB := b.toNat_lt
  have boundD := d.toNat_lt
  have valid : c.toNat < 0xD800 ∨ 0xDFFF < c.toNat ∧ c.toNat < 0x110000 := c.valid
  unfold three? six
  dsimp only
  rw [Option.ite_none_right_eq_some,continues_iff,continues_iff,Option.some.injEq]
  simp only [UInt8.le_iff_toNat_le,UInt8.lt_iff_toNat_lt,UInt8.reduceToNat]
  constructor
  · rintro ⟨⟨_,_,_,_,_,inside⟩,value⟩
    rw [charOfNat_eq_iff inside] at value
    rcases encodeChar_forms c with ⟨_,_⟩ | ⟨_,_,_⟩ | ⟨_,_,form⟩ | ⟨_,_,_⟩
    · omega
    · omega
    · rw [form,List.cons.injEq,List.cons.injEq,List.cons.injEq,ofNat_eq_iff (by omega),
        ofNat_eq_iff (by omega),ofNat_eq_iff (by omega)]
      exact ⟨by omega,by omega,by omega,rfl⟩
    · omega
  · intro encoded
    rcases encodeChar_forms c with ⟨_,form⟩ | ⟨_,_,form⟩ | ⟨_,_,form⟩ | ⟨_,_,form⟩
    · simp [form] at encoded
    · simp [form] at encoded
    · rw [form,List.cons.injEq,List.cons.injEq,List.cons.injEq,ofNat_eq_iff (by omega),
        ofNat_eq_iff (by omega),ofNat_eq_iff (by omega)] at encoded
      have value : ((a.toNat - 0xE0) * 64 + (b.toNat - 0x80)) * 64 + (d.toNat - 0x80) = c.toNat := by
        omega
      rw [value,charOfNat_eq_iff valid]
      exact ⟨⟨by omega,by omega,by omega,by omega,by omega,valid⟩,rfl⟩
    · simp [form] at encoded

theorem four_iff (a b d e : UInt8) (c : Char) :
    four? a b d e = some c ↔ String.utf8EncodeChar c = [a,b,d,e] := by
  have boundA := a.toNat_lt
  have boundB := b.toNat_lt
  have boundD := d.toNat_lt
  have boundE := e.toNat_lt
  have valid : c.toNat < 0xD800 ∨ 0xDFFF < c.toNat ∧ c.toNat < 0x110000 := c.valid
  unfold four? six
  dsimp only
  rw [Option.ite_none_right_eq_some,continues_iff,continues_iff,continues_iff,Option.some.injEq]
  simp only [UInt8.le_iff_toNat_le,UInt8.lt_iff_toNat_lt,UInt8.reduceToNat]
  constructor
  · rintro ⟨⟨_,_,_,_,_,_,inside⟩,value⟩
    rw [charOfNat_eq_iff inside] at value
    rcases encodeChar_forms c with ⟨_,_⟩ | ⟨_,_,_⟩ | ⟨_,_,_⟩ | ⟨_,_,form⟩
    · omega
    · omega
    · omega
    · rw [form,List.cons.injEq,List.cons.injEq,List.cons.injEq,List.cons.injEq,
        ofNat_eq_iff (by omega),ofNat_eq_iff (by omega),ofNat_eq_iff (by omega),
        ofNat_eq_iff (by omega)]
      exact ⟨by omega,by omega,by omega,by omega,rfl⟩
  · intro encoded
    rcases encodeChar_forms c with ⟨_,form⟩ | ⟨_,_,form⟩ | ⟨_,_,form⟩ | ⟨_,_,form⟩
    · simp [form] at encoded
    · simp [form] at encoded
    · simp [form] at encoded
    · rw [form,List.cons.injEq,List.cons.injEq,List.cons.injEq,List.cons.injEq,
        ofNat_eq_iff (by omega),ofNat_eq_iff (by omega),ofNat_eq_iff (by omega),
        ofNat_eq_iff (by omega)] at encoded
      have value : (((a.toNat - 0xF0) * 64 + (b.toNat - 0x80)) * 64 + (d.toNat - 0x80)) * 64 +
          (e.toNat - 0x80) = c.toNat := by omega
      rw [value,charOfNat_eq_iff valid]
      exact ⟨⟨by omega,by omega,by omega,by omega,by omega,by omega,valid⟩,rfl⟩

theorem encodeChar_ascii (a : UInt8) (small : a < 0x80) :
    String.utf8EncodeChar (Char.ofNat a.toNat) = [a] := by
  have bound : a.toNat < 128 := UInt8.lt_iff_toNat_lt.mp small
  have code : (Char.ofNat a.toNat).toNat = a.toNat := toNat_charOfNat (Or.inl (by omega))
  rcases encodeChar_forms (Char.ofNat a.toNat) with ⟨_,form⟩ | ⟨_,_,_⟩ | ⟨_,_,_⟩ | ⟨_,_,_⟩
  · rw [form,code,UInt8.ofNat_toNat]
  · omega
  · omega
  · omega

theorem decode_encodeChar (c : Char) (s : Bytes) :
    decode (String.utf8EncodeChar c ++ s) = note c (decode s) := by
  rcases encodeChar_forms c with ⟨small,form⟩ | ⟨low,high,form⟩ | ⟨low,high,form⟩ | ⟨low,high,form⟩
  · have ascii : UInt8.ofNat c.toNat < 0x80 := by
      rw [UInt8.lt_iff_toNat_lt,toNat_ofNat (by omega)]
      exact small
    rw [form,List.cons_append,List.nil_append,decode.eq_def]
    simp only [if_pos ascii,toNat_ofNat (show c.toNat < 256 by omega),Char.ofNat_toNat]
  · have lead : ¬UInt8.ofNat (0xC0 + c.toNat / 64) < 0x80 := by
      rw [UInt8.lt_iff_toNat_lt,toNat_ofNat (by omega)]
      simp only [UInt8.reduceToNat]
      omega
    have two := (two_iff _ _ c).mpr form
    rw [form,List.cons_append,List.cons_append,List.nil_append,decode.eq_def]
    simp only [if_neg lead,two]
  · have lead : ¬UInt8.ofNat (0xE0 + c.toNat / 4096) < 0x80 := by
      rw [UInt8.lt_iff_toNat_lt,toNat_ofNat (by omega)]
      simp only [UInt8.reduceToNat]
      omega
    have two : two? (UInt8.ofNat (0xE0 + c.toNat / 4096)) (UInt8.ofNat (0x80 + c.toNat / 64 % 64)) =
        none := by
      rw [two?,if_neg]
      rw [UInt8.lt_iff_toNat_lt,toNat_ofNat (by omega)]
      simp only [UInt8.reduceToNat]
      omega
    have three := (three_iff _ _ _ c).mpr form
    rw [form,List.cons_append,List.cons_append,List.cons_append,List.nil_append,decode.eq_def]
    simp only [if_neg lead,two,three]
  · have lead : ¬UInt8.ofNat (0xF0 + c.toNat / 262144) < 0x80 := by
      rw [UInt8.lt_iff_toNat_lt,toNat_ofNat (by omega)]
      simp only [UInt8.reduceToNat]
      omega
    have two : two? (UInt8.ofNat (0xF0 + c.toNat / 262144))
        (UInt8.ofNat (0x80 + c.toNat / 4096 % 64)) = none := by
      rw [two?,if_neg]
      rw [UInt8.lt_iff_toNat_lt,toNat_ofNat (by omega)]
      simp only [UInt8.reduceToNat]
      omega
    have three : three? (UInt8.ofNat (0xF0 + c.toNat / 262144))
        (UInt8.ofNat (0x80 + c.toNat / 4096 % 64)) (UInt8.ofNat (0x80 + c.toNat / 64 % 64)) =
        none := by
      rw [three?,if_neg]
      rw [UInt8.lt_iff_toNat_lt,toNat_ofNat (by omega)]
      simp only [UInt8.reduceToNat]
      omega
    have four := (four_iff _ _ _ _ c).mpr form
    rw [form,List.cons_append,List.cons_append,List.cons_append,List.cons_append,List.nil_append,
      decode.eq_def]
    simp only [if_neg lead,two,three,four]

theorem decode_encode_append (chars : List Char) (s : Bytes) :
    decode (encode chars ++ s) = (chars ++ (decode s).1,(decode s).2) := by
  induction chars with
  | nil => rfl
  | cons c chars ih =>
    rw [encode,List.flatMap_cons,List.append_assoc,decode_encodeChar,← encode,ih]
    rfl

theorem encode_decode (s : Bytes) : encode (decode s).1 ++ (decode s).2 = s := by
  fun_induction decode s with
  | case1 => rfl
  | case2 a s small ih => simp_all [note,encode,encodeChar_ascii a small]
  | case3 => rfl
  | case4 a _ b t c found ih => simp_all [note,encode,(two_iff a b c).mp found]
  | case5 => rfl
  | case6 a _ b _ d u c found ih => simp_all [note,encode,(three_iff a b d c).mp found]
  | case7 => rfl
  | case8 a _ b _ d _ e v c found ih => simp_all [note,encode,(four_iff a b d e c).mp found]
  | case9 => rfl

/-- Bytes that encode some text. -/
def Valid (s : Bytes) : Prop := ∃ chars, s = encode chars

theorem chars_eq_some_iff (s : Bytes) (chars : List Char) :
    chars? s = some chars ↔ s = encode chars := by
  constructor
  · intro found
    have whole := encode_decode s
    unfold chars? at found
    split at found
    next c ends =>
      rw [ends,Option.some.inj found,List.append_nil] at whole
      exact whole.symm
    next => contradiction
  · rintro rfl
    have read := decode_encode_append chars []
    rw [List.append_nil] at read
    simp [chars?,read,decode]

theorem text_eq_some_iff (s : Bytes) (text : String) :
    text? s = some text ↔ s = bytes text := by
  simp only [text?,Option.map_eq_some_iff,chars_eq_some_iff,bytes]
  constructor
  · rintro ⟨chars,rfl,rfl⟩
    rw [String.toList_ofList]
  · rintro rfl
    exact ⟨text.toList,rfl,String.ofList_toList⟩

theorem valid_iff_decode (s : Bytes) : Valid s ↔ (decode s).2 = [] := by
  constructor
  · rintro ⟨chars,rfl⟩
    have read := decode_encode_append chars []
    rw [List.append_nil] at read
    rw [read]
    rfl
  · intro ends
    have whole := encode_decode s
    rw [ends,List.append_nil] at whole
    exact ⟨_,whole.symm⟩

instance (s : Bytes) : Decidable (Valid s) := decidable_of_iff _ (valid_iff_decode s).symm

theorem valid_bytes (text : String) : Valid (bytes text) := ⟨_,rfl⟩

theorem valid_encodeChar (c : Char) : Valid (String.utf8EncodeChar c) := ⟨[c],by simp [encode]⟩

theorem valid_append_iff {a : Bytes} (front : Valid a) (b : Bytes) : Valid (a ++ b) ↔ Valid b := by
  obtain ⟨chars,rfl⟩ := front
  rw [valid_iff_decode,valid_iff_decode,decode_encode_append]

theorem valid_append {a b : Bytes} (front : Valid a) (back : Valid b) : Valid (a ++ b) :=
  (valid_append_iff front b).mpr back

theorem continues_ofNat {n : Nat} (small : n < 64) : continues (UInt8.ofNat (0x80 + n)) = true := by
  rw [continues_iff,toNat_ofNat (by omega)]
  omega

theorem starts_ofNat {n : Nat} (small : n < 256) (outside : n < 0x80 ∨ 0xC0 ≤ n) :
    continues (UInt8.ofNat n) = false := by
  rw [← Bool.not_eq_true,continues_iff,toNat_ofNat small]
  omega

theorem encodeChar_shape (c : Char) : ∃ lead rest, String.utf8EncodeChar c = lead :: rest ∧
    continues lead = false ∧ ∀ b ∈ rest, continues b = true := by
  rcases encodeChar_forms c with ⟨_,form⟩ | ⟨_,_,form⟩ | ⟨_,_,form⟩ | ⟨_,_,form⟩
  all_goals refine ⟨_,_,form,starts_ofNat (by omega) (by omega),?_⟩
  · exact fun b member => absurd member List.not_mem_nil
  · rw [List.forall_mem_singleton]
    exact continues_ofNat (by omega)
  · rw [List.forall_mem_cons,List.forall_mem_singleton]
    exact ⟨continues_ofNat (by omega),continues_ofNat (by omega)⟩
  · rw [List.forall_mem_cons,List.forall_mem_cons,List.forall_mem_singleton]
    exact ⟨continues_ofNat (by omega),continues_ofNat (by omega),continues_ofNat (by omega)⟩

/-- Bytes that begin a character begin a text of their own. -/
theorem valid_cut {a b : Bytes} {x : UInt8} (start : continues x = false)
    (whole : Valid (a ++ x :: b)) : Valid a ∧ Valid (x :: b) := by
  obtain ⟨chars,equal⟩ := whole
  induction chars generalizing a with
  | nil => simp [encode] at equal
  | cons c chars ih =>
    rw [encode,List.flatMap_cons,← encode] at equal
    rcases List.append_eq_append_iff.mp equal with ⟨inner,front,back⟩ | ⟨beyond,rfl,back⟩
    · cases inner with
      | nil =>
        rw [List.append_nil] at front
        exact ⟨⟨[c],by simp [encode,front]⟩,⟨chars,by rw [back]; rfl⟩⟩
      | cons y inner =>
        obtain ⟨rfl,_⟩ := List.cons.inj back
        obtain ⟨lead,rest,shape,_,inside⟩ := encodeChar_shape c
        rw [shape] at front
        cases a with
        | nil => exact ⟨⟨[],rfl⟩,⟨c :: chars,by
            rw [encode,List.flatMap_cons,← encode]
            exact equal⟩⟩
        | cons l a =>
          have member : x ∈ rest := by
            rw [(List.cons.inj front).2]
            simp
          rw [inside x member] at start
          contradiction
    · obtain ⟨left,right⟩ := ih back.symm
      exact ⟨valid_append (valid_encodeChar c) left,right⟩

theorem valid_cut_iff {a b : Bytes} {x : UInt8} (start : continues x = false) :
    Valid (a ++ x :: b) ↔ Valid a ∧ Valid (x :: b) :=
  ⟨valid_cut start,fun ⟨front,back⟩ => valid_append front back⟩

theorem cons_lt_of_le {m n : Nat} {s t : Bytes} (bound : n < 256) (le : m ≤ n)
    (rest : m = n → s < t) : UInt8.ofNat m :: s < UInt8.ofNat n :: t := by
  rw [List.cons_lt_cons_iff,UInt8.lt_iff_toNat_lt,toNat_ofNat bound,toNat_ofNat (by omega)]
  rcases Nat.lt_or_eq_of_le le with less | same
  · exact .inl less
  · exact .inr ⟨by rw [same],rest same⟩

/-- The lesser of two characters has the lesser bytes, whatever follows either. -/
theorem encodeChar_lt {c d : Char} (less : c.toNat < d.toNat) (s t : Bytes) :
    String.utf8EncodeChar c ++ s < String.utf8EncodeChar d ++ t := by
  rcases encodeChar_forms c with ⟨_,first⟩ | ⟨_,_,first⟩ | ⟨_,_,first⟩ | ⟨_,_,first⟩ <;>
    rcases encodeChar_forms d with ⟨_,second⟩ | ⟨_,_,second⟩ | ⟨_,_,second⟩ | ⟨_,_,second⟩
  all_goals try omega
  all_goals rw [first,second]
  -- Where one takes more bytes than the other, the first byte decides.
  · exact cons_lt_of_le (by omega) (by omega) (by omega)
  · exact cons_lt_of_le (by omega) (by omega) (by omega)
  · exact cons_lt_of_le (by omega) (by omega) (by omega)
  · exact cons_lt_of_le (by omega) (by omega) (by omega)
  · exact cons_lt_of_le (by omega) (by omega) fun _ =>
      cons_lt_of_le (by omega) (by omega) (by omega)
  · exact cons_lt_of_le (by omega) (by omega) (by omega)
  · exact cons_lt_of_le (by omega) (by omega) (by omega)
  · exact cons_lt_of_le (by omega) (by omega) fun _ =>
      cons_lt_of_le (by omega) (by omega) fun _ =>
        cons_lt_of_le (by omega) (by omega) (by omega)
  · exact cons_lt_of_le (by omega) (by omega) (by omega)
  · exact cons_lt_of_le (by omega) (by omega) fun _ =>
      cons_lt_of_le (by omega) (by omega) fun _ =>
        cons_lt_of_le (by omega) (by omega) fun _ =>
          cons_lt_of_le (by omega) (by omega) (by omega)

theorem encode_lt {s t : List Char} (less : s < t) : encode s < encode t := by
  induction less with
  | nil =>
    rename_i c t
    obtain ⟨lead,rest,shape,-⟩ := encodeChar_shape c
    rw [encode,encode,List.flatMap_cons,shape]
    exact List.nil_lt_cons _ _
  | rel smaller =>
    rw [encode,encode,List.flatMap_cons,List.flatMap_cons]
    exact encodeChar_lt smaller _ _
  | cons _ ih =>
    rw [encode,encode,List.flatMap_cons,List.flatMap_cons]
    exact List.append_left_lt ih

/-- Texts are ordered as their bytes are. -/
theorem bytes_lt_iff (a b : String) : bytes a < bytes b ↔ a < b := by
  constructor
  · intro less
    refine Decidable.byContradiction fun notLess => ?_
    by_cases same : a = b
    · exact List.lt_irrefl _ (same ▸ less)
    · have greater : b < a := Decidable.byContradiction fun notGreater =>
        same (String.le_antisymm (String.not_lt.mp notGreater) (String.not_lt.mp notLess))
      exact List.lt_asymm less (encode_lt greater)
  · exact encode_lt

end NodeAudit.Utf8

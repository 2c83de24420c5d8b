import NodeAudit.Proofs.Contents.DataUrl
import NodeAudit.Proofs.Text.Utf8

/-! Percent-decoding as one pass from left to right that reads each byte once: escapes are taken up
whole, and what only begins like one is passed through. Every text that bytes are encoded as, with
whatever escaped, is decoded to them. -/
namespace NodeAudit.Percent

/-- A hexadecimal digit of either case, with its value. -/
inductive Digit : UInt8 → Nat → Prop where
  | decimal {n : Nat} (bound : n < 10) : Digit (UInt8.ofNat ('0'.toNat + n)) n
  | upper {n : Nat} (bound : n < 6) : Digit (UInt8.ofNat ('A'.toNat + n)) (10 + n)
  | lower {n : Nat} (bound : n < 6) : Digit (UInt8.ofNat ('a'.toNat + n)) (10 + n)

/-- A text that begins with an escape. -/
def Escaped (s : Bytes) : Prop :=
  ∃ high low m n rest, s = ascii '%' :: high :: low :: rest ∧ Digit high m ∧ Digit low n

inductive Scan : Bytes → Bytes → Prop where
  | nil : Scan [] []
  | escape {high low : UInt8} {m n : Nat} {text bytes : Bytes} (first : Digit high m)
      (second : Digit low n) (rest : Scan text bytes) :
      Scan (ascii '%' :: high :: low :: text) (UInt8.ofNat (16 * m + n) :: bytes)
  | copy {b : UInt8} {text bytes : Bytes} (other : ¬Escaped (b :: text)) (rest : Scan text bytes) :
      Scan (b :: text) (b :: bytes)

/-- A text that bytes are encoded as. It keeps whole characters other than the percent sign, so that
every byte that is part of no character is escaped. -/
inductive Written : List Char → Bytes → Prop where
  | nil : Written [] []
  | kept {c : Char} {text : List Char} {bytes : Bytes} (plain : c ≠ '%')
      (rest : Written text bytes) : Written (c :: text) (String.utf8EncodeChar c ++ bytes)
  | escaped {high low : UInt8} {m n : Nat} {text : List Char} {bytes : Bytes}
      (first : Digit high m) (second : Digit low n) (rest : Written text bytes) :
      Written ('%' :: Char.ofNat high.toNat :: Char.ofNat low.toNat :: text)
        (UInt8.ofNat (16 * m + n) :: bytes)

theorem Escaped.length {s : Bytes} (escaped : Escaped s) : 3 ≤ s.length := by
  obtain ⟨_,_,_,_,_,rfl,_⟩ := escaped
  exact Nat.le_add_left _ _

theorem hex?_eq_some_iff (b : UInt8) (n : Nat) : hex? b = some n ↔ Digit b n := by
  constructor
  · intro known
    have all : ∀ k < 256, ∀ n ∈ hex? (UInt8.ofNat k),
        n < 10 ∧ UInt8.ofNat k = UInt8.ofNat ('0'.toNat + n) ∨
        ∃ m < 6, n = 10 + m ∧ (UInt8.ofNat k = UInt8.ofNat ('A'.toNat + m) ∨
          UInt8.ofNat k = UInt8.ofNat ('a'.toNat + m)) := by
      decide +kernel
    have here := all b.toNat b.toNat_lt n
    rw [UInt8.ofNat_toNat] at here
    obtain ⟨bound,rfl⟩ | ⟨m,bound,rfl,rfl | rfl⟩ := here known
    · exact .decimal bound
    · exact .upper bound
    · exact .lower bound
  · intro digit
    cases digit with
    | decimal bound =>
      revert n
      decide
    | @upper n bound =>
      revert n
      decide
    | @lower n bound =>
      revert n
      decide

theorem byte?_eq_some_iff (high low b : UInt8) : byte? high low = some b ↔
    ∃ m n, Digit high m ∧ Digit low n ∧ b = UInt8.ofNat (16 * m + n) := by
  simp only [byte?,bind,Option.bind_eq_some_iff,hex?_eq_some_iff,pure,Option.some.injEq]
  constructor
  · rintro ⟨m,first,n,second,same⟩
    exact ⟨m,n,first,second,same.symm⟩
  · rintro ⟨m,n,first,second,same⟩
    exact ⟨m,first,n,second,same.symm⟩

theorem decode_escape {high low : UInt8} {m n : Nat} (first : Digit high m) (second : Digit low n)
    (text : Bytes) :
    decode (sign :: high :: low :: text) = UInt8.ofNat (16 * m + n) :: decode text := by
  have known := (byte?_eq_some_iff high low _).mpr ⟨m,n,first,second,rfl⟩
  rw [decode,if_pos rfl,known]

theorem decode_copy {b : UInt8} {text : Bytes} (other : ¬Escaped (b :: text)) :
    decode (b :: text) = b :: decode text := by
  match text with
  | [] => rfl
  | [_] => rfl
  | high :: low :: rest =>
    rw [decode]
    split
    next percent =>
      split
      next c known =>
        obtain ⟨m,n,first,second,-⟩ := (byte?_eq_some_iff high low c).mp known
        exact absurd ⟨high,low,m,n,rest,by rw [percent]; rfl,first,second⟩ other
      next => rfl
    next => rfl

theorem scan_decode (text : Bytes) : Scan text (decode text) := by
  fun_induction decode text with
  | case1 => exact .nil
  | case2 a => exact .copy (fun escaped => absurd escaped.length (by simp)) .nil
  | case3 a b =>
    apply Scan.copy (fun escaped => absurd escaped.length (by simp))
    exact .copy (fun escaped => absurd escaped.length (by simp)) .nil
  | case4 high low rest byte known ih =>
    obtain ⟨m,n,first,second,rfl⟩ := (byte?_eq_some_iff high low byte).mp known
    exact .escape first second ih
  | case5 high low rest none ih =>
    apply Scan.copy _ ih
    rintro ⟨_,_,m,n,_,whole,first,second⟩
    obtain ⟨-,rfl,rfl,-⟩ := by simpa only [List.cons.injEq] using whole
    have known := (byte?_eq_some_iff high low _).mpr ⟨m,n,first,second,rfl⟩
    rw [none] at known
    contradiction
  | case6 a b c rest other ih =>
    apply Scan.copy _ ih
    rintro ⟨_,_,_,_,_,whole,_⟩
    exact other (List.cons.inj whole).1

/-- Decoding is the scan, which gives one result for every text. -/
theorem scan_iff (text bytes : Bytes) : Scan text bytes ↔ decode text = bytes := by
  constructor
  · intro scan
    induction scan with
    | nil => rfl
    | escape first second _ ih => exact (decode_escape first second _).trans (by rw [ih])
    | copy other _ ih => rw [decode_copy other,ih]
  · rintro rfl
    exact scan_decode text

theorem encodes_plain {plain : Bytes} (inside : ∀ b ∈ plain, b ≠ sign) {text bytes : Bytes}
    (rest : Encodes text bytes) : Encodes (plain ++ text) (plain ++ bytes) := by
  induction plain with
  | nil => exact rest
  | cons b plain ih =>
    obtain ⟨first,others⟩ := List.forall_mem_cons.mp inside
    exact .kept first (ih others)

/-- No character but the percent sign has the byte of one. -/
theorem encodeChar_ne_sign {c : Char} (plain : c ≠ '%') :
    ∀ b ∈ String.utf8EncodeChar c, b ≠ sign := by
  have other : c.toNat ≠ 0x25 := fun same => plain (Char.toNat_inj.mp same)
  have ne {n : Nat} (small : n < 256) (apart : n ≠ 0x25) : UInt8.ofNat n ≠ sign :=
    fun same => apart ((Utf8.ofNat_eq_iff small _).mp same)
  rcases Utf8.encodeChar_forms c with ⟨_,form⟩ | ⟨_,_,form⟩ | ⟨_,_,form⟩ | ⟨_,_,form⟩
  · rw [form,List.forall_mem_singleton]
    exact ne (by omega) other
  · rw [form,List.forall_mem_cons,List.forall_mem_singleton]
    exact ⟨ne (by omega) (by omega),ne (by omega) (by omega)⟩
  · rw [form,List.forall_mem_cons,List.forall_mem_cons,List.forall_mem_singleton]
    exact ⟨ne (by omega) (by omega),ne (by omega) (by omega),ne (by omega) (by omega)⟩
  · rw [form,List.forall_mem_cons,List.forall_mem_cons,List.forall_mem_cons,
      List.forall_mem_singleton]
    exact ⟨ne (by omega) (by omega),ne (by omega) (by omega),ne (by omega) (by omega),
      ne (by omega) (by omega)⟩

theorem Digit.small {b : UInt8} {n : Nat} (digit : Digit b n) : b < 0x80 := by
  cases digit with
  | decimal bound =>
    revert n
    decide
  | @upper n bound =>
    revert n
    decide
  | @lower n bound =>
    revert n
    decide

theorem Written.encodes {text : List Char} {bytes : Bytes} (written : Written text bytes) :
    Encodes (Utf8.encode text) bytes := by
  induction written with
  | nil => exact .nil
  | kept plain _ ih =>
    rw [Utf8.encode,List.flatMap_cons]
    exact encodes_plain (encodeChar_ne_sign plain) ih
  | escaped first second _ ih =>
    rw [Utf8.encode,List.flatMap_cons,List.flatMap_cons,List.flatMap_cons,
      Utf8.encodeChar_ascii _ first.small,Utf8.encodeChar_ascii _ second.small]
    exact .escaped ((byte?_eq_some_iff _ _ _).mpr ⟨_,_,first,second,rfl⟩) ih

end NodeAudit.Percent

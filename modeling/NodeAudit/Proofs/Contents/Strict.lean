import NodeAudit.Proofs.Contents.Base64
import NodeAudit.Proofs.Json.Lexeme

/-! Base64 is read in its canonical form only: whatever is decoded is the text that its bytes are
written as. Other alphabets, padding that is missing or too long, and bits that no byte takes up are
all refused. -/
namespace NodeAudit.Base64
open Json.Read

theorem value?_eq_some {b : UInt8} {n : Nat} (known : value? b = some n) :
    n < 64 ∧ symbol n = b := by
  have all : ∀ k < 256, ∀ n ∈ value? (UInt8.ofNat k), n < 64 ∧ symbol n = UInt8.ofNat k := by
    decide +kernel
  have here := all b.toNat b.toNat_lt n
  rw [UInt8.ofNat_toNat] at here
  exact here known

theorem front_sound {offset : Nat} {s : Bytes} {ns : List Nat} (passed : front offset s = .ok ns) :
    (∀ n ∈ ns, n < 64) ∧ s = ns.map symbol := by
  induction s generalizing offset ns with
  | nil =>
    obtain rfl := Except.ok.inj passed
    exact ⟨List.forall_mem_nil _,rfl⟩
  | cons b s ih =>
    rw [front] at passed
    split at passed
    next n known =>
      obtain ⟨others,later,rfl⟩ := map_eq_ok.mp passed
      obtain ⟨small,whole⟩ := ih later
      obtain ⟨first,same⟩ := value?_eq_some known
      refine ⟨List.forall_mem_cons.mpr ⟨first,small⟩,?_⟩
      rw [List.map_cons,same,← whole]
    next => contradiction

/-- After padding comes nothing but padding, and none of it in the first two places of a group. -/
theorem padded_sound {start offset first : Nat} {s : Bytes} {ns : List Nat}
    (passed : ending start offset (some first) s = .ok ns) :
    ns = [] ∧ s = List.replicate s.length pad ∧ ∀ i < s.length, 2 ≤ (offset + i - start) % 4 := by
  induction s generalizing offset first with
  | nil => exact ⟨(Except.ok.inj passed).symm,rfl,nofun⟩
  | cons b s ih =>
    rw [ending] at passed
    split at passed
    next same =>
      split at passed
      next => contradiction
      next place =>
        obtain ⟨none,whole,places⟩ := ih passed
        refine ⟨none,?_,?_⟩
        · rw [List.length_cons,List.replicate_succ,← whole,same]
        · intro i bound
          cases i with
          | zero => exact Nat.not_lt.mp place
          | succ i =>
            rw [← Nat.add_assoc,Nat.add_right_comm]
            exact places i (Nat.lt_of_succ_lt_succ bound)
    next => contradiction

theorem ending_sound {start offset : Nat} {s : Bytes} {ns : List Nat}
    (passed : ending start offset none s = .ok ns) :
    ∃ count, (∀ n ∈ ns, n < 64) ∧ s = ns.map symbol ++ List.replicate count pad ∧
      ∀ i < count, 2 ≤ (offset + ns.length + i - start) % 4 := by
  induction s generalizing offset ns with
  | nil =>
    obtain rfl := Except.ok.inj passed
    exact ⟨0,List.forall_mem_nil _,rfl,nofun⟩
  | cons b s ih =>
    by_cases same : b = pad
    · have begun : ending start offset (some offset) (b :: s) = .ok ns := by
        simp only [ending,if_pos same,Option.getD] at passed ⊢
        exact passed
      obtain ⟨rfl,whole,places⟩ := padded_sound begun
      exact ⟨(b :: s).length,List.forall_mem_nil _,whole,places⟩
    · cases known : value? b with
      | none =>
        simp only [ending,if_neg same,known] at passed
        contradiction
      | some n =>
        simp only [ending,if_neg same,known] at passed
        obtain ⟨others,later,rfl⟩ := map_eq_ok.mp passed
        obtain ⟨count,small,whole,places⟩ := ih later
        obtain ⟨first,equal⟩ := value?_eq_some known
        refine ⟨count,List.forall_mem_cons.mpr ⟨first,small⟩,?_,?_⟩
        · rw [List.map_cons,equal,List.cons_append,← whole]
        · intro i bound
          rw [List.length_cons,← Nat.add_assoc,Nat.add_right_comm offset]
          exact places i bound

/-- Numbers are those of the bytes they make up, unless bits of the last one are left over. -/
theorem numbers_assemble {ns : List Nat} (small : ∀ n ∈ ns, n < 64) (grouped : ns.length % 4 ≠ 1)
    (left : leftBits ns = 0) : numbers (assemble ns) = ns := by
  fun_induction assemble ns with
  | case1 a b c d rest n ih =>
    simp only [List.forall_mem_cons] at small
    obtain ⟨first,second,third,fourth,others⟩ := small
    rw [leftBits_cons] at left
    simp only [List.length_cons] at grouped
    rw [numbers,ih others (by omega) left]
    simp only [Utf8.toNat_ofNat (show n / 65536 < 256 by omega),
      Utf8.toNat_ofNat (show n / 256 % 256 < 256 by omega),
      Utf8.toNat_ofNat (show n % 256 < 256 by omega)]
    simp only [List.cons.injEq,and_true]
    omega
  | case2 a b c n =>
    simp only [List.forall_mem_cons] at small
    obtain ⟨first,second,third,-⟩ := small
    have even : c % 4 = 0 := left
    simp only [numbers,Utf8.toNat_ofNat (show n / 1024 < 256 by omega),
      Utf8.toNat_ofNat (show n / 4 % 256 < 256 by omega)]
    simp only [List.cons.injEq,and_true]
    omega
  | case3 a b =>
    simp only [List.forall_mem_cons] at small
    obtain ⟨first,second,-⟩ := small
    have even : b % 16 = 0 := left
    simp only [numbers,Utf8.toNat_ofNat (show (a * 64 + b) / 16 < 256 by omega)]
    simp only [List.cons.injEq,and_true]
    omega
  | case4 ns four three two =>
    rcases ns with _ | ⟨a,_ | ⟨b,_ | ⟨c,_ | ⟨d,rest⟩⟩⟩⟩
    · rfl
    · exact absurd rfl grouped
    · exact absurd rfl (two a b)
    · exact absurd rfl (three a b c)
    · exact absurd rfl (four a b c d rest)

theorem encode_assemble {ns : List Nat} {count : Nat} (small : ∀ n ∈ ns, n < 64)
    (left : leftBits ns = 0) (few : count < 3) (whole : (ns.length + count) % 4 = 0) :
    encode (assemble ns) = ns.map symbol ++ List.replicate count pad := by
  have same := numbers_assemble small (by omega) left
  have bound := short_lt (assemble ns)
  have filled := length_numbers (assemble ns)
  rw [same] at filled
  rw [encode_eq,same,show short (assemble ns) = count by omega]

theorem decode_sound {text bytes : Bytes} (passed : decode text = .ok bytes) :
    text = encode bytes := by
  rw [decode] at passed
  split at passed
  next =>
    dsimp only at passed
    split at passed
    next => contradiction
    next => contradiction
  next =>
  simp only [decodeGroups] at passed
  obtain ⟨start,place⟩ : ∃ start, (text.length - 1) / 8 * 8 = start := ⟨_,rfl⟩
  rw [place] at passed
  obtain ⟨head,before,passed⟩ := bind_eq_ok.mp passed
  obtain ⟨tail,behind,passed⟩ := bind_eq_ok.mp passed
  split at passed
  next => contradiction
  next whole =>
  split at passed
  next => contradiction
  next none =>
  obtain rfl := Except.ok.inj passed
  obtain ⟨small,first⟩ := front_sound before
  obtain ⟨count,little,second,places⟩ := ending_sound behind
  have split : text = (head ++ tail).map symbol ++ List.replicate count pad := by
    rw [List.map_append,List.append_assoc,← second,← first,List.take_append_drop]
  have length := congrArg List.length split
  rw [List.length_append,List.length_map,List.length_replicate] at length
  -- Of three pads in a row one would stand in the first two places of a group.
  have few : count < 3 := by
    refine Nat.lt_of_not_le fun many => ?_
    have one := places 0 (by omega)
    have two := places 1 (by omega)
    have three := places 2 (by omega)
    omega
  rw [encode_assemble _ (by omega) few (by omega)]
  · exact split
  · intro n member
    exact (List.mem_append.mp member).elim (small n) (little n)

theorem decode_eq_ok_iff (text bytes : Bytes) : decode text = .ok bytes ↔ text = encode bytes := by
  constructor
  · exact decode_sound
  · rintro rfl
    exact decode_encode bytes

/-- The text that bytes are written as. -/
def text (bytes : Bytes) : String :=
  String.ofList ((encode bytes).map fun b => Char.ofNat b.toNat)

theorem small_of_encode (bytes : Bytes) : ∀ b ∈ encode bytes, b < 0x80 := by
  have symbols : ∀ n < 64, symbol n < 0x80 := by decide
  rw [encode_eq]
  intro b member
  rcases List.mem_append.mp member with inside | padding
  · obtain ⟨n,given,rfl⟩ := List.mem_map.mp inside
    exact symbols n (numbers_lt bytes n given)
  · rw [List.eq_of_mem_replicate padding]
    decide

theorem encode_chars {s : Bytes} (small : ∀ b ∈ s, b < 0x80) :
    Utf8.encode (s.map fun b => Char.ofNat b.toNat) = s := by
  rw [Utf8.encode,List.flatMap_map]
  induction s with
  | nil => rfl
  | cons b s ih =>
    obtain ⟨first,others⟩ := List.forall_mem_cons.mp small
    rw [List.flatMap_cons,ih others,Utf8.encodeChar_ascii b first]
    rfl

theorem bytes_text (bytes : Bytes) : Utf8.bytes (text bytes) = encode bytes := by
  rw [Utf8.bytes,text,String.toList_ofList,encode_chars (small_of_encode bytes)]

theorem bytes_eq_encode_iff (s : String) (bytes : Bytes) :
    Utf8.bytes s = encode bytes ↔ s = text bytes := by
  rw [← bytes_text]
  constructor
  · intro same
    have first := (Utf8.text_eq_some_iff (Utf8.bytes s) s).mpr rfl
    have second := (Utf8.text_eq_some_iff (Utf8.bytes s) (text bytes)).mpr same
    exact Option.some.inj (first.symm.trans second)
  · rintro rfl
    rfl

example : text (word "fooba") = "Zm9vYmE=" := by decide

end NodeAudit.Base64

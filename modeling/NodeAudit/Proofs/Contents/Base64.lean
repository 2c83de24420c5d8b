import NodeAudit.Contents.Base64

/-! The Base64 text of a byte string is decoded to it. -/
namespace NodeAudit.Base64

theorem value?_symbol {n : Nat} (small : n < 64) : value? (symbol n) = some n := by
  revert n
  decide

theorem symbol_ne_pad {n : Nat} (small : n < 64) : symbol n ≠ pad := by
  revert n
  decide

/-- The numbers of the symbols that bytes are written with. -/
def numbers : Bytes → List Nat
  | a :: b :: c :: rest =>
    let n := (a.toNat * 256 + b.toNat) * 256 + c.toNat
    n / 262144 :: n / 4096 % 64 :: n / 64 % 64 :: n % 64 :: numbers rest
  | [a,b] =>
    let n := (a.toNat * 256 + b.toNat) * 4
    [n / 4096,n / 64 % 64,n % 64]
  | [a] =>
    let n := a.toNat * 16
    [n / 64,n % 64]
  | [] => []

/-- How many symbols are missing in the last group. -/
def short (bytes : Bytes) : Nat := (3 - bytes.length % 3) % 3

theorem short_cons (a b c : UInt8) (rest : Bytes) : short (a :: b :: c :: rest) = short rest := by
  simp only [short,List.length_cons]
  omega

theorem short_lt (bytes : Bytes) : short bytes < 3 := Nat.mod_lt _ (by decide)

theorem encode_eq (bytes : Bytes) :
    encode bytes = (numbers bytes).map symbol ++ List.replicate (short bytes) pad := by
  fun_induction encode bytes with
  | case1 a b c rest n ih => simp [numbers,short_cons,ih,n]
  | case2 | case3 | case4 => rfl

theorem numbers_lt (bytes : Bytes) : ∀ n ∈ numbers bytes, n < 64 := by
  fun_induction numbers bytes with
  | case1 a b c rest n ih =>
    have first := a.toNat_lt
    have second := b.toNat_lt
    have third := c.toNat_lt
    simp only [List.forall_mem_cons]
    exact ⟨by omega,by omega,by omega,by omega,ih⟩
  | case2 a b n =>
    have first := a.toNat_lt
    have second := b.toNat_lt
    simp only [List.forall_mem_cons]
    exact ⟨by omega,by omega,by omega,List.forall_mem_nil _⟩
  | case3 a n =>
    have first := a.toNat_lt
    simp only [List.forall_mem_cons]
    exact ⟨by omega,by omega,List.forall_mem_nil _⟩
  | case4 => exact List.forall_mem_nil _

/-- Numbers and padding fill whole groups. -/
theorem length_numbers (bytes : Bytes) : ((numbers bytes).length + short bytes) % 4 = 0 := by
  fun_induction numbers bytes with
  | case1 a b c rest n ih =>
    rw [short_cons]
    simp only [List.length_cons]
    omega
  | case2 | case3 | case4 => simp [short]

theorem byte_eq {n : Nat} {a : UInt8} (same : n = a.toNat) : UInt8.ofNat n = a := by
  rw [same,UInt8.ofNat_toNat]

/-- The groups hold the bytes that they were made of. -/
theorem assemble_numbers (bytes : Bytes) : assemble (numbers bytes) = bytes := by
  fun_induction numbers bytes with
  | case1 a b c rest n ih =>
    have first := a.toNat_lt
    have second := b.toNat_lt
    have third := c.toNat_lt
    simp only [assemble,ih]
    rw [byte_eq (a := a) (by omega),byte_eq (a := b) (by omega),byte_eq (a := c) (by omega)]
  | case2 a b n =>
    have first := a.toNat_lt
    have second := b.toNat_lt
    simp only [assemble]
    rw [byte_eq (a := a) (by omega),byte_eq (a := b) (by omega)]
  | case3 a n =>
    have first := a.toNat_lt
    simp only [assemble]
    rw [byte_eq (a := a) (by omega)]
  | case4 => rfl

theorem leftBits_cons (a b c d : Nat) (rest : List Nat) :
    leftBits (a :: b :: c :: d :: rest) = leftBits rest := by
  cases rest with
  | nil => simp [leftBits]
  | cons e rest =>
    simp only [leftBits,List.length_cons,List.getLast?_cons_cons]
    rw [show (rest.length + 1 + 1 + 1 + 1 + 1) % 4 = (rest.length + 1) % 4 by omega]

theorem leftBits_numbers (bytes : Bytes) : leftBits (numbers bytes) = 0 := by
  fun_induction numbers bytes with
  | case1 a b c rest n ih => rw [leftBits_cons,ih]
  | case2 a b n =>
    show n % 64 % 4 = 0
    omega
  | case3 a n =>
    show n % 64 % 16 = 0
    omega
  | case4 => rfl

theorem front_symbols {ns : List Nat} (small : ∀ n ∈ ns, n < 64) (offset : Nat) :
    front offset (ns.map symbol) = .ok ns := by
  induction ns generalizing offset with
  | nil => rfl
  | cons n ns ih =>
    obtain ⟨first,others⟩ := List.forall_mem_cons.mp small
    simp only [List.map_cons,front,value?_symbol first,ih others]
    rfl

theorem ending_pads (start : Nat) {count offset : Nat} (padded : Option Nat)
    (place : 2 ≤ (offset - start) % 4) (room : (offset - start) % 4 + count ≤ 4) :
    ending start offset padded (List.replicate count pad) = .ok [] := by
  induction count generalizing offset padded with
  | zero => rfl
  | succ count ih =>
    have inside : ¬(offset - start) % 4 < 2 := by omega
    simp only [List.replicate_succ,ending,if_true,if_neg inside]
    cases count with
    | zero => rfl
    | succ count => exact ih _ (by omega) (by omega)

/-- Symbols to the end of a group, with the padding that fills it, are read. -/
theorem ending_symbols {ns : List Nat} (small : ∀ n ∈ ns, n < 64) {start offset count : Nat}
    (above : start ≤ offset) (few : count < 3) (whole : (offset - start + ns.length + count) % 4 = 0) :
    ending start offset none (ns.map symbol ++ List.replicate count pad) = .ok ns := by
  induction ns generalizing offset with
  | nil =>
    cases count with
    | zero => rfl
    | succ count =>
      rw [List.length_nil] at whole
      exact ending_pads start none (by omega) (by omega)
  | cons n ns ih =>
    obtain ⟨first,others⟩ := List.forall_mem_cons.mp small
    rw [List.length_cons] at whole
    have rest := ih others (show start ≤ offset + 1 by omega) (by omega)
    simp only [List.map_cons,List.cons_append,ending,if_neg (symbol_ne_pad first),
      value?_symbol first,rest]
    rfl

/-- What bytes are written as is decoded to them. -/
theorem decode_encode (bytes : Bytes) : decode (encode bytes) = .ok bytes := by
  have small := numbers_lt bytes
  have few := short_lt bytes
  have whole := length_numbers bytes
  have length : (encode bytes).length = (numbers bytes).length + short bytes := by
    rw [encode_eq,List.length_append,List.length_map,List.length_replicate]
  -- The last eight symbols begin at a whole group, and before the padding.
  obtain ⟨start,place⟩ : ∃ start, ((encode bytes).length - 1) / 8 * 8 = start := ⟨_,rfl⟩
  have inside : start ≤ (numbers bytes).length := by omega
  have head : (encode bytes).take start = ((numbers bytes).take start).map symbol := by
    rw [encode_eq,List.take_append_of_le_length (by rwa [List.length_map]),List.map_take]
  have tail : (encode bytes).drop start =
      ((numbers bytes).drop start).map symbol ++ List.replicate (short bytes) pad := by
    rw [encode_eq,List.drop_append_of_le_length (by rwa [List.length_map]),List.map_drop]
  have first : front 0 (((numbers bytes).take start).map symbol) = .ok ((numbers bytes).take start) :=
    front_symbols (fun n member => small n (List.mem_of_mem_take member)) 0
  have second : ending start start none
      (((numbers bytes).drop start).map symbol ++ List.replicate (short bytes) pad) =
      .ok ((numbers bytes).drop start) :=
    ending_symbols (fun n member => small n (List.mem_of_mem_drop member)) (Nat.le_refl start) few
      (by rw [List.length_drop]; omega)
  rw [decode,if_neg (by omega),decodeGroups]
  simp only [place,head,tail,first,second]
  show (if (encode bytes).length % 4 ≠ 0 then _ else
    if leftBits (_ ++ _) ≠ 0 then _ else _) = _
  rw [if_neg (by omega),List.take_append_drop,leftBits_numbers,if_neg (by simp),
    assemble_numbers]
  rfl

end NodeAudit.Base64

import Mathlib.Algebra.Group.Nat.Defs
import NodeAudit.Text.Ascii

/-! Numbers in decimal. The digits of a number end in its remainder by ten, none of them is zero in
front, and they give the number back. -/
namespace NodeAudit

theorem digits_go (fuel n : Nat) (enough : n < fuel) (done : List Nat) :
    digits.go fuel n done = digits n ++ done := by
  induction n using Nat.strongRecOn generalizing fuel done with
  | ind n ih =>
    obtain ⟨fuel,rfl⟩ : ∃ k, fuel = k + 1 := ⟨fuel - 1,by omega⟩
    unfold digits
    by_cases small : n < 10
    · simp [digits.go,small]
    · simp only [digits.go,small,if_false]
      rw [ih (n / 10) (by omega) fuel (by omega),ih (n / 10) (by omega) n (by omega),
        List.append_assoc]
      rfl

theorem digits_small {n : Nat} (small : n < 10) : digits n = [n] := by
  simp [digits,digits.go,small]

theorem digits_large {n : Nat} (large : 10 ≤ n) : digits n = digits (n / 10) ++ [n % 10] := by
  rw [digits,digits.go,if_neg (by omega),digits_go n (n / 10) (by omega)]

/-- The number that a list of digits stands for. -/
def ofDigits (ds : List Nat) : Nat := ds.foldl (fun n d => n * 10 + d) 0

theorem ofDigits_append_singleton (ds : List Nat) (d : Nat) :
    ofDigits (ds ++ [d]) = ofDigits ds * 10 + d := by
  simp [ofDigits]

theorem ofDigits_digits (n : Nat) : ofDigits (digits n) = n := by
  induction n using Nat.strongRecOn with
  | ind n ih =>
    by_cases small : n < 10
    · simp [digits_small small,ofDigits]
    · rw [digits_large (by omega),ofDigits_append_singleton,ih (n / 10) (by omega)]
      omega

theorem digits_injective {m n : Nat} (same : digits m = digits n) : m = n := by
  rw [← ofDigits_digits m,same,ofDigits_digits]

theorem digits_ne_nil (n : Nat) : digits n ≠ [] := by
  by_cases small : n < 10
  · simp [digits_small small]
  · simp [digits_large (Nat.le_of_not_lt small)]

theorem digits_lt_ten (n : Nat) : ∀ d ∈ digits n, d < 10 := by
  induction n using Nat.strongRecOn with
  | ind n ih =>
    intro d member
    by_cases small : n < 10
    · simp only [digits_small small,List.mem_singleton] at member
      omega
    · rw [digits_large (by omega)] at member
      rcases List.mem_append.mp member with front | last
      · exact ih (n / 10) (by omega) d front
      · simp only [List.mem_singleton] at last
        omega

theorem digits_getLast (n : Nat) : (digits n).getLast? = some (n % 10) := by
  by_cases small : n < 10
  · simp [digits_small small,Nat.mod_eq_of_lt small]
  · simp [digits_large (Nat.le_of_not_lt small)]

theorem foldl_digits (ds : List Nat) (n : Nat) :
    ds.foldl (fun n d => n * 10 + d) n = n * 10 ^ ds.length + ofDigits ds := by
  induction ds generalizing n with
  | nil => simp [ofDigits]
  | cons d ds ih =>
    have head : ofDigits (d :: ds) = (0 * 10 + d) * 10 ^ ds.length + ofDigits ds := ih (0 * 10 + d)
    rw [List.foldl_cons,ih,head,List.length_cons,Nat.pow_succ,Nat.add_mul,Nat.mul_right_comm,
      ← Nat.mul_assoc,Nat.zero_mul,Nat.zero_add,Nat.add_assoc]

theorem ofDigits_cons (d : Nat) (ds : List Nat) :
    ofDigits (d :: ds) = d * 10 ^ ds.length + ofDigits ds := by
  rw [ofDigits,List.foldl_cons,foldl_digits,Nat.zero_mul,Nat.zero_add]

theorem ofDigits_append (front back : List Nat) :
    ofDigits (front ++ back) = ofDigits front * 10 ^ back.length + ofDigits back := by
  rw [ofDigits,List.foldl_append,foldl_digits]
  rfl

theorem ofDigits_zeros (n : Nat) : ofDigits (List.replicate n 0) = 0 := by
  induction n with
  | zero => rfl
  | succ n ih => rw [List.replicate_succ,ofDigits_cons,ih,Nat.zero_mul]

theorem ofDigits_lt {ds : List Nat} (small : ∀ d ∈ ds, d < 10) : ofDigits ds < 10 ^ ds.length := by
  induction ds with
  | nil => simp [ofDigits]
  | cons d ds ih =>
    obtain ⟨first,others⟩ := List.forall_mem_cons.mp small
    have rest := ih others
    have lead : d * 10 ^ ds.length ≤ 9 * 10 ^ ds.length := Nat.mul_le_mul_right _ (by omega)
    rw [ofDigits_cons,List.length_cons,Nat.pow_succ]
    omega

/-- How many digits a number has tells its power of ten. -/
theorem digits_length {n : Nat} (positive : 0 < n) :
    10 ^ ((digits n).length - 1) ≤ n ∧ n < 10 ^ (digits n).length := by
  induction n using Nat.strongRecOn with
  | ind n ih =>
    by_cases small : n < 10
    · rw [digits_small small]
      exact ⟨positive,small⟩
    · obtain ⟨low,high⟩ := ih (n / 10) (by omega) (by omega)
      have some : 0 < (digits (n / 10)).length := List.length_pos_iff.mpr (digits_ne_nil _)
      rw [digits_large (by omega),List.length_append,List.length_singleton,Nat.add_sub_cancel]
      constructor
      · obtain ⟨k,same⟩ := Nat.exists_eq_add_of_le' some
        rw [same,Nat.add_sub_cancel] at low
        rw [same,Nat.pow_succ]
        omega
      · rw [Nat.pow_succ]
        omega

theorem digits_head {n : Nat} (positive : 0 < n) : ∃ d ds, digits n = d :: ds ∧ d ≠ 0 := by
  induction n using Nat.strongRecOn with
  | ind n ih =>
    by_cases small : n < 10
    · exact ⟨n,[],digits_small small,Nat.ne_of_gt positive⟩
    · obtain ⟨d,ds,front,nonzero⟩ := ih (n / 10) (by omega) (by omega)
      exact ⟨d,ds ++ [n % 10],by rw [digits_large (by omega),front,List.cons_append],nonzero⟩

/-- The character of a digit. -/
def digitChar (d : Nat) : Char := Char.ofNat (0x30 + d)

theorem toNat_charOfNat {n : Nat} (valid : n.isValidChar) : (Char.ofNat n).toNat = n := by
  rw [Char.ofNat,dif_pos valid]
  rfl

theorem toNat_digitChar {d : Nat} (small : d < 10) : (digitChar d).toNat = 0x30 + d :=
  toNat_charOfNat (Or.inl (by omega))

theorem toList_decimal (n : Nat) : (decimal n).toList = (digits n).map digitChar := by
  rw [decimal,String.toList_ofList]
  rfl

theorem decimal_injective {m n : Nat} (same : decimal m = decimal n) : m = n := by
  apply digits_injective
  have chars := congrArg String.toList same
  rw [toList_decimal,toList_decimal] at chars
  have values := congrArg (List.map fun c => c.toNat - 0x30) chars
  rw [List.map_map,List.map_map] at values
  have back (k : Nat) : (digits k).map ((fun c => c.toNat - 0x30) ∘ digitChar) = digits k := by
    rw [List.map_congr_left (g := id) fun d member => ?_,List.map_id]
    simp [toNat_digitChar (digits_lt_ten k d member)]
  rwa [back,back] at values

end NodeAudit

import NodeAudit.Proofs.Number.Shortest

/-! The digits that the text of a number shows. Read back, they make a number again: near the
greatest number the two roundings on the way could go beyond it, but do not. -/
namespace NodeAudit.Binary64

theorem trimmed_spec {point : Nat} (positive : 0 < point) (exponent : Int) :
    ∃ d ds zeros, trimmed ⟨point,exponent⟩ = (d :: ds,exponent + (zeros : Nat)) ∧ d ≠ 0 ∧
      digits point = d :: ds ++ List.replicate zeros 0 := by
  obtain ⟨d,rest,front,nonzero⟩ := digits_head positive
  let run := (digits point).reverse.takeWhile (· == 0)
  let left := (digits point).reverse.drop run.length
  have zeros : run = List.replicate run.length 0 := by
    refine List.eq_replicate_iff.mpr ⟨rfl,fun e member => ?_⟩
    exact eq_of_beq (List.all_eq_true.mp List.all_takeWhile e member)
  have split : digits point = left.reverse ++ List.replicate run.length 0 := by
    have whole : (digits point).reverse = run ++ left :=
      (List.prefix_iff_eq_append.mp (List.takeWhile_prefix _)).symm
    rw [← List.reverse_reverse (digits point),whole,List.reverse_append,zeros,
      List.reverse_replicate,List.length_replicate]
  cases shape : left.reverse with
  | nil =>
    rw [shape,List.nil_append,front] at split
    have member : d ∈ List.replicate run.length 0 := split ▸ List.mem_cons_self
    exact absurd (List.eq_of_mem_replicate member) nonzero
  | cons e ds =>
    rw [shape] at split
    have same : d = e := by
      rw [front,List.cons_append] at split
      exact (List.cons.inj split).1
    refine ⟨e,ds,run.length,?_,same ▸ nonzero,split⟩
    rw [trimmed]
    exact Prod.ext shape rfl

/-- The decimal whose digits are shown. -/
def shown (x : Binary64) : Decimal :=
  ⟨ofDigits (trimmed x.shortest).1,(trimmed x.shortest).2⟩

/-- Below the three greatest numbers there is room for two roundings. -/
theorem room_above {x : Binary64} (below : x.magnitude.val < patterns - 3) :
    (real x + half x) * (1 + 1 / 2 ^ 53) ^ 2 ≤ greatest := by
  have power : twoTo 52 = 4503599627370496 := by decide
  have small := significand_lt x
  have top := (exponent_bounds x).2
  have sum : real x + half x = (x.significand + 1 / 2) * 2 ^ x.exponent := by
    rw [real,half]
    ring
  have unit : (0 : ℚ) < 2 ^ (971 : Int) := by positivity
  rw [sum,greatest]
  rcases Int.lt_or_eq_of_le top with inside | edge
  · have coarse : (2 : ℚ) ^ x.exponent ≤ 2 ^ (971 : Int) / 2 := by
      rw [div_eq_mul_inv,← zpow_sub_one₀ (two_ne_zero : (2 : ℚ) ≠ 0)]
      exact zpow_le_zpow_right₀ one_le_two (by omega)
    have bound : (x.significand : ℚ) + 1 / 2 ≤ 2 ^ 53 := by
      have whole : (x.significand : ℚ) + 1 ≤ 2 ^ 53 := by exact_mod_cast small
      linarith
    have product := mul_le_mul bound coarse (by positivity) (by positivity)
    generalize (2 : ℚ) ^ (971 : Int) = u at *
    linarith
  · have last : x.significand ≤ 9007199254740988 := by
      rw [exponent,power] at edge
      simp only [patterns] at below
      rw [significand,power,if_neg (by omega)]
      omega
    have bound : (x.significand : ℚ) + 1 / 2 ≤ 2 ^ 53 - 7 / 2 := by
      have whole : (x.significand : ℚ) ≤ 9007199254740988 := by exact_mod_cast last
      linarith
    have product := mul_le_mul_of_nonneg_right bound unit.le
    rw [edge]
    generalize (2 : ℚ) ^ (971 : Int) = u at *
    linarith

theorem shown_top (negative : Bool) (k : Fin 3) :
    ((shown ⟨negative,⟨patterns - 1 - k,by simp only [patterns]; omega⟩⟩).stepwise?).isSome =
      true := by
  revert negative k
  decide +kernel

/-- The digits shown and the decimal that they are the digits of are the same number. -/
theorem shown_spec {x : Binary64} (nonzero : x.isZero = false) :
    ∃ d ds last, trimmed x.shortest = (d :: ds,last) ∧ d ≠ 0 ∧ (∀ e ∈ d :: ds, e < 10) ∧
      ds.length < 18 ∧ -400 < last ∧
      (ofDigits (d :: ds) : ℚ) * 10 ^ last ≤ real x + half x := by
  obtain ⟨point,place,shape,some,bound,near,least⟩ := shortest_spec nonzero
  obtain ⟨d,ds,zeros,cut,first,split⟩ := trimmed_spec some place
  have value : point = ofDigits (d :: ds) * 10 ^ zeros := by
    rw [← ofDigits_digits point,split,ofDigits_append,ofDigits_zeros,List.length_replicate,
      Nat.add_zero]
  refine ⟨d,ds,_,by rw [shape,cut],first,fun e member => ?_,?_,by omega,?_⟩
  · exact digits_lt_ten point e (split ▸ List.mem_append_left _ member)
  · have length := (digits_length some).1
    rw [split,List.cons_append,List.length_cons,Nat.add_sub_cancel,List.length_append] at length
    have order : ds.length + (List.replicate zeros 0).length < 18 :=
      (Nat.pow_lt_pow_iff_right (show 1 < 10 by omega)).mp (length.trans_lt bound)
    omega
  · rw [value] at near
    rw [zpow_add₀ (by norm_num),zpow_natCast]
    push_cast at near
    linarith

theorem two_power_le_ten : (2 : ℚ) ^ (1024 : Int) ≤ 10 ^ (309 : Int) := by
  have powers : ((2 ^ 1024 : Nat) : ℚ) ≤ (tenTo 309 : Nat) := by
    rw [Nat.cast_le]
    decide +kernel
  rw [Decimal.tenTo_cast,Nat.cast_pow,Nat.cast_two] at powers
  exact powers

theorem greatest_lt_ten : greatest < 10 ^ (309 : Int) := greatest_lt.trans_le two_power_le_ten

theorem ofDigits_pos {d : Nat} (nonzero : d ≠ 0) (ds : List Nat) : 0 < ofDigits (d :: ds) := by
  rw [ofDigits_cons]
  exact Nat.add_pos_left (Nat.mul_pos (Nat.pos_of_ne_zero nonzero) (Nat.pow_pos (by omega))) _

/-- The exponent that is shown is small, on either side. -/
theorem shown_last_lt {x : Binary64} {d : Nat} (nonzero : d ≠ 0) {ds : List Nat} {last : Int}
    (near : (ofDigits (d :: ds) : ℚ) * 10 ^ last ≤ real x + half x) : last < 309 := by
  by_contra beyond
  have least : (1 : ℚ) ≤ ofDigits (d :: ds) := by exact_mod_cast ofDigits_pos nonzero ds
  have lifted : (1 : ℚ) * 10 ^ last ≤ ofDigits (d :: ds) * 10 ^ last :=
    mul_le_mul_of_nonneg_right least (by positivity)
  have power : (10 : ℚ) ^ (309 : Int) ≤ 10 ^ last := zpow_le_zpow_right₀ (by norm_num) (by omega)
  have small : (x.significand : ℚ) + 1 ≤ 2 ^ 53 := by exact_mod_cast significand_lt x
  have unit : (0 : ℚ) < 2 ^ x.exponent := by positivity
  have above : real x + half x < 2 ^ (1024 : Int) :=
    calc real x + half x = (x.significand + 1 / 2) * 2 ^ x.exponent := by rw [real,half]; ring
      _ < 2 ^ 53 * 2 ^ x.exponent := mul_lt_mul_of_pos_right (by linarith) unit
      _ = 2 ^ (53 + x.exponent) := by rw [zpow_add₀ two_ne_zero]; norm_cast
      _ ≤ 2 ^ (1024 : Int) :=
        zpow_le_zpow_right₀ one_le_two (by have top := (exponent_bounds x).2; omega)
  rw [one_mul] at lifted
  exact absurd (power.trans (lifted.trans near)) (not_le.mpr (above.trans_le two_power_le_ten))

theorem ofDigits_small {ds : List Nat} (small : ∀ d ∈ ds, d < 10) (length : ds.length ≤ 18) :
    ofDigits ds < 2 ^ 63 := by
  have power : 10 ^ ds.length ≤ 10 ^ 18 := Nat.pow_le_pow_right (by omega) length
  have less := ofDigits_lt small
  omega

/-- What is shown of a number can be scaled back to a number. -/
theorem shown_stepwise {x : Binary64} (nonzero : x.isZero = false) :
    ∃ y, (shown x).stepwise? = some y := by
  obtain ⟨d,ds,last,cut,first,small,length,-,near⟩ := shown_spec nonzero
  have shape : shown x = ⟨ofDigits (d :: ds),last⟩ := by rw [shown,cut]
  rcases Int.lt_or_le last 0 with down | up
  · rw [shape]
    exact Decimal.stepwise?_down (ofDigits_small small (by rw [List.length_cons]; omega)) down
  by_cases below : x.magnitude.val < patterns - 3
  · have some := ofDigits_pos first ds
    have fits : (ofDigits (d :: ds) : ℚ) * 10 ^ last * (1 + 1 / 2 ^ 53) ^ 2 ≤ greatest :=
      (mul_le_mul_of_nonneg_right near (by positivity)).trans (room_above below)
    rw [shape]
    refine Decimal.stepwise?_up some up ?_ fits
    show last ≤ 308
    by_contra beyond
    have least : (1 : ℚ) ≤ ofDigits (d :: ds) := by exact_mod_cast some
    have two : (1 : ℚ) ≤ (1 + 1 / 2 ^ 53) ^ 2 := by norm_num
    have lifted : (10 : ℚ) ^ last ≤ greatest :=
      calc (10 : ℚ) ^ last = 1 * 10 ^ last * 1 := by ring
        _ ≤ ofDigits (d :: ds) * 10 ^ last * (1 + 1 / 2 ^ 53) ^ 2 :=
          mul_le_mul (mul_le_mul_of_nonneg_right least (by positivity)) two (by positivity)
            (by positivity)
        _ ≤ greatest := fits
    have power : (10 : ℚ) ^ (309 : Int) ≤ 10 ^ last :=
      zpow_le_zpow_right₀ (by norm_num) (by omega)
    exact absurd (power.trans lifted) (not_le.mpr greatest_lt_ten)
  · have bound := x.magnitude.isLt
    simp only [patterns] at below bound
    have top := shown_top x.negative ⟨patterns - 1 - x.magnitude.val,by simp only [patterns]; omega⟩
    have same : x.magnitude = ⟨patterns - 1 - (patterns - 1 - x.magnitude.val),by
        simp only [patterns]; omega⟩ := by
      apply Fin.ext
      simp only [patterns]
      omega
    rw [Option.isSome_iff_exists,← same] at top
    exact top

end NodeAudit.Binary64

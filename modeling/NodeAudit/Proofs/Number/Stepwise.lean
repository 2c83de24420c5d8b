import NodeAudit.Proofs.Number.Rounding

/-! Scaling a significand by powers of ten, rounding at each step. It never fails on the way down,
and on the way up only near the greatest number. -/
namespace NodeAudit.Binary64

theorem real_nonneg (x : Binary64) : 0 ≤ real x := by
  rw [real]
  positivity

theorem real_zero (negative : Bool) : real ⟨negative,Binary64.zero.magnitude⟩ = 0 := by
  simp [real,significand,Binary64.zero]

theorem significand_pos {x : Binary64} (positive : 0 < real x) : 0 < x.significand := by
  rw [real] at positive
  by_contra zero
  rw [Nat.eq_zero_of_not_pos zero] at positive
  simp at positive

/-- A natural number is rounded by at most half a unit in the last place. -/
theorem ofNat?_near {n : Nat} (positive : 0 < n) (whole : (n : ℚ) ≤ greatest) :
    ∃ x, ofNat? n = some x ∧ |real x - n| ≤ n / 2 ^ 53 := by
  have same : (n : ℚ) / (1 : Nat) * 2 ^ (0 : Int) = n := by norm_num
  obtain ⟨m,unit,r,found,rounded,value⟩ := nearest?_rounded positive Nat.one_pos 0 (by rwa [same])
  rw [same] at rounded
  refine ⟨⟨false,m⟩,by rw [ofNat?,found]; rfl,?_⟩
  rw [value]
  refine rounded.relative ?_
  have least : (1 : ℚ) ≤ n := by exact_mod_cast positive
  exact (zpow_le_one_of_nonpos₀ one_le_two (by omega)).trans least

theorem times?_some {x y : Binary64} (whole : real x * real y ≤ greatest) :
    ∃ z, x.times? y = some z := by
  by_cases zero : x.significand * y.significand = 0
  · exact ⟨⟨x.negative,Binary64.zero.magnitude⟩,by rw [times?,zero]; rfl⟩
  · have same : ((x.significand * y.significand : Nat) : ℚ) / (1 : Nat) *
        2 ^ (x.exponent + y.exponent) = real x * real y := by
      rw [real,real,zpow_add₀ two_ne_zero]
      push_cast
      ring
    obtain ⟨m,_,_,found,-,-⟩ := nearest?_rounded (Nat.pos_of_ne_zero zero) Nat.one_pos
      (x.exponent + y.exponent) (by rwa [same])
    exact ⟨⟨x.negative,m⟩,by rw [times?,found]; rfl⟩

/-- Dividing by two or more keeps a number below a bound that it is below. -/
theorem over?_some {x y : Binary64} (small : real x ≤ 2 ^ 64) (large : 2 ≤ real y) :
    ∃ z, x.over? y = some z ∧ real z ≤ 2 ^ 64 := by
  by_cases zero : x.significand = 0
  · refine ⟨⟨x.negative,Binary64.zero.magnitude⟩,by rw [over?,zero]; rfl,?_⟩
    rw [real_zero]
    positivity
  · have divisor : 0 < y.significand := significand_pos (two_pos.trans_le large)
    have same : (x.significand : ℚ) / y.significand * 2 ^ (x.exponent - y.exponent) =
        real x / real y := by
      rw [real,real,zpow_sub₀ two_ne_zero]
      field_simp
    have quotient : real x / real y ≤ 2 ^ 63 := by
      rw [div_le_iff₀ (two_pos.trans_le large)]
      linarith
    have whole : real x / real y ≤ greatest :=
      quotient.trans (by exact_mod_cast le_greatest (show 2 ^ 63 ≤ _ by decide +kernel))
    obtain ⟨m,unit,r,found,rounded,value⟩ := nearest?_rounded (Nat.pos_of_ne_zero zero) divisor
      (x.exponent - y.exponent) (by rwa [same])
    rw [same] at rounded
    refine ⟨⟨x.negative,m⟩,by rw [over?,found]; rfl,?_⟩
    rw [value]
    have grid : (2 : ℚ) ^ unit ≤ 2 ^ 63 := by
      rcases rounded.above with lowest | above
      · rw [lowest]
        exact (zpow_le_one_of_nonpos₀ one_le_two (by omega)).trans (by norm_num)
      · exact ((zpow_le_zpow_right₀ one_le_two (by omega)).trans above).trans quotient
    have distance := (abs_le.mp rounded.near).2
    linarith

end NodeAudit.Binary64

namespace NodeAudit.Decimal
open Binary64

theorem tenTo_cast (n : Nat) : ((tenTo n : Nat) : ℚ) = 10 ^ n := by
  rw [tenTo,Nat.pow_eq,Nat.cast_pow]
  norm_num

theorem tenTo_mono {m n : Nat} (le : m ≤ n) : tenTo m ≤ tenTo n :=
  Nat.pow_le_pow_right (by omega) le

theorem power_near {k : Nat} (bound : k ≤ 308) :
    |real (power k) - 10 ^ k| ≤ 10 ^ k / 2 ^ 53 := by
  have whole : ((tenTo k : Nat) : ℚ) ≤ greatest :=
    le_greatest ((tenTo_mono bound).trans (by decide +kernel))
  have some : 0 < tenTo k := Nat.pow_pos (by omega)
  obtain ⟨x,found,near⟩ := ofNat?_near some whole
  rw [tenTo_cast] at near
  rw [power,found]
  exact near

theorem two_le_power {k : Nat} (positive : 0 < k) (bound : k ≤ 308) : 2 ≤ real (power k) := by
  have near := (abs_le.mp (power_near bound)).1
  have ten : (10 : ℚ) ≤ 10 ^ k := le_self_pow₀ (by norm_num) positive.ne'
  generalize (10 : ℚ) ^ k = p at near ten
  linarith

theorem scale?_down {fuel : Nat} {x : Binary64} {exponent : Int} (small : real x ≤ 2 ^ 64)
    (down : exponent < 0) (enough : exponent.natAbs < fuel) :
    ∃ z, scale? fuel x exponent = some z := by
  induction fuel generalizing x exponent with
  | zero => omega
  | succ fuel ih =>
    rw [scale?,if_neg (by omega)]
    split
    next near =>
      obtain ⟨z,found,-⟩ := over?_some small
        (two_le_power (show 0 < (-exponent).toNat by omega) (by omega))
      exact ⟨z,found⟩
    next far =>
      split
      next => exact ⟨x,rfl⟩
      next =>
        rw [if_neg (by omega)]
        obtain ⟨y,found,bound⟩ := over?_some small
          (two_le_power (show 0 < 308 by omega) le_rfl)
        rw [found]
        exact ih bound (by omega) (by omega)

/-- A significand of 63 bits can be scaled down without end. -/
theorem stepwise?_down {d : Decimal} (bound : d.significand < 2 ^ 63) (down : d.exponent < 0) :
    ∃ x, d.stepwise? = some x := by
  have below : (d.significand : ℚ) < 2 ^ 63 := by exact_mod_cast bound
  rw [stepwise?]
  by_cases zero : d.significand = 0
  · have small : real ⟨false,Binary64.zero.magnitude⟩ ≤ 2 ^ 64 := by
      rw [real_zero]
      positivity
    rw [zero]
    exact scale?_down small down (by omega)
  · obtain ⟨x,found,near⟩ := ofNat?_near (Nat.pos_of_ne_zero zero)
      (below.le.trans (by exact_mod_cast le_greatest (show 2 ^ 63 ≤ _ by decide +kernel)))
    have upper := (abs_le.mp near).2
    rw [found]
    exact scale?_down (by linarith) down (by omega)

/-- It can be scaled up as long as the result stays below the greatest number by two roundings. -/
theorem stepwise?_up {d : Decimal} (positive : 0 < d.significand) (up : 0 ≤ d.exponent)
    (limit : d.exponent ≤ 308)
    (whole : d.significand * 10 ^ d.exponent * (1 + 1 / 2 ^ 53) ^ 2 ≤ greatest) :
    ∃ x, d.stepwise? = some x := by
  obtain ⟨k,same⟩ := Int.eq_ofNat_of_zero_le up
  have least : (1 : ℚ) ≤ 10 ^ d.exponent * (1 + 1 / 2 ^ 53) ^ 2 := by
    rw [same,zpow_natCast]
    exact one_le_mul_of_one_le_of_one_le (one_le_pow₀ (by norm_num)) (by norm_num)
  have fits : (d.significand : ℚ) ≤ greatest := by
    refine le_trans ?_ whole
    rw [mul_assoc]
    exact le_mul_of_one_le_right (Nat.cast_nonneg _) least
  obtain ⟨x,found,near⟩ := ofNat?_near positive fits
  have upper := (abs_le.mp near).2
  rw [stepwise?,found]
  show ∃ z, scale? (d.exponent.natAbs + 1) x d.exponent = some z
  rw [scale?,if_pos ⟨up,limit⟩,same,Int.toNat_natCast]
  refine times?_some (le_trans ?_ whole)
  have factor := (abs_le.mp (power_near (show k ≤ 308 by omega))).2
  rw [same,zpow_natCast]
  calc real x * real (power k)
      ≤ (d.significand * (1 + 1 / 2 ^ 53)) * (10 ^ k * (1 + 1 / 2 ^ 53)) :=
        mul_le_mul (by linarith) (by linarith) (real_nonneg _) (by positivity)
    _ = d.significand * 10 ^ k * (1 + 1 / 2 ^ 53) ^ 2 := by ring

end NodeAudit.Decimal

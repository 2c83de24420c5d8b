import NodeAudit.Number.Shortest
import NodeAudit.Proofs.Number.Stepwise
import NodeAudit.Proofs.Text.Decimal

/-! The shortest decimal lies among the reals that round to its number, and it takes seventeen
digits at most: the grid of seventeen is finer than the distance between two numbers. -/
namespace NodeAudit.Binary64

/-- Half the distance to the next number. -/
def half (x : Binary64) : ℚ := 2 ^ x.exponent / 2

theorem power_ratio {ten : Nat} (base : 0 < ten) (e : Int) :
    ((ten ^ e.toNat : Nat) : ℚ) / (ten ^ (-e).toNat : Nat) = (ten : ℚ) ^ e := by
  have nonzero : (ten : ℚ) ≠ 0 := by exact_mod_cast base.ne'
  push_cast
  rw [← zpow_natCast,← zpow_natCast,← zpow_sub₀ nonzero]
  congr 1
  omega

theorem ten_split (e : Int) :
    (10 : ℚ) ^ e * (tenTo (-e).toNat : Nat) = (tenTo e.toNat : Nat) := by
  have ratio := power_ratio (show 0 < 10 by omega) e
  push_cast at ratio
  rw [Decimal.tenTo_cast,Decimal.tenTo_cast,← ratio]
  field_simp

theorem significand_lt (x : Binary64) : x.significand < 2 ^ 53 := by
  have power : twoTo 52 = 4503599627370496 := by decide
  rw [significand,power]
  split <;> omega

theorem significand_pos_of_nonzero {x : Binary64} (nonzero : x.isZero = false) :
    0 < x.significand := by
  have power : twoTo 52 = 4503599627370496 := by decide
  simp only [isZero,beq_eq_false_iff_ne] at nonzero
  rw [significand,power]
  split <;> omega

theorem exponent_bounds (x : Binary64) : -1074 ≤ x.exponent ∧ x.exponent ≤ 971 := by
  have power : twoTo 52 = 4503599627370496 := by decide
  have bound := x.magnitude.isLt
  rw [exponent,power]
  simp only [patterns] at bound
  omega

section
variable (x : Binary64)

theorem basin_den_pos : (0 : ℚ) < x.basin.den := by
  rw [basin,twoTo_cast]
  positivity

theorem basin_factor : ((twoTo (x.exponent - 2).toNat : Nat) : ℚ) / x.basin.den =
    2 ^ (x.exponent - 2) :=
  power_ratio two_pos (x.exponent - 2)

theorem quarter : (2 : ℚ) ^ (x.exponent - 2) = half x / 2 := by
  rw [half,zpow_sub₀ two_ne_zero]
  norm_num
  ring

theorem basin_middle : (x.basin.middle : ℚ) / x.basin.den = real x := by
  have factor := basin_factor x
  rw [quarter] at factor
  have middle : (x.basin.middle : ℚ) = 4 * x.significand * (twoTo (x.exponent - 2).toNat : Nat) := by
    rw [basin]
    push_cast
    rfl
  rw [middle,mul_div_assoc,factor,real,half]
  ring

theorem basin_high : (x.basin.high : ℚ) / x.basin.den = real x + half x := by
  have factor := basin_factor x
  rw [quarter] at factor
  have high : (x.basin.high : ℚ) =
      (4 * x.significand + 2) * (twoTo (x.exponent - 2).toNat : Nat) := by
    rw [basin]
    push_cast
    rfl
  rw [high,mul_div_assoc,factor,real,half]
  ring

/-- Below a number its basin reaches half of half the distance at least, and less than half of it
only where the number is a power of two. -/
theorem basin_low (positive : 0 < x.significand) :
    (x.basin.low : ℚ) / x.basin.den = real x - half x ∨
      x.significand = 2 ^ 52 ∧ (x.basin.low : ℚ) / x.basin.den = real x - half x / 2 := by
  have factor := basin_factor x
  rw [quarter] at factor
  by_cases edge : x.significand = twoTo 52 ∧ -1074 < x.exponent
  · right
    have low : (x.basin.low : ℚ) =
        (4 * x.significand - 1) * (twoTo (x.exponent - 2).toNat : Nat) := by
      rw [basin]
      dsimp only
      rw [if_pos edge,Nat.cast_mul,Nat.cast_sub (by omega)]
      push_cast
      rfl
    refine ⟨edge.1,?_⟩
    rw [low,mul_div_assoc,factor,real,half]
    ring
  · left
    have low : (x.basin.low : ℚ) =
        (4 * x.significand - 2) * (twoTo (x.exponent - 2).toNat : Nat) := by
      rw [basin]
      dsimp only
      rw [if_neg edge,Nat.cast_mul,Nat.cast_sub (by omega)]
      push_cast
      rfl
    rw [low,mul_div_assoc,factor,real,half]
    ring

/-- The ends of the basin and the points of a grid over one denominator. -/
theorem scaled (n digits : Nat) (exponent : Int) : ∃ scale : ℚ, 0 < scale ∧
    (n : ℚ) / x.basin.den * scale = (n * tenTo (-exponent).toNat : Nat) ∧
    (digits : ℚ) * 10 ^ exponent * scale =
      (digits * tenTo exponent.toNat * x.basin.den : Nat) := by
  have den := basin_den_pos x
  have unit : (0 : ℚ) < (tenTo (-exponent).toNat : Nat) := by
    rw [Decimal.tenTo_cast]
    positivity
  refine ⟨x.basin.den * (tenTo (-exponent).toNat : Nat),mul_pos den unit,?_,?_⟩
  · push_cast
    field_simp
  · rw [Nat.cast_mul,Nat.cast_mul,← ten_split exponent]
    ring

theorem holds_bounds {digits : Nat} {exponent : Int} (holds : x.basin.holds digits exponent = true) :
    (x.basin.low : ℚ) / x.basin.den ≤ digits * 10 ^ exponent ∧
      (digits : ℚ) * 10 ^ exponent ≤ x.basin.high / x.basin.den := by
  have inside : x.basin.low * tenTo (-exponent).toNat ≤
        digits * tenTo exponent.toNat * x.basin.den ∧
      digits * tenTo exponent.toNat * x.basin.den ≤ x.basin.high * tenTo (-exponent).toNat := by
    rw [Basin.holds] at holds
    split at holds
    · simpa using holds
    · simp only [Bool.and_eq_true,decide_eq_true_eq] at holds
      exact ⟨holds.1.le,holds.2.le⟩
  obtain ⟨_,positive,low,point⟩ := scaled x x.basin.low digits exponent
  obtain ⟨_,also,high,again⟩ := scaled x x.basin.high digits exponent
  constructor
  · refine le_of_mul_le_mul_right ?_ positive
    rw [low,point]
    exact_mod_cast inside.1
  · refine le_of_mul_le_mul_right ?_ also
    rw [high,again]
    exact_mod_cast inside.2

theorem holds_of_between {digits : Nat} {exponent : Int}
    (low : (x.basin.low : ℚ) / x.basin.den < digits * 10 ^ exponent)
    (high : (digits : ℚ) * 10 ^ exponent < x.basin.high / x.basin.den) :
    x.basin.holds digits exponent = true := by
  obtain ⟨_,positive,left,point⟩ := scaled x x.basin.low digits exponent
  obtain ⟨_,also,right,again⟩ := scaled x x.basin.high digits exponent
  have above := mul_lt_mul_of_pos_right low positive
  have below := mul_lt_mul_of_pos_right high also
  rw [left,point,Nat.cast_lt] at above
  rw [right,again,Nat.cast_lt] at below
  rw [Basin.holds]
  split
  · simp only [Bool.and_eq_true,decide_eq_true_eq]
    exact ⟨above.le,below.le⟩
  · simp only [Bool.and_eq_true,decide_eq_true_eq]
    exact ⟨above,below⟩

theorem tiny_le_real (positive : 0 < x.significand) : (2 : ℚ) ^ (-1074 : Int) ≤ real x := by
  have least : (1 : ℚ) ≤ x.significand := by exact_mod_cast positive
  rw [real]
  calc (2 : ℚ) ^ (-1074 : Int) ≤ 2 ^ x.exponent :=
        zpow_le_zpow_right₀ one_le_two (exponent_bounds x).1
    _ = 1 * 2 ^ x.exponent := (one_mul _).symm
    _ ≤ x.significand * 2 ^ x.exponent := mul_le_mul_of_nonneg_right least (by positivity)

theorem one_le_scaled (positive : 0 < x.significand) : 1 ≤ real x * 10 ^ 350 := by
  have powers : ((2 ^ 1074 : Nat) : ℚ) ≤ (tenTo 350 : Nat) := by
    rw [Nat.cast_le]
    decide +kernel
  rw [Decimal.tenTo_cast,Nat.cast_pow] at powers
  calc (1 : ℚ) = 2 ^ (-1074 : Int) * 2 ^ 1074 := by
        rw [zpow_neg,zpow_ofNat,inv_mul_cancel₀ (by positivity)]
    _ ≤ real x * 10 ^ 350 :=
      mul_le_mul (tiny_le_real x positive) powers (by positivity) (real_nonneg x)

theorem floor_bounds {num den : Nat} (positive : 0 < den) :
    ((num / den : Nat) : ℚ) ≤ num / den ∧ (num : ℚ) / den < (num / den : Nat) + 1 := by
  have bound : (0 : ℚ) < den := by exact_mod_cast positive
  have left : ((num % den : Nat) : ℚ) / den < 1 := by
    rw [div_lt_one bound]
    exact_mod_cast Nat.mod_lt num positive
  have nonneg : (0 : ℚ) ≤ (num % den : Nat) / (den : ℚ) := by positivity
  rw [div_eq_add_mod positive]
  constructor <;> linarith

/-- The size of a basin is the power of ten next above its number. -/
theorem size_bounds (positive : 0 < x.significand) :
    (10 : ℚ) ^ (x.basin.size - 1) ≤ real x ∧ real x < 10 ^ x.basin.size := by
  have den : 0 < x.basin.den := by exact_mod_cast basin_den_pos x
  have shifted : ((x.basin.middle * tenTo 350 : Nat) : ℚ) / x.basin.den = real x * 10 ^ 350 := by
    rw [← basin_middle,Nat.cast_mul,Decimal.tenTo_cast,mul_div_right_comm]
  obtain ⟨floor,ceiling⟩ := @floor_bounds (x.basin.middle * tenTo 350) _ den
  have scaled := one_le_scaled x positive
  rw [shifted] at floor ceiling
  rw [Basin.size]
  generalize x.basin.middle * tenTo 350 / x.basin.den = n at *
  have some : 0 < n := by
    by_contra none
    rw [Nat.eq_zero_of_not_pos none,Nat.cast_zero,zero_add] at ceiling
    exact absurd scaled (not_le.mpr ceiling)
  obtain ⟨low,high⟩ := digits_length some
  obtain ⟨len,length⟩ := Nat.exists_eq_add_of_le' (List.length_pos_iff.mpr (digits_ne_nil n))
  rw [length] at low high ⊢
  have unit : (0 : ℚ) < 10 ^ 350 := by positivity
  have power (k : Nat) : (10 : ℚ) ^ ((k : Int) - 350) * 10 ^ 350 = 10 ^ k := by
    rw [zpow_sub₀ (by norm_num),zpow_natCast,zpow_ofNat]
    exact div_mul_cancel₀ _ unit.ne'
  have below : (10 : ℚ) ^ len ≤ n := by exact_mod_cast low
  have above : (n : ℚ) + 1 ≤ 10 ^ (len + 1) := by exact_mod_cast high
  constructor
  · refine le_of_mul_le_mul_right ?_ unit
    rw [show ((len + 1 : Nat) : Int) - 350 - 1 = (len : Int) - 350 by omega,power]
    exact below.trans floor
  · refine lt_of_mul_lt_mul_right ?_ unit.le
    rw [power]
    exact ceiling.trans_le above

/-- A point of the grid of seventeen digits is nearer than either end of the basin. -/
theorem grid_near (positive : 0 < x.significand) :
    (10 : ℚ) ^ (x.basin.size - 17) / 2 < half x / 2 ∨
      x.significand ≠ 2 ^ 52 ∧ (10 : ℚ) ^ (x.basin.size - 17) / 2 < half x := by
  have size := (size_bounds x positive).1
  have grid : (10 : ℚ) ^ (x.basin.size - 17) * 10 ^ 16 = 10 ^ (x.basin.size - 1) := by
    rw [← zpow_natCast (10 : ℚ) 16,← zpow_add₀ (by norm_num)]
    congr 1
    push_cast
    omega
  rw [← grid,real] at size
  have unit : (0 : ℚ) < 2 ^ x.exponent := by positivity
  rw [half]
  generalize (10 : ℚ) ^ (x.basin.size - 17) = g at *
  generalize (2 : ℚ) ^ x.exponent = u at *
  by_cases edge : x.significand = 2 ^ 52
  · left
    rw [edge] at size
    push_cast at size
    linarith
  · right
    refine ⟨edge,?_⟩
    have bound : (x.significand : ℚ) ≤ 2 ^ 53 := by exact_mod_cast (significand_lt x).le
    have top : (x.significand : ℚ) * u ≤ 2 ^ 53 * u := mul_le_mul_of_nonneg_right bound unit.le
    linarith

theorem point?_seventeen (positive : 0 < x.significand) :
    ∃ point, x.basin.point? (x.basin.size - 17) = some point := by
  generalize place : x.basin.size - 17 = exponent
  have den : 0 < x.basin.den := by exact_mod_cast basin_den_pos x
  have grid : 0 < x.basin.den * tenTo exponent.toNat :=
    Nat.mul_pos den (Nat.pow_pos (by omega))
  have unit : (0 : ℚ) < 10 ^ exponent := by positivity
  have quotient : ((x.basin.middle * tenTo (-exponent).toNat : Nat) : ℚ) /
      (x.basin.den * tenTo exponent.toNat : Nat) = real x / 10 ^ exponent := by
    have scale : (0 : ℚ) < (tenTo (-exponent).toNat : Nat) := by
      rw [Decimal.tenTo_cast]
      positivity
    have divisor := basin_den_pos x
    rw [← basin_middle,Nat.cast_mul,Nat.cast_mul,← ten_split exponent]
    field_simp
  obtain ⟨down,up⟩ := @roundHalfEven_near (x.basin.middle * tenTo (-exponent).toNat) _ grid
  rw [quotient] at down up
  have inside : x.basin.holds (roundHalfEven (x.basin.middle * tenTo (-exponent).toNat)
      (x.basin.den * tenTo exponent.toNat)) exponent = true := by
    generalize roundHalfEven _ _ = point at *
    have whole : real x / 10 ^ exponent * 10 ^ exponent = real x := div_mul_cancel₀ _ unit.ne'
    have above := mul_le_mul_of_nonneg_right down unit.le
    have below := mul_le_mul_of_nonneg_right up unit.le
    rw [sub_mul,whole] at above
    rw [add_mul,whole] at below
    have close := grid_near x positive
    rw [place] at close
    have room : (0 : ℚ) < half x := by
      rw [half]
      positivity
    refine holds_of_between x ?_ ?_
    · rcases basin_low x positive with low | ⟨edge,low⟩
      · rw [low]
        rcases close with near | ⟨_,near⟩ <;> linarith
      · rw [low]
        rcases close with near | ⟨other,_⟩
        · linarith
        · exact absurd edge other
    · rw [basin_high]
      rcases close with near | ⟨_,near⟩ <;> linarith
  rw [Basin.point?,if_pos inside]
  exact ⟨_,rfl⟩

end

theorem point?_holds {basin : Basin} {exponent : Int} {point : Nat}
    (found : basin.point? exponent = some point) : basin.holds point exponent = true := by
  rw [Basin.point?] at found
  split at found
  next inside => exact Option.some.inj found ▸ inside
  next =>
    split at found
    all_goals
      split at found
      next inside => exact Option.some.inj found ▸ inside
      next => contradiction

theorem search_found {basin : Basin} {fuel : Nat} {exponent : Int} {k : Nat} (less : k < fuel)
    {point : Nat} (found : basin.point? (exponent - k) = some point) :
    ∃ digits place, search basin fuel exponent = ⟨digits,place⟩ ∧
      basin.holds digits place = true ∧ exponent - k ≤ place ∧ place ≤ exponent := by
  induction fuel generalizing exponent k with
  | zero => omega
  | succ fuel ih =>
    rw [search]
    split
    next digits here =>
      exact ⟨digits,exponent,rfl,point?_holds here,by omega,le_rfl⟩
    next none =>
      cases k with
      | zero =>
        rw [Nat.cast_zero,sub_zero,none] at found
        contradiction
      | succ k =>
        have next : exponent - ((k + 1 : Nat) : Int) = exponent - 1 - k := by omega
        rw [next] at found
        obtain ⟨digits,place,same,holds,low,high⟩ := ih (by omega) found
        exact ⟨digits,place,same,holds,by omega,by omega⟩

/-- The decimal of a number is a point of its basin on a grid of at most seventeen digits. -/
theorem shortest_spec {x : Binary64} (nonzero : x.isZero = false) :
    ∃ digits place, x.shortest = ⟨digits,place⟩ ∧ 0 < digits ∧ digits < 10 ^ 18 ∧
      (digits : ℚ) * 10 ^ place ≤ real x + half x ∧ -400 < place := by
  have positive := significand_pos_of_nonzero nonzero
  obtain ⟨point,found⟩ := point?_seventeen x positive
  obtain ⟨digits,place,same,holds,low,high⟩ :=
    @search_found x.basin 17 (x.basin.size - 1) 16 (by omega) point (by rw [← found]; congr 1; omega)
  obtain ⟨above,below⟩ := holds_bounds x holds
  rw [basin_high] at below
  have size := (size_bounds x positive).2
  have shape : x.shortest = ⟨digits,place⟩ := by
    rw [shortest,nonzero]
    exact same
  have room : (0 : ℚ) < half x := by
    rw [half]
    positivity
  have double : 2 * half x ≤ real x := by
    have least : (1 : ℚ) ≤ x.significand := by exact_mod_cast positive
    have scaled := mul_le_mul_of_nonneg_right least (show (0 : ℚ) ≤ 2 ^ x.exponent by positivity)
    rw [half,real]
    linarith
  have start : (0 : ℚ) < x.basin.low / x.basin.den := by
    rcases basin_low x positive with low | ⟨-,low⟩ <;> rw [low] <;> linarith
  have unit : (0 : ℚ) < 10 ^ place := by positivity
  refine ⟨digits,place,shape,?_,?_,below,?_⟩
  · have some : (0 : ℚ) < digits := pos_of_mul_pos_left (start.trans_le above) unit.le
    exact_mod_cast some
  · have grid : (0 : ℚ) < 10 ^ (x.basin.size - 17) := by positivity
    have finer : (10 : ℚ) ^ (x.basin.size - 17) ≤ 10 ^ place :=
      zpow_le_zpow_right₀ (by norm_num) (by omega)
    have points : (digits : ℚ) * 10 ^ (x.basin.size - 17) ≤ digits * 10 ^ place :=
      mul_le_mul_of_nonneg_left finer (Nat.cast_nonneg _)
    have power : (10 : ℚ) ^ x.basin.size = 10 ^ 17 * 10 ^ (x.basin.size - 17) := by
      rw [← zpow_natCast (10 : ℚ) 17,← zpow_add₀ (by norm_num)]
      congr 1
      push_cast
      omega
    have bound : (digits : ℚ) * 10 ^ (x.basin.size - 17) < 10 ^ 18 * 10 ^ (x.basin.size - 17) := by
      rw [power] at size
      generalize (10 : ℚ) ^ (x.basin.size - 17) = g at *
      linarith
    exact_mod_cast lt_of_mul_lt_mul_right bound grid.le
  · have least : -350 ≤ x.basin.size := by
      rw [Basin.size]
      omega
    omega

end NodeAudit.Binary64

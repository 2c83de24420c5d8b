import Mathlib.Algebra.Order.Field.Power
import Mathlib.Data.Rat.Cast.Order
import Mathlib.Tactic.FieldSimp
import Mathlib.Tactic.Linarith
import Mathlib.Tactic.NormNum
import Mathlib.Tactic.Positivity
import Mathlib.Tactic.Ring
import NodeAudit.Number.Decimal

/-! Rounding to binary numbers, told in rational numbers: how far it moves a quotient, and which
quotients it keeps finite. -/
namespace NodeAudit.Binary64

/-- The number that a magnitude stands for. -/
def real (x : Binary64) : ℚ := x.significand * 2 ^ x.exponent

theorem div_eq_add_mod {num den : Nat} (positive : 0 < den) :
    (num : ℚ) / den = (num / den : Nat) + (num % den : Nat) / (den : ℚ) := by
  have whole : (num : ℚ) = den * (num / den : Nat) + (num % den : Nat) := by
    exact_mod_cast (Nat.div_add_mod num den).symm
  have nonzero : (den : ℚ) ≠ 0 := by exact_mod_cast positive.ne'
  rw [whole]
  field_simp

theorem roundHalfEven_near {num den : Nat} (positive : 0 < den) :
    (num : ℚ) / den - 1 / 2 ≤ roundHalfEven num den ∧
      (roundHalfEven num den : ℚ) ≤ num / den + 1 / 2 := by
  have left : num % den < den := Nat.mod_lt num positive
  have bound : (0 : ℚ) < den := by exact_mod_cast positive
  rw [div_eq_add_mod positive]
  unfold roundHalfEven
  dsimp only
  split
  next up =>
    have half : (1 : ℚ) / 2 ≤ (num % den : Nat) / (den : ℚ) := by
      rw [div_le_div_iff₀ two_pos bound]
      exact_mod_cast (show 1 * den ≤ num % den * 2 by omega)
    have whole : ((num % den : Nat) : ℚ) / den ≤ 1 := by
      rw [div_le_one bound]
      exact_mod_cast left.le
    push_cast
    constructor <;> linarith
  next down =>
    have half : ((num % den : Nat) : ℚ) / den ≤ 1 / 2 := by
      rw [div_le_div_iff₀ bound two_pos]
      exact_mod_cast (show num % den * 2 ≤ 1 * den by omega)
    have whole : (0 : ℚ) ≤ (num % den : Nat) / (den : ℚ) := by positivity
    constructor <;> linarith

theorem roundHalfEven_le {num den k : Nat} (positive : 0 < den) (bound : num ≤ k * den) :
    roundHalfEven num den ≤ k := by
  have quotient : num / den ≤ k := Nat.div_le_of_le_mul (by rw [Nat.mul_comm]; exact bound)
  unfold roundHalfEven
  dsimp only
  split
  next up =>
    refine Nat.lt_of_le_of_ne quotient fun same => ?_
    have split := Nat.div_add_mod num den
    rw [same,Nat.mul_comm den k] at split
    omega
  next => exact quotient

theorem le_roundHalfEven {num den k : Nat} (positive : 0 < den) (bound : k * den ≤ num) :
    k ≤ roundHalfEven num den := by
  have quotient : k ≤ num / den := (Nat.le_div_iff_mul_le positive).mpr bound
  unfold roundHalfEven
  dsimp only
  split
  next => exact Nat.le_succ_of_le quotient
  next => exact quotient

theorem twoTo_cast (n : Nat) : ((twoTo n : Nat) : ℚ) = 2 ^ n := by
  rw [twoTo,Nat.pow_eq,Nat.cast_pow,Nat.cast_two]

/-- A scaled quotient is rounded like any other. -/
theorem roundScaled_eq {num den : Nat} (positive : 0 < den) (shift : Int) :
    ∃ a b : Nat, 0 < b ∧ roundScaled num den shift = roundHalfEven a b ∧
      (a : ℚ) / b = num / den * 2 ^ shift := by
  unfold roundScaled
  split
  next up =>
    refine ⟨_,_,positive,rfl,?_⟩
    obtain ⟨n,rfl⟩ := Int.eq_ofNat_of_zero_le up
    rw [Int.toNat_natCast,zpow_natCast,Nat.cast_mul,twoTo_cast]
    ring
  next down =>
    refine ⟨num,den * twoTo (-shift).toNat,Nat.mul_pos positive (Nat.two_pow_pos _),rfl,?_⟩
    obtain ⟨n,hn⟩ := Int.eq_ofNat_of_zero_le (show 0 ≤ -shift by omega)
    obtain rfl : shift = -n := by omega
    rw [neg_neg,Int.toNat_natCast,zpow_neg,zpow_natCast,Nat.cast_mul,twoTo_cast]
    field_simp

theorem log2_bounds {n : Nat} (positive : 0 < n) :
    (2 : ℚ) ^ (n.log2 : Int) ≤ n ∧ (n : ℚ) < 2 ^ ((n.log2 : Int) + 1) := by
  have low : 2 ^ n.log2 ≤ n := Nat.log2_self_le positive.ne'
  have high : n < 2 ^ (n.log2 + 1) := Nat.lt_log2_self
  constructor
  · rw [zpow_natCast]
    exact_mod_cast low
  · rw [← Nat.cast_one,← Nat.cast_add,zpow_natCast]
    exact_mod_cast high

theorem reached_iff (num : Nat) {den : Nat} (positive : 0 < den) (guess : Int) :
    (if 0 ≤ guess then den * twoTo guess.toNat ≤ num else den ≤ num * twoTo (-guess).toNat) ↔
      (2 : ℚ) ^ guess ≤ num / den := by
  have bound : (0 : ℚ) < den := by exact_mod_cast positive
  rw [le_div_iff₀ bound]
  split
  next up =>
    obtain ⟨n,rfl⟩ := Int.eq_ofNat_of_zero_le up
    rw [Int.toNat_natCast,zpow_natCast,← twoTo_cast,← Nat.cast_mul,Nat.cast_le,Nat.mul_comm]
  next down =>
    obtain ⟨n,hn⟩ := Int.eq_ofNat_of_zero_le (show 0 ≤ -guess by omega)
    obtain rfl : guess = -n := by omega
    rw [neg_neg,Int.toNat_natCast,zpow_neg,zpow_natCast,← twoTo_cast,inv_mul_le_iff₀,← Nat.cast_mul,
      Nat.cast_le,Nat.mul_comm]
    rw [twoTo_cast]
    positivity

theorem floorLog_bounds {num den : Nat} (first : 0 < num) (second : 0 < den) :
    (2 : ℚ) ^ floorLog num den ≤ num / den ∧ (num : ℚ) / den < 2 ^ (floorLog num den + 1) := by
  have bound : (0 : ℚ) < den := by exact_mod_cast second
  obtain ⟨numLow,numHigh⟩ := log2_bounds first
  obtain ⟨denLow,denHigh⟩ := log2_bounds second
  have reached := reached_iff num second ((Nat.log2 num : Int) - Nat.log2 den)
  unfold floorLog
  dsimp only
  by_cases high : (2 : ℚ) ^ ((Nat.log2 num : Int) - Nat.log2 den) ≤ num / den
  · rw [if_pos (reached.mpr high)]
    refine ⟨high,?_⟩
    rw [div_lt_iff₀ bound]
    calc (num : ℚ) < 2 ^ ((num.log2 : Int) + 1) := numHigh
      _ = 2 ^ ((num.log2 : Int) - den.log2 + 1) * 2 ^ (den.log2 : Int) := by
        rw [← zpow_add₀ two_ne_zero]
        ring_nf
      _ ≤ 2 ^ ((num.log2 : Int) - den.log2 + 1) * den :=
        mul_le_mul_of_nonneg_left denLow (by positivity)
  · rw [if_neg (fun found => high (reached.mp found)),sub_add_cancel]
    refine ⟨?_,not_le.mp high⟩
    rw [le_div_iff₀ bound]
    calc (2 : ℚ) ^ ((num.log2 : Int) - den.log2 - 1) * den
        ≤ 2 ^ ((num.log2 : Int) - den.log2 - 1) * 2 ^ ((den.log2 : Int) + 1) :=
          mul_le_mul_of_nonneg_left denHigh.le (by positivity)
      _ = 2 ^ (num.log2 : Int) := by
        rw [← zpow_add₀ two_ne_zero]
        ring_nf
      _ ≤ num := numLow

/-- A number on the grid of `2 ^ unit` that a quotient is rounded to, where the grid is the finest
on which the significand of the quotient has at most 53 bits. -/
structure Rounded (q : ℚ) (unit : Int) (r : Nat) : Prop where
  least : -1074 ≤ unit
  above : unit = -1074 ∨ (2 : ℚ) ^ (unit + 52) ≤ q
  below : q < 2 ^ (unit + 53)
  near : |r * 2 ^ unit - q| ≤ 2 ^ unit / 2
  small : r ≤ 2 ^ 53
  large : unit = -1074 ∨ 2 ^ 52 ≤ r

theorem rounded {num den : Nat} (first : 0 < num) (second : 0 < den) (shift : Int) :
    Rounded (num / den * 2 ^ shift) (max (floorLog num den + shift - 52) (-1074))
      (roundScaled num den (shift - max (floorLog num den + shift - 52) (-1074))) := by
  obtain ⟨low,high⟩ := floorLog_bounds first second
  generalize same : max (floorLog num den + shift - 52) (-1074) = unit
  obtain ⟨a,b,positive,round,quotient⟩ := roundScaled_eq second (shift - unit)
  have scaled : (a : ℚ) / b * 2 ^ unit = num / den * 2 ^ shift := by
    rw [quotient,mul_assoc,← zpow_add₀ two_ne_zero,sub_add_cancel]
  have unit_pos : (0 : ℚ) < 2 ^ unit := by positivity
  have bound : (0 : ℚ) < b := by exact_mod_cast positive
  have above : unit = -1074 ∨ (2 : ℚ) ^ (unit + 52) ≤ num / den * 2 ^ shift := by
    rcases max_cases (floorLog num den + shift - 52) (-1074) with ⟨left,-⟩ | ⟨right,-⟩
    · right
      rw [← same,left,sub_add_cancel,zpow_add₀ two_ne_zero]
      exact mul_le_mul_of_nonneg_right low (by positivity)
    · exact .inl (same.symm.trans right)
  have below : (num : ℚ) / den * 2 ^ shift < 2 ^ (unit + 53) := by
    calc (num : ℚ) / den * 2 ^ shift < 2 ^ (floorLog num den + 1) * 2 ^ shift :=
          mul_lt_mul_of_pos_right high (by positivity)
      _ = 2 ^ (floorLog num den + shift + 1) := by
        rw [← zpow_add₀ two_ne_zero]
        ring_nf
      _ ≤ 2 ^ (unit + 53) := zpow_le_zpow_right₀ one_le_two (by omega)
  obtain ⟨down,up⟩ := @roundHalfEven_near a b positive
  refine ⟨by omega,above,below,?_,?_,?_⟩
  · have close : |(roundHalfEven a b : ℚ) - a / b| ≤ 1 / 2 :=
      abs_le.mpr ⟨by linarith,by linarith⟩
    rw [round,← scaled,← sub_mul,abs_mul,abs_of_pos unit_pos]
    calc |(roundHalfEven a b : ℚ) - a / b| * 2 ^ unit
        ≤ 1 / 2 * 2 ^ unit := mul_le_mul_of_nonneg_right close unit_pos.le
      _ = 2 ^ unit / 2 := by ring
  · rw [round]
    refine roundHalfEven_le positive ?_
    have less : (a : ℚ) / b < 2 ^ (53 : Int) := by
      rw [← scaled,zpow_add₀ two_ne_zero,mul_comm ((2 : ℚ) ^ unit)] at below
      exact lt_of_mul_lt_mul_right below unit_pos.le
    rw [div_lt_iff₀ bound] at less
    exact_mod_cast less.le
  · rcases above with least | above
    · exact .inl least
    · right
      rw [round]
      refine le_roundHalfEven positive ?_
      rw [← scaled,zpow_add₀ two_ne_zero,mul_comm ((2 : ℚ) ^ unit)] at above
      have more : (2 : ℚ) ^ (52 : Int) ≤ a / b := le_of_mul_le_mul_right above unit_pos
      rw [le_div_iff₀ bound] at more
      exact_mod_cast more

/-- The significand and the exponent of a pattern that is put together from a number on a grid. A
significand of 54 bits carries over into the exponent. -/
theorem real_pattern {q : ℚ} {unit : Int} {r : Nat} (rounded : Rounded q unit r) (negative : Bool)
    (finite : (unit + 1074).toNat * twoTo 52 + r < patterns) :
    real ⟨negative,⟨(unit + 1074).toNat * twoTo 52 + r,finite⟩⟩ = r * 2 ^ unit := by
  have power : twoTo 52 = 4503599627370496 := by decide
  obtain ⟨least,-,-,-,small,large⟩ := rounded
  obtain ⟨u,split⟩ := Int.eq_ofNat_of_zero_le (show 0 ≤ unit + 1074 by omega)
  obtain rfl : unit = u - 1074 := by omega
  have start : ((u : Int) - 1074 + 1074).toNat = u := by omega
  norm_num at small large
  simp only [real,significand,exponent,start,power]
  by_cases tiny : u * 4503599627370496 + r < 4503599627370496
  · rw [if_pos tiny,show (u * 4503599627370496 + r) / 4503599627370496 = 0 by omega,
      show u * 4503599627370496 + r = r by omega,show u = 0 by omega]
    norm_num
  · rw [if_neg tiny]
    by_cases carry : r = 9007199254740992
    · rw [show (u * 4503599627370496 + r) % 4503599627370496 = 0 by omega,
        show (u * 4503599627370496 + r) / 4503599627370496 = u + 2 by omega,carry,
        show ((max 1 (u + 2) : Nat) : Int) - 1075 = 1 + (u - 1074) by omega,
        zpow_add₀ two_ne_zero]
      norm_num
      ring
    · rw [show (u * 4503599627370496 + r) % 4503599627370496 = r - 4503599627370496 by omega,
        show (u * 4503599627370496 + r) / 4503599627370496 = u + 1 by omega,
        show ((max 1 (u + 1) : Nat) : Int) - 1075 = u - 1074 by omega,
        show r - 4503599627370496 + 4503599627370496 = r by omega]

/-- The greatest of the numbers. -/
def greatest : ℚ := (2 ^ 53 - 1) * 2 ^ (971 : Int)

theorem le_greatest {n : Nat} (bound : n ≤ (2 ^ 53 - 1) * 2 ^ 971) : (n : ℚ) ≤ greatest := by
  have whole : greatest = (((2 ^ 53 - 1) * 2 ^ 971 : Nat) : ℚ) := by
    rw [greatest,zpow_ofNat,Nat.cast_mul,Nat.cast_pow]
    norm_num
  rw [whole,Nat.cast_le]
  exact bound

theorem greatest_lt : greatest < 2 ^ (1024 : Int) := by
  rw [greatest,show (1024 : Int) = 53 + 971 by omega,zpow_add₀ two_ne_zero]
  exact mul_lt_mul_of_pos_right (by norm_num) (by positivity)

/-- What is not above the greatest number is not rounded above it either. -/
theorem pattern_finite {q : ℚ} {unit : Int} {r : Nat} (rounded : Rounded q unit r)
    (whole : q ≤ greatest) : (unit + 1074).toNat * twoTo 52 + r < patterns := by
  have power : twoTo 52 = 4503599627370496 := by decide
  obtain ⟨least,above,-,near,small,-⟩ := rounded
  have top : unit ≤ 971 := by
    rcases above with lowest | above
    · omega
    · have less : (2 : ℚ) ^ (unit + 52) < 2 ^ (1024 : Int) :=
        (above.trans whole).trans_lt greatest_lt
      have order := (zpow_lt_zpow_iff_right₀ one_lt_two).mp less
      omega
  rw [power,patterns]
  norm_num at small
  rcases Int.lt_or_eq_of_le top with inside | edge
  · omega
  · have carry : r < 2 ^ 53 := by
      have unit_pos : (0 : ℚ) < 2 ^ (971 : Int) := by positivity
      have distance := (abs_le.mp near).2
      rw [edge] at distance
      rw [greatest] at whole
      generalize (2 : ℚ) ^ (971 : Int) = grid at *
      have less : (r : ℚ) * grid < 2 ^ 53 * grid := by linarith
      exact_mod_cast lt_of_mul_lt_mul_right less unit_pos.le
    norm_num at carry
    omega

/-- Above the subnormal numbers rounding is off by half a unit in the last of 53 bits. -/
theorem Rounded.relative {q : ℚ} {unit : Int} {r : Nat} (rounded : Rounded q unit r)
    (normal : (2 : ℚ) ^ (-1022 : Int) ≤ q) : |r * 2 ^ unit - q| ≤ q / 2 ^ 53 := by
  have grid : (2 : ℚ) ^ unit * 2 ^ (52 : Int) ≤ q := by
    rw [← zpow_add₀ two_ne_zero]
    rcases rounded.above with lowest | above
    · rw [lowest]
      exact normal
    · exact above
  refine rounded.near.trans ?_
  rw [div_le_div_iff₀ two_pos (by positivity)]
  calc (2 : ℚ) ^ unit * 2 ^ 53 = 2 ^ unit * 2 ^ (52 : Int) * 2 := by
        norm_num
        ring
    _ ≤ q * 2 := mul_le_mul_of_nonneg_right grid two_pos.le

/-- A quotient of at most the greatest number has a nearest one, which is on the grid. -/
theorem nearest?_rounded {num den : Nat} (first : 0 < num) (second : 0 < den) (shift : Int)
    (whole : (num : ℚ) / den * 2 ^ shift ≤ greatest) :
    ∃ m unit r, nearest? num den shift = some m ∧ Rounded (num / den * 2 ^ shift) unit r ∧
      ∀ negative, real ⟨negative,m⟩ = r * 2 ^ unit := by
  have grid := rounded first second shift
  have finite := pattern_finite grid whole
  refine ⟨_,_,_,?_,grid,fun negative => real_pattern grid negative finite⟩
  rw [nearest?,if_neg first.ne']
  dsimp only
  rw [dif_pos finite]

end NodeAudit.Binary64

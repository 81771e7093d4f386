import Mathlib.Analysis.Complex.ExponentialBounds
import Mathlib.Analysis.SpecialFunctions.Complex.Arctan
import Mathlib.Analysis.SpecialFunctions.Log.Deriv
import Mathlib.Analysis.SpecialFunctions.Trigonometric.Series
import Mathlib.Analysis.SpecificLimits.Basic
import Reckoner.Elementary.Series
import Reckoner.Proofs.Enclosures

namespace Reckoner

/-- The rest of a series whose terms fall at least by a half each is at most twice the first of them. -/
theorem abs_le_of_halving {term : Nat → ℝ} {total first : ℝ} (sums : HasSum term total)
    (halving : ∀ k, |term k| ≤ |first| * (1 / 2) ^ k) : |total| ≤ 2 * |first| := by
  have geometric := hasSum_geometric_two.mul_left |first|
  rw [mul_comm 2]
  exact sums.norm_le_of_bounded geometric halving

/-- A series begins with its first term. -/
theorem tail_of_hasSum {term : Nat → ℝ} {total : ℝ} (sums : HasSum term total) :
    HasSum (fun k => term (k + 1)) (total - term 0) := by
  have shifted := (hasSum_nat_add_iff' 1).mpr sums
  rwa [Finset.sum_range_one] at shifted

section Powers

variable {r : ℝ}

theorem pow_square (r : ℝ) (k : Nat) : (r * r) ^ k = r ^ (2 * k) := by rw [← pow_two, ← pow_mul]

theorem pow_neg_square (r : ℝ) (k : Nat) : (-(r * r)) ^ k = (-1) ^ k * r ^ (2 * k) := by rw [neg_pow, pow_square]

theorem mul_pow_square (r : ℝ) (k : Nat) : r * (r * r) ^ k = r ^ (2 * k + 1) := by rw [pow_square, ← pow_succ']

theorem mul_pow_neg_square (r : ℝ) (k : Nat) : r * (-(r * r)) ^ k = (-1) ^ k * r ^ (2 * k + 1) := by
  rw [pow_neg_square, mul_left_comm, ← pow_succ']

theorem abs_square_le_one (small : |r| ≤ 1) : |r * r| ≤ 1 := by
  rw [abs_mul]
  exact mul_le_one₀ small (abs_nonneg r) small

theorem abs_square_le_half (small : |r| ≤ 1 / 2) : |r * r| ≤ 1 / 2 := by
  have size := mul_le_mul small small (abs_nonneg r) (by norm_num)
  rw [abs_mul]
  linarith

end Powers

namespace Bracket.Holds

variable {precision : Nat} {factor power term sum x : Bracket} {f t s r total : ℝ}

/-- What the bounds of a number say about a rest that is at most twice as large. -/
theorem widen_reach (begun : sum.Holds precision s) (first : power.Holds precision t) (rest : |r| ≤ 2 * |t|) :
    (sum.widen (2 * power.reach)).Holds precision (s + r) := by
  have unit : (0 : ℝ) ≤ 2 ^ precision := pow_nonneg zero_le_two precision
  refine Contains.widen begun ?_
  have size : |(s + r) * 2 ^ precision - s * 2 ^ precision| = |r| * 2 ^ precision := by
    rw [← sub_mul, add_sub_cancel_left, abs_mul, abs_of_nonneg unit]
  have reach := first.abs_le
  have larger := mul_le_mul_of_nonneg_right rest unit
  rw [size]
  push_cast
  linarith

/-- The sum of a series over the odd numbers, begun with a partial sum. -/
theorem sumOverOdd (ratio : factor.Holds precision f) (small : |f| ≤ 1 / 2) (terms odd : Nat) (positive : 0 < odd)
    (here : power.Holds precision t) (begun : sum.Holds precision s)
    (sums : HasSum (fun k : Nat => t * f ^ k / (odd + 2 * k : Nat)) total) :
    (Reckoner.sumOverOdd precision factor terms odd power sum).Holds precision (s + total) := by
  induction terms generalizing odd power sum t s total with
  | zero =>
    refine widen_reach begun here (abs_le_of_halving sums fun k => ?_)
    have divisor : (1 : ℝ) ≤ (odd + 2 * k : Nat) := by exact_mod_cast (by omega : 1 ≤ odd + 2 * k)
    rw [abs_div, abs_mul, abs_pow, Nat.abs_cast]
    calc |t| * |f| ^ k / (odd + 2 * k : Nat) ≤ |t| * |f| ^ k :=
          div_le_self (mul_nonneg (abs_nonneg t) (pow_nonneg (abs_nonneg f) k)) divisor
      _ ≤ |t| * (1 / 2) ^ k :=
          mul_le_mul_of_nonneg_left (pow_le_pow_left₀ (abs_nonneg f) small k) (abs_nonneg t)
  | succ terms ih =>
    have rest := tail_of_hasSum sums
    have same (k : Nat) : t * f ^ (k + 1) / (odd + 2 * (k + 1) : Nat) = t * f * f ^ k / (odd + 2 + 2 * k : Nat) := by
      rw [pow_succ', ← mul_assoc]
      congr 2
      ring
    simp only [same, pow_zero, mul_one, Nat.mul_zero, Nat.add_zero] at rest
    have whole := ih (odd + 2) (Nat.add_pos_left positive 2) (here.mul ratio) (begun.add (here.divNat positive)) rest
    rwa [add_add_sub_cancel] at whole

theorem factorial_mul_two_pow_le (n k : Nat) : n.factorial * 2 ^ k ≤ (n + 2 * k).factorial := by
  induction k with
  | zero => simp
  | succ k ih =>
    have twice : 2 ≤ n + 2 * k + 2 := by omega
    have more : 2 * (n + 2 * k).factorial ≤ (n + 2 * k + 2) * (n + 2 * k + 1).factorial :=
      Nat.mul_le_mul twice (Nat.factorial_le (Nat.le_succ _))
    calc n.factorial * 2 ^ (k + 1) = 2 * (n.factorial * 2 ^ k) := by ring
      _ ≤ 2 * (n + 2 * k).factorial := Nat.mul_le_mul_left 2 ih
      _ ≤ (n + 2 * (k + 1)).factorial := more

/-- The sum of a series over the factorials of every other number, begun with a partial sum. -/
theorem sumOverFactorial (ratio : factor.Holds precision f) (small : |f| ≤ 1) (terms n : Nat)
    (here : power.Holds precision t) (begun : sum.Holds precision s)
    (sums : HasSum (fun k : Nat => t * f ^ k * n.factorial / (n + 2 * k).factorial) total) :
    (Reckoner.sumOverFactorial precision factor terms n power sum).Holds precision (s + total) := by
  induction terms generalizing n power sum t s total with
  | zero =>
    refine widen_reach begun here (abs_le_of_halving sums fun k => ?_)
    have positive : (0 : ℝ) < (n + 2 * k).factorial := Nat.cast_pos.mpr (Nat.factorial_pos _)
    have growth : (n.factorial * 2 ^ k : ℝ) ≤ (n + 2 * k).factorial := by
      exact_mod_cast factorial_mul_two_pow_le n k
    have power_le : |f| ^ k ≤ 1 := pow_le_one₀ (abs_nonneg f) small
    rw [abs_div, abs_mul, abs_mul, abs_pow, Nat.abs_cast, Nat.abs_cast, div_le_iff₀ positive]
    calc |t| * |f| ^ k * n.factorial ≤ |t| * 1 * n.factorial :=
          mul_le_mul_of_nonneg_right (mul_le_mul_of_nonneg_left power_le (abs_nonneg t)) (Nat.cast_nonneg _)
      _ = |t| * (1 / 2) ^ k * (n.factorial * 2 ^ k) := by
          rw [mul_one, mul_assoc, mul_left_comm _ (n.factorial : ℝ), ← mul_pow]
          norm_num
      _ ≤ |t| * (1 / 2) ^ k * (n + 2 * k).factorial :=
          mul_le_mul_of_nonneg_left growth (mul_nonneg (abs_nonneg t) (pow_nonneg (by norm_num) k))
  | succ terms ih =>
    have rest := tail_of_hasSum sums
    have same (k : Nat) : t * f ^ (k + 1) * n.factorial / (n + 2 * (k + 1)).factorial =
        t * f / ((n + 1) * (n + 2) : Nat) * f ^ k * (n + 2).factorial / (n + 2 + 2 * k).factorial := by
      have order : n + 2 * (k + 1) = n + 2 + 2 * k := by ring
      rw [order, Nat.factorial_succ (n + 1), Nat.factorial_succ n]
      push_cast
      field_simp
      ring
    have first : t * f ^ 0 * n.factorial / (n + 2 * 0).factorial = t := by
      rw [pow_zero, mul_one, Nat.mul_zero, Nat.add_zero, mul_div_assoc,
        div_self (Nat.cast_ne_zero.mpr (Nat.factorial_ne_zero n)), mul_one]
    simp only [same, first] at rest
    have positive : 0 < (n + 1) * (n + 2) := Nat.mul_pos (Nat.succ_pos n) (Nat.succ_pos (n + 1))
    have whole := ih (n + 2) ((here.mul ratio).divNat positive) (begun.add here) rest
    rwa [add_add_sub_cancel] at whole

/-- A series over the factorials of the even numbers, from its first term on. -/
theorem sumOverEvenFactorial (ratio : factor.Holds precision f) (small : |f| ≤ 1) (terms : Nat)
    (sums : HasSum (fun k : Nat => f ^ k / (2 * k).factorial) total) :
    (Reckoner.sumOverFactorial precision factor terms 0 (.one precision) ⟨0, 0⟩).Holds precision total := by
  have same (k : Nat) : f ^ k / (2 * k).factorial = 1 * f ^ k * Nat.factorial 0 / (0 + 2 * k).factorial := by
    rw [one_mul, Nat.zero_add, Nat.factorial_zero, Nat.cast_one, mul_one]
  simp only [same] at sums
  have series := ratio.sumOverFactorial small terms 0 (holds_one precision) (holds_zero precision) sums
  rwa [zero_add] at series

/-- A series over the factorials of the odd numbers, from its first term on. -/
theorem sumOverOddFactorial (ratio : factor.Holds precision f) (small : |f| ≤ 1) (terms : Nat)
    (here : x.Holds precision r) (sums : HasSum (fun k : Nat => r * f ^ k / (2 * k + 1).factorial) total) :
    (Reckoner.sumOverFactorial precision factor terms 1 x ⟨0, 0⟩).Holds precision total := by
  have same (k : Nat) : r * f ^ k / (2 * k + 1).factorial =
      r * f ^ k * Nat.factorial 1 / (1 + 2 * k).factorial := by
    rw [Nat.factorial_one, Nat.cast_one, mul_one, Nat.add_comm 1]
  simp only [same] at sums
  have series := ratio.sumOverFactorial small terms 1 here (holds_zero precision) sums
  rwa [zero_add] at series

theorem artanhSeries (here : x.Holds precision r) (small : |r| ≤ 1 / 2) :
    (Reckoner.artanhSeries precision x).Holds precision ((Real.log (1 + r) - Real.log (1 - r)) / 2) := by
  have sums := (Real.hasSum_log_sub_log_of_abs_lt_one (small.trans_lt one_half_lt_one)).div_const 2
  have same (k : Nat) : 2 * (1 / (2 * k + 1)) * r ^ (2 * k + 1) / 2 = r * (r * r) ^ k / (1 + 2 * k : Nat) := by
    rw [mul_pow_square, Nat.add_comm 1]
    push_cast
    ring
  simp only [same] at sums
  have series := (here.mul here).sumOverOdd (abs_square_le_half small) (precision / 3 + 2) 1 one_pos here
    (holds_zero precision) sums
  rwa [zero_add] at series

theorem arctanSeries (here : x.Holds precision r) (small : |r| ≤ 1 / 2) :
    (Reckoner.arctanSeries precision x).Holds precision (Real.arctan r) := by
  have sums := Real.hasSum_arctan (small.trans_lt one_half_lt_one)
  simp only [← mul_pow_neg_square] at sums
  simp only [Nat.add_comm _ 1] at sums
  have square : |(-(r * r))| ≤ 1 / 2 := (abs_neg (r * r)).trans_le (abs_square_le_half small)
  have series := (here.mul here).neg.sumOverOdd square (precision / 4 + 2) 1 one_pos here (holds_zero precision) sums
  rwa [zero_add] at series

theorem sineSeries (here : x.Holds precision r) : (Reckoner.sineSeries precision x).Holds precision (Real.sin r) := by
  rw [Reckoner.sineSeries]
  split
  · exact holds_unit precision (Real.abs_sin_le_one r)
  · rename_i small
    have square : |(-(r * r))| ≤ 1 := (abs_neg (r * r)).trans_le (abs_square_le_one (here.abs_le_one small))
    have sums := Real.hasSum_sin r
    simp only [← mul_pow_neg_square] at sums
    exact (here.mul here).neg.sumOverOddFactorial square (precision / 8 + 10) here sums

theorem cosineSeries (here : x.Holds precision r) :
    (Reckoner.cosineSeries precision x).Holds precision (Real.cos r) := by
  rw [Reckoner.cosineSeries]
  split
  · exact holds_unit precision (Real.abs_cos_le_one r)
  · rename_i small
    have square : |(-(r * r))| ≤ 1 := (abs_neg (r * r)).trans_le (abs_square_le_one (here.abs_le_one small))
    have sums := Real.hasSum_cos r
    simp only [← pow_neg_square] at sums
    exact (here.mul here).neg.sumOverEvenFactorial square (precision / 8 + 10) sums

/-- The even terms of the exponential add up to the hyperbolic cosine, the odd ones to the sine. -/
theorem exponentialSeries (here : x.Holds precision r) (small : |r| ≤ 1) :
    (Reckoner.exponentialSeries precision x).Holds precision (Real.exp r) := by
  have square : |r * r| ≤ 1 := abs_square_le_one small
  have even := Real.hasSum_cosh r
  have odd := Real.hasSum_sinh r
  simp only [← pow_square] at even
  simp only [← mul_pow_square] at odd
  rw [← Real.cosh_add_sinh]
  exact ((here.mul here).sumOverEvenFactorial square (precision / 8 + 10) even).add
    ((here.mul here).sumOverOddFactorial square (precision / 8 + 10) here odd)

end Bracket.Holds

namespace Bracket

/-- A whole number over another one as a real number. -/
theorem holds_fraction (precision numerator : Nat) {denominator : Nat} (positive : 0 < denominator) :
    (ofRatio precision numerator denominator).Holds precision (numerator / denominator) := by
  have whole := holds_ofRatio precision numerator positive
  rwa [Int.cast_natCast] at whole

theorem holds_piBracket (precision : Nat) : (piBracket precision).Holds precision Real.pi := by
  have fifth := (holds_fraction precision 1 (by decide : 0 < 5)).arctanSeries (by norm_num)
  have little := (holds_fraction precision 1 (by decide : 0 < 239)).arctanSeries (by norm_num)
  have machin : Real.pi = (16 : Int) * Real.arctan ((1 : Nat) / (5 : Nat)) -
      (4 : Int) * Real.arctan ((1 : Nat) / (239 : Nat)) := by
    have formula := Real.four_mul_arctan_inv_5_sub_arctan_inv_239
    norm_num at formula ⊢
    linarith
  rw [machin]
  exact (fifth.scale 16).sub (little.scale 4)

/-- The logarithm of a ratio no further from one than from a third or three. -/
theorem holds_logRatio (precision : Nat) {a b : Nat} (least : b ≤ 3 * a) (most : a ≤ 3 * b) (positive : 0 < a) :
    ((artanhSeries precision (ofRatio precision ((a : Int) - b) (a + b))).scale 2).Holds precision
      (Real.log (a / b)) := by
  have divisor : 0 < b := by omega
  have ratio := holds_ofRatio precision ((a : Int) - b) (Nat.add_pos_left positive b)
  have above : (0 : ℝ) < a := Nat.cast_pos.mpr positive
  have below : (0 : ℝ) < b := Nat.cast_pos.mpr divisor
  push_cast at ratio
  have small : |((a : ℝ) - b) / (a + b)| ≤ 1 / 2 := by
    have leastCast : (b : ℝ) ≤ 3 * a := by exact_mod_cast least
    have mostCast : (a : ℝ) ≤ 3 * b := by exact_mod_cast most
    rw [abs_le]
    constructor
    · rw [le_div_iff₀ (add_pos above below)]
      linarith
    · rw [div_le_iff₀ (add_pos above below)]
      linarith
  have sum : (1 + ((a : ℝ) - b) / (a + b)) = 2 * a / (a + b) := by
    field_simp
    ring
  have difference : (1 - ((a : ℝ) - b) / (a + b)) = 2 * b / (a + b) := by
    field_simp
    ring
  have value : Real.log (a / b) =
      (2 : Int) * ((Real.log (1 + ((a : ℝ) - b) / (a + b)) - Real.log (1 - ((a : ℝ) - b) / (a + b))) / 2) := by
    rw [sum, difference, ← Real.log_div (by positivity) (by positivity)]
    have quotient : 2 * (a : ℝ) / (a + b) / (2 * b / (a + b)) = a / b := by
      field_simp
    rw [quotient]
    push_cast
    ring
  rw [value]
  exact (ratio.artanhSeries small).scale 2

theorem holds_logTwoBracket (precision : Nat) : (logTwoBracket precision).Holds precision (Real.log 2) := by
  have ratio := holds_logRatio precision (a := 2) (b := 1) (by decide) (by decide) (by decide)
  have value : ((2 : Nat) / (1 : Nat) : ℝ) = 2 := by norm_num
  rw [value] at ratio
  exact ratio

theorem holds_logTenBracket (precision : Nat) : (logTenBracket precision).Holds precision (Real.log 10) := by
  have ratio := holds_logRatio precision (a := 5) (b := 4) (by decide) (by decide) (by decide)
  have product : Real.log 10 = (3 : Int) * Real.log 2 + Real.log ((5 : Nat) / (4 : Nat)) := by
    have cube : (10 : ℝ) = 2 ^ 3 * (5 / 4) := by norm_num
    rw [cube, Real.log_mul (by norm_num) (by norm_num), Real.log_pow]
    push_cast
    rfl
  have large : ((2 : Nat) : ℝ) ≤ Real.log 10 := by
    rw [Real.le_log_iff_exp_le (by norm_num), ← Real.exp_one_pow]
    have base : Real.exp 1 < 3 := Real.exp_one_lt_three
    nlinarith [Real.exp_pos 1]
  rw [product] at large ⊢
  exact (((holds_logTwoBracket precision).scale 3).add ratio).atLeast large

theorem logTenBracket_pos (precision : Nat) : 0 < (logTenBracket precision).lower :=
  lt_max_of_lt_left (mul_pos two_pos (cast_twoTo_pos precision))

end Bracket

end Reckoner

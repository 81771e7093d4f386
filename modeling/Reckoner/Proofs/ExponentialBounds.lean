import Mathlib.Analysis.SpecialFunctions.Log.Base
import Reckoner.Elementary.Exponential
import Reckoner.Proofs.SeriesBounds

namespace Reckoner

theorem cast_quantum : (quantum : ℝ) = 1 / 2 ^ 1074 := by
  rw [quantum]
  push_cast
  rfl

/-- The powers of two that are no more than a quarter of the least positive double. -/
theorem two_zpow_le_quarter {exponent : Int} (small : exponent ≤ -1076) : (2 : ℝ) ^ exponent ≤ quantum / 4 := by
  have quarter : (quantum / 4 : ℝ) = 2 ^ (-1076 : Int) := by
    have four : (4 : ℝ) = 2 ^ 2 := by norm_num
    rw [cast_quantum, four, div_div, ← pow_add, zpow_neg, zpow_ofNat, one_div]
  rw [quarter]
  exact zpow_le_zpow_right₀ one_le_two small

section Logarithm

variable {quanta : Nat}

/-- The power of two that a number is compared with is at most twice as large, or half as large. -/
theorem log2_bounds (positive : 0 < quanta) {exponent : Nat}
    (near : exponent = Nat.log2 quanta ∨ exponent = Nat.log2 quanta + 1) :
    2 ^ exponent ≤ 3 * quanta ∧ quanta ≤ 3 * 2 ^ exponent := by
  have least : 2 ^ Nat.log2 quanta ≤ quanta := Nat.log2_self_le positive.ne'
  have most : quanta < 2 ^ (Nat.log2 quanta + 1) := Nat.lt_log2_self
  have twice : 2 ^ (Nat.log2 quanta + 1) = 2 * 2 ^ Nat.log2 quanta := pow_succ' 2 _
  rcases near with rfl | rfl <;> omega

theorem holds_logBracket (precision : Nat) (positive : 0 < quanta) :
    (logBracket precision quanta).Holds precision (Real.log (quanta * quantum)) := by
  obtain ⟨exponent, same⟩ : ∃ exponent, exponent =
      if twoTo (2 * Nat.log2 quanta + 1) < quanta * quanta then Nat.log2 quanta + 1 else Nat.log2 quanta := ⟨_, rfl⟩
  have near : exponent = Nat.log2 quanta ∨ exponent = Nat.log2 quanta + 1 := by
    rw [same]
    split
    · exact Or.inr rfl
    · exact Or.inl rfl
  obtain ⟨least, most⟩ := log2_bounds positive near
  have ratio := Bracket.holds_logRatio precision least most positive
  have above : (0 : ℝ) < quanta := Nat.cast_pos.mpr positive
  have split : Real.log (quanta * quantum) =
      Real.log (quanta / (2 ^ exponent : Nat)) + ((exponent : Int) - 1074 : Int) * Real.log 2 := by
    rw [cast_quantum, mul_one_div, Real.log_div above.ne' (by positivity), Real.log_div above.ne' (by positivity),
      Nat.cast_pow, Real.log_pow, Real.log_pow]
    push_cast
    ring
  rw [split, logBracket]
  simp only [← same]
  exact ratio.add ((Bracket.holds_logTwoBracket precision).scale ((exponent : Int) - 1074))

end Logarithm

/-- A power of four lies above the exponential of every number up to its exponent. -/
theorem exp_le_two_zpow {r : ℝ} {exponent : Int} (below : r ≤ exponent) (positive : 0 ≤ exponent) :
    Real.exp r ≤ 2 ^ (2 * exponent) := by
  obtain ⟨times, rfl⟩ := Int.eq_ofNat_of_zero_le positive
  have base : Real.exp 1 ≤ 2 ^ 2 := Real.exp_one_lt_three.le.trans (by norm_num)
  have whole : r ≤ times := by exact_mod_cast below
  calc Real.exp r ≤ Real.exp 1 ^ times := by
        rw [Real.exp_one_pow]
        exact Real.exp_le_exp.mpr whole
    _ ≤ (2 ^ 2) ^ times := pow_le_pow_left₀ (Real.exp_pos 1).le base times
    _ = 2 ^ (2 * (times : Int)) := by rw [← pow_mul, ← zpow_natCast, Nat.cast_mul, Nat.cast_ofNat]

/-- The exponential lies within its bounds, whatever number of doublings is split off. -/
theorem holds_exponentialEnclosure {precision : Nat} {x : Bracket} {r : ℝ} (here : x.Holds precision r) :
    (exponentialEnclosure precision x).Holds (Real.exp r) := by
  have unit : (0 : ℝ) < 2 ^ precision := pow_pos two_pos precision
  rw [exponentialEnclosure]
  generalize (2 * x.lower + (logTwoBracket precision).lower) / (2 * (logTwoBracket precision).lower) = doublings
  have rest := here.sub ((Bracket.holds_logTwoBracket precision).scale doublings)
  split
  · have above : r < (x.upper / (twoTo precision : Int) : Int) + 1 := by
      have order := Int.lt_ediv_add_one_mul_self x.upper (Bracket.cast_twoTo_pos precision)
      have cast : (x.upper : ℝ) < ((x.upper / (twoTo precision : Int) : Int) + 1) * 2 ^ precision := by
        rw [← Bracket.cast_twoTo]
        exact_mod_cast order
      exact lt_of_mul_lt_mul_right (here.le_upper.trans_lt cast) unit.le
    have exponent : r ≤ (max 0 (x.upper / (twoTo precision : Int)) + 1 : Int) := by
      push_cast
      exact above.le.trans (add_le_add_left (le_max_right _ _) 1)
    rw [Enclosure.Holds, Int.cast_zero, zero_mul, Int.cast_one, one_mul]
    exact ⟨(Real.exp_pos r).le, exp_le_two_zpow exponent (by omega)⟩
  · rename_i small
    have series := rest.exponentialSeries (rest.abs_le_one small)
    have doubled : Real.exp (doublings * Real.log 2) = 2 ^ doublings := by
      rw [mul_comm, Real.exp_mul, Real.exp_log two_pos, Real.rpow_intCast]
    have shift : Real.exp r = Real.exp (r - doublings * Real.log 2) * 2 ^ precision * 2 ^ (doublings - precision) := by
      rw [zpow_sub₀ two_ne_zero, zpow_natCast, mul_assoc, mul_div_cancel₀ _ unit.ne', ← doubled, ← Real.exp_add,
        sub_add_cancel]
    have positive : (0 : ℝ) ≤ 2 ^ (doublings - precision) := zpow_nonneg zero_le_two _
    rw [shift]
    exact ⟨mul_le_mul_of_nonneg_right series.lower_le positive, mul_le_mul_of_nonneg_right series.le_upper positive⟩

/-- Beyond the limit of the exponent the exponential is larger than every finite double. -/
theorem large_exp {r : ℝ} (beyond : (Binary64.exponentLimit : ℝ) ≤ r) : 2 ^ 1120 ≤ Real.exp r := by
  have base : (2 : ℝ) ^ 14 ≤ Real.exp 1 ^ 10 := by
    have first : (2.7 : ℝ) ≤ Real.exp 1 := (by norm_num : (2.7 : ℝ) ≤ 2.7182818283).trans Real.exp_one_gt_d9.le
    calc (2 : ℝ) ^ 14 ≤ 2.7 ^ 10 := by norm_num
      _ ≤ Real.exp 1 ^ 10 := pow_le_pow_left₀ (by norm_num) first 10
  calc (2 : ℝ) ^ 1120 = (2 ^ 14) ^ 80 := (pow_mul 2 14 80)
    _ ≤ (Real.exp 1 ^ 10) ^ 80 := pow_le_pow_left₀ (by norm_num) base 80
    _ = Real.exp (800 : Nat) := by rw [← pow_mul, Real.exp_one_pow]
    _ ≤ Real.exp r := Real.exp_le_exp.mpr beyond

/-- Below the limit on the other side it is smaller than a quarter of the least positive double. -/
theorem small_exp {r : ℝ} (beyond : r ≤ -(Binary64.exponentLimit : ℝ)) : Real.exp r ≤ quantum / 4 := by
  have mirrored := large_exp (le_neg_of_le_neg beyond)
  have positive : (0 : ℝ) < 2 ^ 1120 := pow_pos two_pos 1120
  rw [Real.exp_neg, le_inv_comm₀ positive (Real.exp_pos r)] at mirrored
  refine mirrored.trans ?_
  rw [← zpow_natCast, ← zpow_neg]
  exact two_zpow_le_quarter (by decide)

namespace Binary64

variable {negative : Bool} {m : Magnitude}

theorem limit_le_value (beyond : exponentLimit * quantaPerUnit < m.quanta) : (exponentLimit : ℝ) ≤ m.value := by
  have quanta : ((exponentLimit * quantaPerUnit : Nat) : ℝ) ≤ m.quanta := Nat.cast_le.mpr beyond.le
  calc (exponentLimit : ℝ) = (exponentLimit * quantaPerUnit : Nat) * quantum := by
        rw [Nat.cast_mul, mul_assoc, cast_quantaPerUnit_mul, mul_one]
    _ ≤ m.quanta * quantum := mul_le_mul_of_nonneg_right quanta cast_quantum_pos.le
    _ = m.value := m.cast_value.symm

theorem exp_nearest (negative : Bool) (m : Magnitude) (decided : Decided fun precision =>
      some (exponentialEnclosure precision (.ofRatio precision (signedQuanta negative m) quantaPerUnit))) :
    NearestReal (Real.exp (realValue negative m)) (exp (.finite negative m)) := by
  rw [exp]
  by_cases zero : m.rank = 0
  · rw [if_pos zero, realValue_of_zero zero, Real.exp_zero]
    exact nearestReal_one
  · rw [if_neg zero]
    by_cases beyond : exponentLimit * quantaPerUnit < m.quanta
    · rw [if_pos beyond]
      have large := limit_le_value beyond
      cases negative with
      | true =>
        rw [realValue_true]
        exact nearestReal_zero (Real.exp_pos _).le (small_exp (neg_le_neg large))
      | false =>
        rw [realValue_false]
        exact nearestReal_infinity ((pow_le_pow_right₀ one_le_two (by decide)).trans (large_exp large))
    · rw [if_neg beyond]
      refine settle_nearest (fun precision e known => ?_) decided
      cases known
      exact holds_exponentialEnclosure (holds_realValue precision negative m)

theorem isNaN_exp (negative : Bool) (m : Magnitude) : (exp (.finite negative m)).isNaN = false := by
  rw [exp]
  split
  · exact nearestReal_one.isNaN
  · split
    · cases negative <;> rfl
    · exact isNaN_settle rfl

theorem ln_nearest (nonzero : m.rank ≠ 0)
    (decided : Decided fun precision => some (.fixed precision (logBracket precision m.quanta))) :
    NearestReal (Real.log m.value) (ln (.finite false m)) := by
  rw [ln, if_neg nonzero, if_neg Bool.false_ne_true]
  by_cases one : m.quanta = quantaPerUnit
  · rw [if_pos one, m.cast_value_of_unit one, Real.log_one]
    exact nearestReal_origin false
  · rw [if_neg one]
    refine settleFixed_nearest (fun precision => ?_) decided
    have bounds := holds_logBracket precision (m.quanta_pos nonzero)
    rwa [← Rat.cast_natCast, ← Rat.cast_mul] at bounds

/-- At two the first bounds decide. -/
example : Decided fun precision => some (.fixed precision (logBracket precision (2 * quantaPerUnit))) :=
  ⟨0, by decide, by decide +kernel⟩

theorem isNaN_ln (m : Magnitude) : (ln (.finite false m)).isNaN = false := by
  rw [ln]
  split
  · rfl
  · rw [if_neg Bool.false_ne_true]
    split
    · rfl
    · exact isNaN_settleFixed _

theorem value_of_wholePowerOfTen? {exponent : Nat} (known : wholePowerOfTen? m.quanta = some exponent) :
    (m.value : ℝ) = 10 ^ exponent := by
  rw [wholePowerOfTen?] at known
  have found := List.find?_some known
  have quanta : m.quanta = tenTo exponent * quantaPerUnit := by simpa only [beq_iff_eq] using found
  rw [m.cast_value, quanta, Nat.cast_mul, mul_assoc, cast_quantaPerUnit_mul, mul_one, tenTo_eq, Nat.cast_pow,
    Nat.cast_ofNat]

theorem log10_nearest (nonzero : m.rank ≠ 0) (decided : Decided fun precision =>
      some (.fixed precision ((logBracket precision m.quanta).div precision (logTenBracket precision)))) :
    NearestReal (Real.logb 10 m.value) (log10 (.finite false m)) := by
  rw [log10, if_neg nonzero, if_neg Bool.false_ne_true]
  cases power : wholePowerOfTen? m.quanta with
  | some exponent =>
    rw [value_of_wholePowerOfTen? power, Real.logb_pow, Real.logb_self_eq_one (by norm_num), mul_one]
    exact nearestReal_natCast exponent
  | none =>
    refine settleFixed_nearest (fun precision => ?_) decided
    have bounds := holds_logBracket precision (m.quanta_pos nonzero)
    rw [← Rat.cast_natCast, ← Rat.cast_mul] at bounds
    exact bounds.div (Bracket.holds_logTenBracket precision) (Bracket.logTenBracket_pos precision)

theorem isNaN_log10 (m : Magnitude) : (log10 (.finite false m)).isNaN = false := by
  rw [log10]
  split
  · rfl
  · rw [if_neg Bool.false_ne_true]
    split
    · exact isNaN_ofRank _ _
    · exact isNaN_settleFixed _

end Binary64

end Reckoner

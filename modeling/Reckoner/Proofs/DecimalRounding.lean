import Mathlib.Algebra.Order.Field.Power
import Mathlib.Data.Nat.Cast.Order.Field
import Reckoner.Display
import Reckoner.Proofs.NearestDouble

namespace Reckoner

/-- A power of ten as a ratio of whole numbers. -/
theorem ten_zpow (exponent : Int) :
    (10 : ℚ) ^ exponent = (tenTo exponent.toNat : Nat) / (tenTo (-exponent).toNat : Nat) := by
  rcases Int.le_total 0 exponent with whole | fraction
  · obtain ⟨places, rfl⟩ := Int.eq_ofNat_of_zero_le whole
    simp [tenTo_eq]
  · obtain ⟨places, rfl⟩ := Int.exists_eq_neg_ofNat fraction
    simp [tenTo_eq]

theorem twoTo_pos (exponent : Nat) : 0 < twoTo exponent := Nat.pow_pos (by decide)

theorem tenTo_pos (exponent : Nat) : 0 < tenTo exponent := Nat.pow_pos (by decide)

namespace Decimal

variable {d e : Decimal}

/-- The number that a decimal stands for. -/
def value (d : Decimal) : ℚ := d.coefficient * 10 ^ d.exponent

theorem value_nonneg (d : Decimal) : 0 ≤ d.value := by
  unfold value
  positivity

theorem value_eq_ratio (d : Decimal) :
    d.value =
      (d.coefficient * tenTo d.exponent.toNat * quantaPerUnit : Nat) / (tenTo (-d.exponent).toNat : Nat) * quantum := by
  have scaled (a b c u q : ℚ) (unit : u * q = 1) : a * (b / c) = a * b * u / c * q := by
    calc a * (b / c) = a * (b / c) * (u * q) := by rw [unit, mul_one]
      _ = a * b * u / c * q := by ring
  rw [value, ten_zpow, Nat.cast_mul, Nat.cast_mul]
  exact scaled _ _ _ _ _ quantaPerUnit_mul_quantum

theorem ranksNearest_rank (d : Decimal) : RanksNearest d.value d.rank :=
  ranksNearest_nearestRank (tenTo_pos _) d.value_eq_ratio

/-- Reading a decimal finds the nearest double to the number it stands for. -/
theorem nearestDouble (d : Decimal) : NearestDouble d.value (d.nearest false) :=
  nearestDouble_nearest (tenTo_pos _) d.value_eq_ratio

/-- How a decimal is read depends on nothing but the number. -/
theorem rank_congr (same : d.value = e.value) : d.rank = e.rank :=
  d.ranksNearest_rank.eq (same ▸ e.ranksNearest_rank)

theorem value_trim (d : Decimal) : d.trim.value = d.value := by
  fun_induction trim d with
  | case1 d zeros ih =>
    have whole : d.coefficient = d.coefficient / 10 * 10 := by omega
    have cast : (d.coefficient : ℚ) = (d.coefficient / 10 : Nat) * 10 := by exact_mod_cast whole
    rw [ih, value, value, cast, zpow_add_one₀ (by norm_num)]
    ring
  | case2 => rfl

end Decimal

theorem dist_nearestEven (numerator : Nat) {denominator : Nat} (positive : 0 < denominator) :
    |(nearestEven numerator denominator : ℚ) - numerator / denominator| ≤ 1 / 2 := by
  obtain ⟨above, below⟩ := roundsTo_nearestEven numerator positive
  have parts : (0 : ℚ) < denominator := Nat.cast_pos.mpr positive
  have most : (2 * numerator : ℚ) ≤ 2 * (denominator * nearestEven numerator denominator) + denominator := by
    exact_mod_cast above.elim Nat.le_of_lt fun same => same.1.le
  have least : (2 * (denominator * nearestEven numerator denominator) : ℚ) ≤ 2 * numerator + denominator := by
    exact_mod_cast below.elim Nat.le_of_lt fun same => same.1.le
  rw [abs_le, neg_le_sub_iff_le_add, sub_le_iff_le_add, div_le_iff₀ parts, ← sub_le_iff_le_add', le_div_iff₀ parts]
  constructor <;> linarith

namespace Magnitude

variable (m : Magnitude) (exponent : Int)

theorem ratioAt_pos : 0 < (m.ratioAt exponent).2 := Nat.mul_pos (twoTo_pos 1074) (tenTo_pos _)

theorem ratioAt_eq : ((m.ratioAt exponent).1 : ℚ) / (m.ratioAt exponent).2 = m.value / 10 ^ exponent := by
  have scaled (n u q a b : ℚ) (unit : u * q = 1) : n * b / (u * a) = n * q / (a / b) := by
    have nonzero : u ≠ 0 := left_ne_zero_of_mul_eq_one unit
    rw [eq_one_div_of_mul_eq_one_right unit]
    field_simp
  rw [ratioAt, value, ten_zpow, Nat.cast_mul, Nat.cast_mul]
  exact scaled _ _ _ _ _ quantaPerUnit_mul_quantum

theorem value_roundedAt : (m.roundedAt exponent).value =
    nearestEven (m.ratioAt exponent).1 (m.ratioAt exponent).2 * 10 ^ exponent := by
  rw [roundedAt, Decimal.value]

/-- Rounding to a multiple of a power of ten moves a value by half of the power at most. -/
theorem dist_roundedAt : |(m.roundedAt exponent).value - m.value| ≤ 10 ^ exponent / 2 := by
  have power : (0 : ℚ) < 10 ^ exponent := zpow_pos (by norm_num) exponent
  have near := dist_nearestEven (m.ratioAt exponent).1 (m.ratioAt_pos exponent)
  rw [ratioAt_eq] at near
  have moved : (m.roundedAt exponent).value - m.value =
      (nearestEven (m.ratioAt exponent).1 (m.ratioAt exponent).2 - m.value / 10 ^ exponent) * 10 ^ exponent := by
    rw [value_roundedAt, sub_mul, div_mul_cancel₀ _ power.ne']
  rw [moved, abs_mul, abs_of_pos power]
  linarith [mul_le_mul_of_nonneg_right near power.le]

end Magnitude

/-- No number is below the power of ten that has as many digits. -/
theorem pow_digitCount_le {n : Nat} (positive : 0 < n) : 0 < digitCount n ∧ 10 ^ (digitCount n - 1) ≤ n := by
  fun_induction digitCount n with
  | case1 n single => exact ⟨by decide, positive⟩
  | case2 n several short ih =>
    obtain ⟨some_digit, bound⟩ := ih (by omega)
    obtain ⟨more, count⟩ : ∃ more, digitCount (n / 10) = more + 1 := ⟨digitCount (n / 10) - 1, by omega⟩
    rw [count, Nat.add_sub_cancel] at bound ⊢
    refine ⟨by omega, ?_⟩
    rw [Nat.pow_succ]
    omega
  | case3 n several long ih =>
    obtain ⟨some_digit, bound⟩ := ih (by omega)
    obtain ⟨more, count⟩ : ∃ more, digitCount (n / 10000000000000000) = more + 1 :=
      ⟨digitCount (n / 10000000000000000) - 1, by omega⟩
    rw [count, Nat.add_sub_cancel] at bound
    have sixteen : more + 1 + 16 - 1 = more + 16 := by omega
    rw [count, sixteen, Nat.pow_add]
    exact ⟨by omega, by omega⟩

namespace Magnitude

variable {m : Magnitude}

/-- A magnitude other than zero is no less than the power of ten that its leading digit counts. -/
theorem ten_zpow_leading_le (some_rank : m.rank ≠ 0) : (10 : ℚ) ^ m.leading ≤ m.value := by
  obtain ⟨scaled, isScaled⟩ : ∃ scaled, scaled = m.quanta * tenTo 324 / quantaPerUnit := ⟨_, rfl⟩
  have unit : quantaPerUnit ≤ tenTo 324 := by decide +kernel
  have positive : 0 < scaled := by
    rw [isScaled]
    refine Nat.div_pos (unit.trans (Nat.le_mul_of_pos_left _ (quanta_pos some_rank))) (twoTo_pos 1074)
  obtain ⟨some_digit, bound⟩ := pow_digitCount_le positive
  have exponent : m.leading = ((digitCount scaled - 1 : Nat) : Int) - (324 : Nat) := by
    rw [leading, ← isScaled]
    omega
  have whole : (scaled : ℚ) ≤ m.value * tenTo 324 := by
    have inverse : quantum = 1 / quantaPerUnit := eq_one_div_of_mul_eq_one_right quantaPerUnit_mul_quantum
    rw [isScaled, value, inverse]
    refine Nat.cast_div_le.trans (le_of_eq ?_)
    rw [Nat.cast_mul]
    ring
  have power : (10 : ℚ) ^ 324 = tenTo 324 := by rw [tenTo_eq, Nat.cast_pow, Nat.cast_ofNat]
  rw [exponent, zpow_sub₀ (by norm_num), zpow_natCast, zpow_natCast, power,
    div_le_iff₀ (Nat.cast_pos.mpr (tenTo_pos 324))]
  exact le_trans (by exact_mod_cast bound) whole

/-- Seventeen digits read back. -/
theorem rank_rounded_seventeen (some_rank : m.rank ≠ 0) : (m.roundedAt (m.leading - 16)).rank = m.rank := by
  have leading := ten_zpow_leading_le some_rank
  have positive : (0 : ℚ) < 10 ^ m.leading := zpow_pos (by norm_num) m.leading
  have near := m.dist_roundedAt (m.leading - 16)
  rw [zpow_sub₀ (by norm_num)] at near
  refine (m.roundedAt (m.leading - 16)).ranksNearest_rank.eq (ranksNearest_of_close ?_)
  rw [← value_eq]
  norm_num at near ⊢
  linarith

theorem rank_of_readableAt {exponent : Int} {d : Decimal} (found : m.readableAt? exponent = some d) :
    d.rank = m.rank := by
  simp only [readableAt?] at found
  obtain ⟨coefficient, -, chosen⟩ := List.exists_of_findSome?_eq_some found
  split at chosen
  · rename_i same
    cases chosen
    exact same
  · cases chosen

/-- A search for a decimal that reads back finds one when the finest power of ten has one. -/
theorem rank_shortestFrom {fuel : Nat} {exponent : Int} (finest : (m.roundedAt (exponent - fuel)).rank = m.rank) :
    (m.shortestFrom fuel exponent).rank = m.rank := by
  induction fuel generalizing exponent with
  | zero => simpa [shortestFrom] using finest
  | succ fuel ih =>
    rw [shortestFrom]
    cases found : m.readableAt? exponent with
    | some d => exact rank_of_readableAt found
    | none =>
      refine ih ?_
      have same : exponent - 1 - fuel = exponent - (fuel + 1 : Nat) := by omega
      rw [same]
      exact finest

/-- The shortest decimal of a magnitude reads back. -/
theorem rank_shortest (some_rank : m.rank ≠ 0) : m.shortest.rank = m.rank := by
  rw [shortest, Decimal.rank_congr (Decimal.value_trim _)]
  exact rank_shortestFrom (rank_rounded_seventeen some_rank)

/-- Of a magnitude that seventeen digits are shown of nothing is lost. -/
theorem rank_significant_seventeen (some_rank : m.rank ≠ 0) : (m.significant 17).rank = m.rank := by
  simp only [significant]
  split
  · exact rank_shortest some_rank
  · have exponent : m.leading + 1 - (17 : Nat) = m.leading - 16 := by omega
    rw [Decimal.rank_congr (Decimal.value_trim _), rounded, exponent]
    exact rank_rounded_seventeen some_rank

/-- What is shown is read as the magnitude itself or as its rounded value. -/
theorem rank_significant (some_rank : m.rank ≠ 0) (digits : Nat) :
    (m.significant digits).rank = m.rank ∨ (m.significant digits).rank = (m.rounded digits).rank := by
  simp only [significant]
  split
  · exact Or.inl (rank_shortest some_rank)
  · exact Or.inr (Decimal.rank_congr (Decimal.value_trim _))

end Magnitude

end Reckoner

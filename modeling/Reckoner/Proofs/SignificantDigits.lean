import Mathlib.Data.Int.Log
import Mathlib.Data.Rat.Floor
import Reckoner.Proofs.DecimalRounding

namespace Reckoner

/-- The numbers that so many digits and some zeros are enough for. -/
def HasDigits (count : Nat) (x : ℚ) : Prop := ∃ d : Decimal, d.coefficient < 10 ^ count ∧ d.value = x

/-- The place of the last of so many digits of a positive number, as an exponent of ten. -/
def lastPlace (value : ℚ) (count : Nat) : Int := Int.log 10 value + 1 - count

/-- What is closest to a value among the numbers of at most so many digits that qualify. Of two that are as close it is
the one with the even digit in the last place. -/
structure Closest (qualifies : ℚ → Prop) (value : ℚ) (count : Nat) (x : ℚ) : Prop where
  hasDigits : HasDigits count x
  holds : qualifies x
  closest : ∀ y, HasDigits count y → qualifies y → |x - value| ≤ |y - value|
  even : ∀ y, HasDigits count y → qualifies y → y ≠ x → |x - value| = |y - value| →
    ∃ half : Nat, x = 2 * half * 10 ^ lastPlace value count

theorem ten_zpow_pos (exponent : Int) : (0 : ℚ) < 10 ^ exponent := zpow_pos (by norm_num) exponent

theorem ten_zpow_log_le {value : ℚ} (positive : 0 < value) : (10 : ℚ) ^ Int.log 10 value ≤ value := by
  exact_mod_cast Int.zpow_log_le_self (b := 10) (by decide) positive

theorem lt_ten_zpow_log (value : ℚ) : value < (10 : ℚ) ^ (Int.log 10 value + 1) := by
  exact_mod_cast Int.lt_zpow_succ_log_self (b := 10) (by decide) value

section Digits

variable {fewer count coefficient : Nat} {x y value : ℚ} {qualifies : ℚ → Prop}

theorem HasDigits.mono (digits : HasDigits fewer x) (more : fewer ≤ count) : HasDigits count x := by
  obtain ⟨d, bound, rfl⟩ := digits
  exact ⟨d, bound.trans_le (Nat.pow_le_pow_right (by decide) more), rfl⟩

/-- A coefficient that carries into one more digit is a power of ten, for which one digit is enough. -/
theorem hasDigits_of_le (place : Int) (some_digit : 0 < count) (bound : coefficient ≤ 10 ^ count) :
    HasDigits count (coefficient * 10 ^ place) := by
  rcases Nat.lt_or_eq_of_le bound with inside | rfl
  · exact ⟨⟨coefficient, place⟩, inside, rfl⟩
  · refine ⟨⟨1, place + count⟩, Nat.one_lt_pow some_digit.ne' (by decide), ?_⟩
    rw [Decimal.value, zpow_add₀ (by norm_num), zpow_natCast]
    push_cast
    ring

/-- So many digits are multiples of the last place that they have under a given leading one, or they end below that
place and do not reach up to the leading one. -/
theorem HasDigits.multiple_or_lt (digits : HasDigits count x) (leading : Int) :
    (∃ multiple : Nat, x = multiple * 10 ^ (leading + 1 - count)) ∨ x < 10 ^ leading := by
  obtain ⟨d, bound, rfl⟩ := digits
  by_cases reaches : leading + 1 - count ≤ d.exponent
  · left
    obtain ⟨zeros, exponent⟩ := Int.le.dest reaches
    refine ⟨d.coefficient * 10 ^ zeros, ?_⟩
    rw [Decimal.value, ← exponent, zpow_add₀ (by norm_num), zpow_natCast]
    push_cast
    ring
  · right
    have cast : (d.coefficient : ℚ) < 10 ^ count := by exact_mod_cast bound
    calc d.value < 10 ^ count * 10 ^ d.exponent := mul_lt_mul_of_pos_right cast (ten_zpow_pos _)
      _ = 10 ^ (count + d.exponent) := by rw [zpow_add₀ (by norm_num), zpow_natCast]
      _ ≤ 10 ^ leading := zpow_le_zpow_right₀ (by norm_num) (by omega)

/-- It is enough to compare multiples of the last place with each other when the power of ten at the leading place
qualifies along with anything below it. -/
theorem closest_of_multiples (positive : 0 < value) (some_digit : 0 < count) (bound : coefficient ≤ 10 ^ count)
    (rises : ∀ y, HasDigits count y → qualifies y → y < 10 ^ Int.log 10 value → qualifies (10 ^ Int.log 10 value))
    (holds : qualifies (coefficient * 10 ^ lastPlace value count))
    (closest : ∀ other : Nat, qualifies (other * 10 ^ lastPlace value count) →
      |coefficient * 10 ^ lastPlace value count - value| ≤ |other * 10 ^ lastPlace value count - value|)
    (even : ∀ other : Nat, other ≠ coefficient → qualifies (other * 10 ^ lastPlace value count) →
      |coefficient * 10 ^ lastPlace value count - value| = |other * 10 ^ lastPlace value count - value| →
      coefficient % 2 = 0) :
    Closest qualifies value count (coefficient * 10 ^ lastPlace value count) := by
  have leads := ten_zpow_log_le positive
  have onGrid : (10 : ℚ) ^ Int.log 10 value = (10 ^ (count - 1) : Nat) * 10 ^ lastPlace value count := by
    have place : Int.log 10 value = (count - 1 : Nat) + lastPlace value count := by
      rw [lastPlace]
      omega
    rw [Nat.cast_pow, Nat.cast_ofNat, ← zpow_natCast, ← zpow_add₀ (by norm_num), ← place]
  -- What lies below the leading place is farther away than the power of ten there.
  have below (y : ℚ) (digits : HasDigits count y) (qualified : qualifies y) (under : y < 10 ^ Int.log 10 value) :
      |coefficient * 10 ^ lastPlace value count - value| < |y - value| := by
    have power := closest (10 ^ (count - 1)) (onGrid ▸ rises y digits qualified under)
    rw [← onGrid] at power
    refine power.trans_lt ?_
    rw [abs_sub_comm, abs_of_nonneg (sub_nonneg.mpr leads), abs_sub_comm, abs_of_nonneg (by linarith)]
    linarith
  refine ⟨hasDigits_of_le _ some_digit bound, holds, fun y digits qualified => ?_,
    fun y digits qualified different same => ?_⟩
  · rcases digits.multiple_or_lt (Int.log 10 value) with ⟨other, rfl⟩ | under
    · exact closest other qualified
    · exact (below y digits qualified under).le
  · rcases digits.multiple_or_lt (Int.log 10 value) with ⟨other, rfl⟩ | under
    · have apart : other ≠ coefficient := by
        rintro rfl
        exact different rfl
      have parity := even other apart qualified same
      refine ⟨coefficient / 2, ?_⟩
      have halves : coefficient = 2 * (coefficient / 2) := by omega
      have cast : (coefficient : ℚ) = 2 * (coefficient / 2 : Nat) := by exact_mod_cast halves
      rw [cast]
    · exact absurd same (below y digits qualified under).ne

/-- Two numbers that are as close would both be even in the last place, and the value itself would lie between them on a
multiple of that place. -/
theorem Closest.unique (self : qualifies value) (here : Closest qualifies value count x)
    (there : Closest qualifies value count y) : x = y := by
  by_contra different
  have same : |x - value| = |y - value| :=
    le_antisymm (here.closest y there.hasDigits there.holds) (there.closest x here.hasDigits here.holds)
  obtain ⟨half, isEven⟩ := here.even y there.hasDigits there.holds (Ne.symm different) same
  obtain ⟨otherHalf, isEvenToo⟩ := there.even x here.hasDigits here.holds different same.symm
  have power := ten_zpow_pos (lastPlace value count)
  have between : value = (half + otherHalf : Nat) * 10 ^ lastPlace value count := by
    have middle : x - value = -(y - value) :=
      (abs_eq_abs.mp same).resolve_left fun equal => different (sub_left_inj.mp equal)
    push_cast
    linarith
  have digits : HasDigits count value := by
    have top := lt_ten_zpow_log value
    have place : Int.log 10 value + 1 = count + lastPlace value count := by
      rw [lastPlace]
      omega
    rw [place, zpow_add₀ (by norm_num), zpow_natCast] at top
    refine ⟨⟨half + otherHalf, lastPlace value count⟩, ?_, between.symm⟩
    have less : ((half + otherHalf : Nat) : ℚ) < 10 ^ count := lt_of_mul_lt_mul_right (between ▸ top) power.le
    exact_mod_cast less
  have exactly : |x - value| ≤ |value - value| := here.closest value digits self
  have exactlyToo : |y - value| ≤ |value - value| := there.closest value digits self
  rw [sub_self, abs_zero, abs_nonpos_iff, sub_eq_zero] at exactly exactlyToo
  exact different (exactly.trans exactlyToo.symm)

end Digits

/-- No other whole number is closer to a ratio than the one it is rounded to, which is even when another one is as
close. -/
theorem nearestEven_closest {numerator denominator other : Nat} (positive : 0 < denominator)
    (different : other ≠ nearestEven numerator denominator) :
    |(nearestEven numerator denominator : ℚ) - numerator / denominator| ≤ |(other : ℚ) - numerator / denominator| ∧
      (|(nearestEven numerator denominator : ℚ) - numerator / denominator| = |(other : ℚ) - numerator / denominator| →
        nearestEven numerator denominator % 2 = 0) := by
  have near := dist_nearestEven numerator positive
  have rounds := roundsTo_nearestEven numerator positive
  generalize nearestEven numerator denominator = nearest at *
  have apart : (1 : ℚ) ≤ |(other : ℚ) - nearest| := by
    exact_mod_cast Int.one_le_abs (show (other : ℤ) - nearest ≠ 0 by omega)
  have far := abs_sub_le (other : ℚ) (numerator / denominator) nearest
  rw [abs_sub_comm (numerator / denominator : ℚ)] at far
  refine ⟨by linarith, fun same => ?_⟩
  have half : |(nearest : ℚ) - numerator / denominator| = 1 / 2 := by linarith
  have parts : (denominator : ℚ) ≠ 0 := Nat.cast_ne_zero.mpr positive.ne'
  rcases abs_eq (by norm_num) |>.mp half with above | below
  · have twice : 2 * (denominator * nearest) = 2 * numerator + denominator := by
      field_simp at above
      have cast : (2 * (denominator * nearest) : ℚ) = 2 * numerator + denominator := by linarith
      exact_mod_cast cast
    exact (rounds.below.resolve_left (by omega)).2
  · have twice : 2 * numerator = 2 * (denominator * nearest) + denominator := by
      field_simp at below
      have cast : (2 * numerator : ℚ) = 2 * (denominator * nearest) + denominator := by linarith
      exact_mod_cast cast
    exact (rounds.above.resolve_left (by omega)).2

/-- Every number is below the power of ten that has one digit more. -/
theorem lt_pow_digitCount (n : Nat) : n < 10 ^ digitCount n := by
  fun_induction digitCount n with
  | case1 n single => exact single
  | case2 n several short ih =>
    rw [Nat.pow_succ]
    omega
  | case3 n several long ih =>
    rw [Nat.pow_add]
    omega

namespace Magnitude

variable {m : Magnitude}

/-- A magnitude is below the power of ten that follows its leading digit. -/
theorem lt_ten_zpow_leading (m : Magnitude) : m.value < 10 ^ (m.leading + 1) := by
  obtain ⟨scaled, isScaled⟩ : ∃ scaled, scaled = m.quanta * tenTo 324 / quantaPerUnit := ⟨_, rfl⟩
  have exponent : m.leading + 1 = (digitCount scaled : Int) - (324 : Nat) := by
    rw [leading, ← isScaled]
    omega
  have units : (0 : ℚ) < quantaPerUnit := Nat.cast_pos.mpr (twoTo_pos 1074)
  have whole : m.value * tenTo 324 < 10 ^ digitCount scaled := by
    have inverse : quantum = 1 / quantaPerUnit := eq_one_div_of_mul_eq_one_right quantaPerUnit_mul_quantum
    have next : m.quanta * tenTo 324 < quantaPerUnit * (scaled + 1) := by
      rw [isScaled]
      exact Nat.lt_mul_div_succ _ (twoTo_pos 1074)
    have bound : scaled + 1 ≤ 10 ^ digitCount scaled := lt_pow_digitCount scaled
    have cast : (m.quanta * tenTo 324 : ℚ) < quantaPerUnit * 10 ^ digitCount scaled := by
      exact_mod_cast next.trans_le (Nat.mul_le_mul_left _ bound)
    rw [value, inverse, mul_one_div, div_mul_eq_mul_div, div_lt_iff₀ units, mul_comm _ (quantaPerUnit : ℚ)]
    exact cast
  have power : (10 : ℚ) ^ 324 = tenTo 324 := by rw [tenTo_eq, Nat.cast_pow, Nat.cast_ofNat]
  rw [exponent, zpow_sub₀ (by norm_num), zpow_natCast, zpow_natCast, power,
    lt_div_iff₀ (Nat.cast_pos.mpr (tenTo_pos 324))]
  exact whole

theorem log_value (some_rank : m.rank ≠ 0) : Int.log 10 m.value = m.leading := by
  have positive := value_pos some_rank
  have least : m.leading ≤ Int.log 10 m.value :=
    (Int.zpow_le_iff_le_log (by decide) positive).mp (by exact_mod_cast ten_zpow_leading_le some_rank)
  have most : Int.log 10 m.value < m.leading + 1 :=
    (Int.lt_zpow_iff_log_lt (by decide) positive).mp (by exact_mod_cast m.lt_ten_zpow_leading)
  omega

theorem rounded_eq (some_rank : m.rank ≠ 0) (digits : Nat) :
    m.rounded digits = m.roundedAt (lastPlace m.value digits) := by
  rw [rounded, lastPlace, log_value some_rank]

/-- Distances from a value are distances from the ratio that it is to a power of ten, scaled up. -/
theorem dist_multiple (multiple : Nat) (place : Int) : |multiple * 10 ^ place - m.value| =
    |(multiple : ℚ) - (m.ratioAt place).1 / (m.ratioAt place).2| * 10 ^ place := by
  have power := ten_zpow_pos place
  have scaled : multiple * 10 ^ place - m.value = (multiple - m.value / 10 ^ place) * 10 ^ place := by
    rw [sub_mul, div_mul_cancel₀ _ power.ne']
  rw [ratioAt_eq, scaled, abs_mul, abs_of_pos power]

/-- The whole number of steps of a power of ten that is nearest to a magnitude. -/
def nearSteps (m : Magnitude) (place : Int) : Nat := nearestEven (m.ratioAt place).1 (m.ratioAt place).2

theorem closest_nearSteps {place : Int} {other : Nat} (different : other ≠ m.nearSteps place) :
    |m.nearSteps place * 10 ^ place - m.value| ≤ |other * 10 ^ place - m.value| ∧
      (|m.nearSteps place * 10 ^ place - m.value| = |other * 10 ^ place - m.value| → m.nearSteps place % 2 = 0) := by
  obtain ⟨near, even⟩ := nearestEven_closest (m.ratioAt_pos place) different
  rw [dist_multiple, dist_multiple]
  exact ⟨mul_le_mul_of_nonneg_right near (ten_zpow_pos place).le,
    fun same => even (mul_right_cancel₀ (ten_zpow_pos place).ne' same)⟩

theorem ratioAt_lastPlace_lt (m : Magnitude) (digits : Nat) :
    (m.ratioAt (lastPlace m.value digits)).1 < (m.ratioAt (lastPlace m.value digits)).2 * 10 ^ digits := by
  have top := lt_ten_zpow_log m.value
  have place : Int.log 10 m.value + 1 = digits + lastPlace m.value digits := by
    rw [lastPlace]
    omega
  have parts : (0 : ℚ) < (m.ratioAt (lastPlace m.value digits)).2 := Nat.cast_pos.mpr (m.ratioAt_pos _)
  rw [place, zpow_add₀ (by norm_num), zpow_natCast, ← div_lt_iff₀ (ten_zpow_pos _), ← ratioAt_eq,
    div_lt_iff₀ parts, mul_comm] at top
  exact_mod_cast top

/-- A rounded value is the closest of all numbers of so many digits. -/
theorem closest_rounded (some_rank : m.rank ≠ 0) {digits : Nat} (some_digit : 0 < digits) :
    Closest (fun _ => True) m.value digits (m.rounded digits).value := by
  rw [rounded_eq some_rank, value_roundedAt]
  refine closest_of_multiples (value_pos some_rank) some_digit
    (nearestEven_le (m.ratioAt_pos _) (m.ratioAt_lastPlace_lt digits)) (fun _ _ _ _ => trivial) trivial
    (fun other _ => ?_) fun other different _ same => (closest_nearSteps different).2 same
  by_cases equal : other = m.nearSteps (lastPlace m.value digits)
  · rw [equal, nearSteps]
  · exact (closest_nearSteps equal).1

end Magnitude

end Reckoner

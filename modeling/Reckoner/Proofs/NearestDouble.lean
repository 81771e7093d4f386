import Mathlib.Algebra.Order.Field.Rat
import Mathlib.Data.Rat.Cast.Order
import Mathlib.Tactic.FieldSimp
import Mathlib.Tactic.NormNum
import Mathlib.Tactic.Positivity
import Reckoner.Proofs.Ranks

namespace Reckoner

/-- The least positive magnitude, which all magnitudes are multiples of. -/
def quantum : ℚ := 1 / 2 ^ 1074

theorem quantum_pos : 0 < quantum := one_div_pos.mpr (pow_pos two_pos 1074)

theorem quantaPerUnit_mul_quantum : (quantaPerUnit : ℚ) * quantum = 1 := by
  rw [quantaPerUnit, twoTo_eq, Nat.cast_pow, quantum]
  exact mul_one_div_cancel (pow_ne_zero 1074 two_ne_zero)

/-- The exact value at a rank, in a format without upper end. -/
def valueAt (rank : Nat) : ℚ := quantaAt rank * quantum

/-- The number halfway between the values at a rank and at the next one. -/
def halfwayAt (rank : Nat) : ℚ := (valueAt rank + valueAt (rank + 1)) / 2

theorem valueAt_strictMono : StrictMono valueAt :=
  fun _ _ less => mul_lt_mul_of_pos_right (Nat.cast_lt.mpr (quantaAt_strictMono less)) quantum_pos

theorem valueAt_lt_halfwayAt (rank : Nat) : valueAt rank < halfwayAt rank := by
  have next : valueAt rank < valueAt (rank + 1) := valueAt_strictMono (Nat.lt_succ_self rank)
  rw [halfwayAt]
  linarith

theorem halfwayAt_lt_valueAt (rank : Nat) : halfwayAt rank < valueAt (rank + 1) := by
  have next : valueAt rank < valueAt (rank + 1) := valueAt_strictMono (Nat.lt_succ_self rank)
  rw [halfwayAt]
  linarith

theorem halfwayAt_strictMono : StrictMono halfwayAt := by
  intro low high less
  have first : valueAt low < valueAt high := valueAt_strictMono less
  have second : valueAt (low + 1) < valueAt (high + 1) := valueAt_strictMono (Nat.add_lt_add_right less 1)
  rw [halfwayAt, halfwayAt]
  linarith

/-- A number lies between the halves around the value at a rank, and on one of them only when the rank is even. -/
structure RanksNearest (x : ℚ) (rank : Nat) : Prop where
  above : x < halfwayAt rank ∨ x = halfwayAt rank ∧ rank % 2 = 0
  below : ∀ before, rank = before + 1 → halfwayAt before < x ∨ halfwayAt before = x ∧ rank % 2 = 0

theorem ranksNearest_valueAt (rank : Nat) : RanksNearest (valueAt rank) rank where
  above := Or.inl (valueAt_lt_halfwayAt rank)
  below := by
    rintro before rfl
    exact Or.inl (halfwayAt_lt_valueAt before)

section Ratio

variable {numerator denominator rank : Nat} {x : ℚ}

/-- Numbers are compared with a half by whole numbers when they are given as ratios of quanta. -/
theorem mul_sub_halfwayAt (positive : 0 < denominator) (ratio : x = numerator / denominator * quantum) :
    (x - halfwayAt rank) * (2 * denominator) =
      ((2 * numerator : Nat) - (denominator * middleAt rank : Nat) : ℚ) * quantum := by
  have parts : (denominator : ℚ) ≠ 0 := Nat.cast_ne_zero.mpr positive.ne'
  rw [ratio, halfwayAt, valueAt, valueAt, middleAt]
  push_cast
  field_simp

theorem lt_halfwayAt (positive : 0 < denominator) (ratio : x = numerator / denominator * quantum)
    (less : 2 * numerator < denominator * middleAt rank) : x < halfwayAt rank := by
  have weight : (0 : ℚ) < 2 * denominator := mul_pos two_pos (Nat.cast_pos.mpr positive)
  have product : (x - halfwayAt rank) * (2 * denominator) < 0 := by
    rw [mul_sub_halfwayAt positive ratio]
    exact mul_neg_of_neg_of_pos (sub_neg.mpr (Nat.cast_lt.mpr less)) quantum_pos
  by_contra beyond
  have sign := mul_nonneg (sub_nonneg.mpr (not_lt.mp beyond)) weight.le
  linarith

theorem halfwayAt_lt (positive : 0 < denominator) (ratio : x = numerator / denominator * quantum)
    (less : denominator * middleAt rank < 2 * numerator) : halfwayAt rank < x := by
  have weight : (0 : ℚ) < 2 * denominator := mul_pos two_pos (Nat.cast_pos.mpr positive)
  have product : 0 < (x - halfwayAt rank) * (2 * denominator) := by
    rw [mul_sub_halfwayAt positive ratio]
    exact mul_pos (sub_pos.mpr (Nat.cast_lt.mpr less)) quantum_pos
  by_contra under
  have sign := mul_nonneg (sub_nonneg.mpr (not_lt.mp under)) weight.le
  linarith

theorem eq_halfwayAt (positive : 0 < denominator) (ratio : x = numerator / denominator * quantum)
    (same : 2 * numerator = denominator * middleAt rank) : x = halfwayAt rank := by
  have weight : (2 * denominator : ℚ) ≠ 0 := mul_ne_zero two_ne_zero (Nat.cast_ne_zero.mpr positive.ne')
  have product : (x - halfwayAt rank) * (2 * denominator) = 0 := by
    rw [mul_sub_halfwayAt positive ratio, same, sub_self, zero_mul]
  exact sub_eq_zero.mp ((mul_eq_zero.mp product).resolve_right weight)

/-- Rounding finds the nearest rank. -/
theorem ranksNearest_nearestRank (positive : 0 < denominator) (ratio : x = numerator / denominator * quantum) :
    RanksNearest x (nearestRank numerator denominator) := by
  obtain ⟨above, below⟩ := nearestRank_bounds numerator positive
  constructor
  · exact above.imp (lt_halfwayAt positive ratio) fun ⟨same, even⟩ => ⟨eq_halfwayAt positive ratio same, even⟩
  · intro before previous
    exact (below before previous).imp (halfwayAt_lt positive ratio) fun ⟨same, even⟩ =>
      ⟨(eq_halfwayAt positive ratio same.symm).symm, even⟩

end Ratio

namespace RanksNearest

variable {x y : ℚ} {rank other : Nat}

/-- Rounding keeps the order, so that it is determined by the number. -/
theorem le (ordered : x ≤ y) (here : RanksNearest x rank) (there : RanksNearest y other) : rank ≤ other := by
  by_contra beyond
  obtain ⟨before, rfl⟩ : ∃ before, rank = before + 1 := ⟨rank - 1, by omega⟩
  have behind := here.below before rfl
  have ahead := there.above
  rcases Nat.lt_or_eq_of_le (Nat.le_of_lt_succ (Nat.lt_of_not_le beyond)) with less | rfl
  · have further := halfwayAt_strictMono less
    rcases behind with behind | ⟨behind, -⟩ <;> rcases ahead with ahead | ⟨ahead, -⟩ <;> linarith
  · rcases behind with behind | ⟨behind, even⟩ <;> rcases ahead with ahead | ⟨ahead, evenToo⟩
    · linarith
    · linarith
    · linarith
    · omega

theorem eq (here : RanksNearest x rank) (there : RanksNearest x other) : rank = other :=
  Nat.le_antisymm (le (le_refl x) here there) (le (le_refl x) there here)

/-- No other value is nearer, and the rank is even when another value is as near. -/
theorem dist (here : RanksNearest x rank) (different : other ≠ rank) :
    |x - valueAt rank| ≤ |x - valueAt other| ∧ (|x - valueAt rank| = |x - valueAt other| → rank % 2 = 0) := by
  rcases Nat.lt_or_gt_of_ne different with lower | higher
  · obtain ⟨before, rfl⟩ : ∃ before, rank = before + 1 := ⟨rank - 1, by omega⟩
    have ordered : valueAt other ≤ valueAt before := valueAt_strictMono.monotone (Nat.le_of_lt_succ lower)
    have least : halfwayAt before ≤ x := (here.below before rfl).elim le_of_lt fun same => same.1.le
    have behind := valueAt_lt_halfwayAt before
    have further := halfwayAt_lt_valueAt before
    have far : |x - valueAt other| = x - valueAt other := abs_of_nonneg (by linarith)
    have half : halfwayAt before = (valueAt before + valueAt (before + 1)) / 2 := rfl
    rw [far]
    refine ⟨abs_le.mpr ⟨by linarith, by linarith⟩, fun same => ?_⟩
    rcases here.below before rfl with strict | ⟨-, even⟩
    · have near : |x - valueAt (before + 1)| < x - valueAt other := abs_lt.mpr ⟨by linarith, by linarith⟩
      exact absurd same near.ne
    · exact even
  · have ordered : valueAt (rank + 1) ≤ valueAt other := valueAt_strictMono.monotone higher
    have most : x ≤ halfwayAt rank := here.above.elim le_of_lt fun same => same.1.le
    have behind := valueAt_lt_halfwayAt rank
    have further := halfwayAt_lt_valueAt rank
    have far : |x - valueAt other| = valueAt other - x := by
      rw [abs_sub_comm]
      exact abs_of_nonneg (by linarith)
    have half : halfwayAt rank = (valueAt rank + valueAt (rank + 1)) / 2 := rfl
    rw [far]
    refine ⟨abs_le.mpr ⟨by linarith, by linarith⟩, fun same => ?_⟩
    rcases here.above with strict | ⟨-, even⟩
    · have near : |x - valueAt rank| < valueAt other - x := abs_lt.mpr ⟨by linarith, by linarith⟩
      exact absurd same near.ne
    · exact even

end RanksNearest

/-- From one value to the next there is a gap that is no less than the larger one over `2 ^ 53`. -/
theorem exists_gap (rank : Nat) :
    ∃ gap, valueAt (rank + 1) = valueAt rank + gap ∧ valueAt (rank + 1) ≤ 2 ^ 53 * gap := by
  obtain ⟨scale, next, bound⟩ := exists_spacing rank
  refine ⟨2 ^ scale * quantum, ?_, ?_⟩
  · rw [valueAt, valueAt, next]
    push_cast
    ring
  · have cast : (quantaAt (rank + 1) : ℚ) ≤ 2 ^ 53 * 2 ^ scale := by exact_mod_cast bound
    rw [valueAt, ← mul_assoc]
    exact mul_le_mul_of_nonneg_right cast quantum_pos.le

/-- A number that is as close to a value as 53 binary digits tell values apart is rounded to it. -/
theorem ranksNearest_of_close {x : ℚ} {rank : Nat} (close : |x - valueAt rank| * 2 ^ 54 < valueAt rank) :
    RanksNearest x rank := by
  obtain ⟨leastAway, mostAway⟩ := abs_le.mp (le_refl |x - valueAt rank|)
  constructor
  · obtain ⟨gap, next, bound⟩ := exists_gap rank
    have further : valueAt rank < valueAt (rank + 1) := valueAt_strictMono (Nat.lt_succ_self rank)
    left
    rw [halfwayAt]
    linarith
  · rintro before rfl
    obtain ⟨gap, next, bound⟩ := exists_gap before
    left
    rw [halfwayAt]
    linarith

/-- The exact value of a finite magnitude. -/
def Magnitude.value (m : Magnitude) : ℚ := m.quanta * quantum

theorem Magnitude.value_eq (m : Magnitude) : m.value = valueAt m.rank := rfl

theorem Magnitude.quanta_pos {m : Magnitude} (some_rank : m.rank ≠ 0) : 0 < m.quanta := by
  have least : quantaAt 0 < quantaAt m.rank := quantaAt_strictMono (Nat.pos_of_ne_zero some_rank)
  exact Nat.lt_of_le_of_lt (Nat.zero_le _) least

theorem Magnitude.value_pos {m : Magnitude} (some_rank : m.rank ≠ 0) : 0 < m.value :=
  mul_pos (Nat.cast_pos.mpr (quanta_pos some_rank)) quantum_pos

theorem Magnitude.significand_lt (m : Magnitude) : m.significand < 2 ^ 53 := by
  rw [significand, scale]
  unfold ranksPerBinade
  omega

theorem Magnitude.significand_mod_two (m : Magnitude) : m.significand % 2 = m.rank % 2 := by
  rw [significand, scale]
  unfold ranksPerBinade
  omega

/-- The nearest double to a number that is not negative. Of two that are as near it is the one with the even
significand, and from half a spacing above the largest magnitude on it is infinity. -/
inductive NearestDouble (x : ℚ) : Binary64 → Prop
  | finite {m : Magnitude} (bounded : x < 2 ^ 1024 - 2 ^ 970)
    (nearest : ∀ other : Magnitude, |x - m.value| ≤ |x - other.value|)
    (even : ∀ other : Magnitude, other ≠ m → |x - m.value| = |x - other.value| → m.significand % 2 = 0) :
    NearestDouble x (.finite false m)
  | infinity (beyond : 2 ^ 1024 - 2 ^ 970 ≤ x) : NearestDouble x (.infinity false)

/-- The largest finite magnitude has 53 ones for its digits, and the next power of two would follow it. -/
theorem halfwayAt_last : halfwayAt (infinityRank - 1) = 2 ^ 1024 - 2 ^ 970 := by
  have lastRank : infinityRank - 1 = 2045 * ranksPerBinade + (2 ^ 53 - 1) := by decide
  have nextRank : infinityRank - 1 + 1 = 2045 * ranksPerBinade + 2 ^ 53 := by decide
  have digits : 2 ^ 53 ≤ 2 * ranksPerBinade := by decide
  have normal : ranksPerBinade ≤ 2 ^ 53 - 1 := by decide
  have last : quantaAt (infinityRank - 1) = (2 ^ 53 - 1) * 2 ^ 2045 := by
    rw [lastRank]
    exact quantaAt_scale (by omega) (Or.inr normal)
  have next : quantaAt (infinityRank - 1 + 1) = 2 ^ 53 * 2 ^ 2045 := by
    rw [nextRank]
    exact quantaAt_scale digits (Or.inr (by omega))
  have spacing : ((2 ^ 2045 : Nat) : ℚ) * quantum = 2 * 2 ^ 970 := by
    have split : (2 : ℚ) ^ 2045 = 2 * 2 ^ 970 * 2 ^ 1074 := by
      rw [← pow_succ', ← pow_add]
    rw [Nat.cast_pow, Nat.cast_ofNat, split, quantum, mul_assoc, mul_one_div_cancel (pow_ne_zero 1074 two_ne_zero),
      mul_one]
  have top : (2 : ℚ) ^ 1024 = 2 ^ 54 * 2 ^ 970 := by rw [← pow_add]
  rw [halfwayAt, valueAt, valueAt, last, next, top, Nat.cast_mul, Nat.cast_mul, mul_assoc, mul_assoc, spacing]
  generalize (2 : ℚ) ^ 970 = step
  push_cast
  ring

theorem RanksNearest.lt_last_iff {x : ℚ} {rank : Nat} (ranks : RanksNearest x rank) :
    rank < infinityRank ↔ x < 2 ^ 1024 - 2 ^ 970 := by
  have odd : (infinityRank - 1) % 2 = 1 := by decide
  have positive : 0 < infinityRank := by decide
  rw [← halfwayAt_last]
  constructor
  · intro finite
    have ordered : halfwayAt rank ≤ halfwayAt (infinityRank - 1) := halfwayAt_strictMono.monotone (by omega)
    rcases ranks.above with below | ⟨same, even⟩
    · exact lt_of_lt_of_le below ordered
    · rw [same]
      exact halfwayAt_strictMono (by omega)
  · intro bounded
    by_contra infinite
    obtain ⟨before, rfl⟩ : ∃ before, rank = before + 1 := ⟨rank - 1, by omega⟩
    have ordered : halfwayAt (infinityRank - 1) ≤ halfwayAt before := halfwayAt_strictMono.monotone (by omega)
    have least : halfwayAt before ≤ x := (ranks.below before rfl).elim le_of_lt fun same => same.1.le
    linarith

theorem nearestDouble_ofRank {x : ℚ} {rank : Nat} (ranks : RanksNearest x rank) :
    NearestDouble x (.ofRank false rank) := by
  rw [Binary64.ofRank]
  split
  · rename_i finite
    refine .finite (ranks.lt_last_iff.mp finite) (fun other => ?_) fun other different same => ?_
    · by_cases self : other.rank = rank
      · rw [Magnitude.value_eq, Magnitude.value_eq, self]
      · exact (ranks.dist self).1
    · have apart : other.rank ≠ rank := by
        rintro rfl
        exact different rfl
      rw [Magnitude.significand_mod_two]
      exact (ranks.dist apart).2 same
  · rename_i infinite
    exact .infinity (not_lt.mp fun bounded => infinite (ranks.lt_last_iff.mpr bounded))

/-- Of two magnitudes as near to a number as any is, they stand next to each other, and only one of them is even. -/
theorem not_nearest_of_lt {x : ℚ} {low high : Magnitude} (less : low.rank < high.rank)
    (lowNearest : ∀ other : Magnitude, |x - low.value| ≤ |x - other.value|)
    (highNearest : ∀ other : Magnitude, |x - high.value| ≤ |x - other.value|)
    (lowEven : low.significand % 2 = 0) (highEven : high.significand % 2 = 0) : False := by
  rw [Magnitude.significand_mod_two] at lowEven highEven
  have bound := high.rank_lt
  let between : Magnitude := ⟨low.rank + 1, by omega⟩
  have under : low.value < between.value := valueAt_strictMono (Nat.lt_succ_self low.rank)
  have above : between.value < high.value := valueAt_strictMono (show low.rank + 1 < high.rank by omega)
  have fromLow := lowNearest between
  have fromHigh := highNearest between
  rcases abs_cases (x - between.value) with ⟨away, -⟩ | ⟨away, -⟩
  · have far := le_abs_self (x - low.value)
    linarith
  · have far := neg_abs_le (x - high.value)
    linarith

/-- No number has two nearest doubles. -/
theorem NearestDouble.unique {x : ℚ} {v w : Binary64} (first : NearestDouble x v) (second : NearestDouble x w) :
    v = w := by
  cases first with
  | @finite m bounded nearest even =>
    cases second with
    | @finite other _ otherNearest otherEven =>
      by_contra different
      have apart : other ≠ m := fun same => different (by rw [same])
      have same : |x - m.value| = |x - other.value| := le_antisymm (nearest other) (otherNearest m)
      have here := even other apart same
      have there := otherEven m apart.symm same.symm
      rcases Nat.lt_trichotomy m.rank other.rank with less | equal | more
      · exact not_nearest_of_lt less nearest otherNearest here there
      · cases m
        cases other
        exact apart (by simpa using equal.symm)
      · exact not_nearest_of_lt more otherNearest nearest there here
    | infinity beyond => exact absurd bounded (not_lt.mpr beyond)
  | infinity beyond =>
    cases second with
    | finite bounded _ _ => exact absurd bounded (not_lt.mpr beyond)
    | infinity _ => rfl

/-- Rounding a ratio of quanta finds the nearest double. -/
theorem nearestDouble_nearest {x : ℚ} {numerator denominator : Nat} (positive : 0 < denominator)
    (ratio : x = numerator / denominator * quantum) : NearestDouble x (.nearest false numerator denominator) :=
  nearestDouble_ofRank (ranksNearest_nearestRank positive ratio)

end Reckoner

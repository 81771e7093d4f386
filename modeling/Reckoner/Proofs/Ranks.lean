import Mathlib.Order.Monotone.Basic
import Mathlib.Tactic.Linarith
import Mathlib.Tactic.Ring
import Reckoner.Nearest

namespace Reckoner

theorem twoTo_eq (exponent : Nat) : twoTo exponent = 2 ^ exponent := rfl

theorem tenTo_eq (exponent : Nat) : tenTo exponent = 10 ^ exponent := rfl

/-- The exact value at a rank in quanta, in a format without upper end. -/
def quantaAt (rank : Nat) : Nat :=
  let scale := rank / ranksPerBinade - 1
  (rank - scale * ranksPerBinade) * twoTo scale

/-- A rank as a scale and a significand, which has its 53 digits unless the scale is the least. -/
theorem exists_scale (rank : Nat) : ∃ scale significand, rank = scale * ranksPerBinade + significand ∧
    significand < 2 * ranksPerBinade ∧ (scale = 0 ∨ ranksPerBinade ≤ significand) := by
  unfold ranksPerBinade
  exact ⟨rank / 0x10000000000000 - 1, rank - (rank / 0x10000000000000 - 1) * 0x10000000000000, by omega, by omega,
    by omega⟩

/-- The value of a scale and a significand. A significand that carries into a 54th digit is the power of two at which
the next scale begins. -/
theorem quantaAt_scale {scale significand : Nat} (carried : significand ≤ 2 * ranksPerBinade)
    (normal : scale = 0 ∨ ranksPerBinade ≤ significand) :
    quantaAt (scale * ranksPerBinade + significand) = significand * 2 ^ scale := by
  rw [quantaAt, twoTo_eq]
  by_cases carries : significand = 2 * ranksPerBinade
  · have next : (scale * ranksPerBinade + significand) / ranksPerBinade - 1 = scale + 1 := by
      unfold ranksPerBinade at *
      omega
    have least : scale * ranksPerBinade + significand - (scale + 1) * ranksPerBinade = ranksPerBinade := by
      unfold ranksPerBinade at *
      omega
    simp only [next, least]
    rw [carries]
    ring
  · have same : (scale * ranksPerBinade + significand) / ranksPerBinade - 1 = scale := by
      unfold ranksPerBinade at *
      omega
    simp only [same, Nat.add_sub_cancel_left]

/-- One rank up the value grows by the spacing of its scale, and what it grows to has at most 53 digits before it. -/
theorem exists_spacing (rank : Nat) : ∃ scale, quantaAt (rank + 1) = quantaAt rank + 2 ^ scale ∧
    quantaAt (rank + 1) ≤ 2 ^ 53 * 2 ^ scale := by
  obtain ⟨scale, significand, rfl, inside, normal⟩ := exists_scale rank
  have here : quantaAt (scale * ranksPerBinade + significand) = significand * 2 ^ scale :=
    quantaAt_scale (by omega) normal
  have next : quantaAt (scale * ranksPerBinade + significand + 1) = (significand + 1) * 2 ^ scale := by
    rw [Nat.add_assoc]
    exact quantaAt_scale (by omega) (by omega)
  refine ⟨scale, ?_, ?_⟩
  · rw [next, here]
    ring
  · rw [next]
    exact Nat.mul_le_mul_right _ (by unfold ranksPerBinade at inside; omega)

theorem quantaAt_strictMono : StrictMono quantaAt := by
  refine strictMono_nat_of_lt_succ fun rank => ?_
  obtain ⟨scale, next, -⟩ := exists_spacing rank
  have positive : 0 < 2 ^ scale := Nat.two_pow_pos scale
  omega

/-- A rank stands for a number or for infinity. -/
theorem Binary64.isNaN_ofRank (negative : Bool) (rank : Nat) : (ofRank negative rank).isNaN = false := by
  rw [ofRank]
  split <;> rfl

theorem quantaAt_one : quantaAt 0x3ff0000000000000 = quantaPerUnit := by decide +kernel

/-- Twice the value halfway between a rank and the next one. -/
def middleAt (rank : Nat) : Nat := quantaAt rank + quantaAt (rank + 1)

theorem middleAt_scale {scale significand : Nat} (inside : significand < 2 * ranksPerBinade)
    (normal : scale = 0 ∨ ranksPerBinade ≤ significand) :
    middleAt (scale * ranksPerBinade + significand) = (2 * significand + 1) * 2 ^ scale := by
  have here : quantaAt (scale * ranksPerBinade + significand) = significand * 2 ^ scale :=
    quantaAt_scale (Nat.le_of_lt inside) normal
  have next : quantaAt (scale * ranksPerBinade + significand + 1) = (significand + 1) * 2 ^ scale := by
    rw [Nat.add_assoc]
    exact quantaAt_scale inside (by omega)
  rw [middleAt, here, next]
  ring

/-- Above the power of two that a carry leads to values stand twice as far apart. -/
theorem middleAt_carried (scale : Nat) :
    middleAt (scale * ranksPerBinade + 2 * ranksPerBinade) = (2 * (2 * ranksPerBinade) + 2) * 2 ^ scale := by
  have order : scale * ranksPerBinade + 2 * ranksPerBinade = (scale + 1) * ranksPerBinade + ranksPerBinade := by ring
  rw [order, middleAt_scale (by decide) (Or.inr (Nat.le_refl _))]
  ring

/-- A whole number is the nearest to a ratio: the ratio lies between the halves around it, and on one of them only
when the number is even. -/
structure RoundsTo (numerator denominator nearest : Nat) : Prop where
  above : 2 * numerator < 2 * (denominator * nearest) + denominator ∨
    2 * numerator = 2 * (denominator * nearest) + denominator ∧ nearest % 2 = 0
  below : 2 * (denominator * nearest) < 2 * numerator + denominator ∨
    2 * (denominator * nearest) = 2 * numerator + denominator ∧ nearest % 2 = 0

theorem roundsTo_nearestEven (numerator : Nat) {denominator : Nat} (positive : 0 < denominator) :
    RoundsTo numerator denominator (nearestEven numerator denominator) := by
  have split := Nat.div_add_mod numerator denominator
  have remainder := Nat.mod_lt numerator positive
  obtain ⟨floor, isFloor⟩ : ∃ floor, floor = numerator / denominator := ⟨_, rfl⟩
  rw [← isFloor] at split
  have next : denominator * (floor + 1) = denominator * floor + denominator := by ring
  rw [nearestEven, ← isFloor]
  by_cases low : 2 * (numerator % denominator) < denominator
  · rw [if_pos low]
    constructor <;> omega
  · rw [if_neg low]
    by_cases high : denominator < 2 * (numerator % denominator)
    · rw [if_pos high]
      constructor <;> omega
    · rw [if_neg high]
      rcases Nat.mod_two_eq_zero_or_one floor with even | odd
      · rw [even, Nat.add_zero]
        constructor <;> omega
      · rw [odd]
        constructor <;> omega

theorem nearestEven_le {numerator denominator bound : Nat} (positive : 0 < denominator)
    (under : numerator < denominator * bound) : nearestEven numerator denominator ≤ bound := by
  by_contra beyond
  have rounds := (roundsTo_nearestEven numerator positive).below
  have far : denominator * (bound + 1) ≤ denominator * nearestEven numerator denominator :=
    Nat.mul_le_mul_left _ (by omega)
  rw [Nat.mul_add, Nat.mul_one] at far
  omega

theorem le_nearestEven {numerator denominator bound : Nat} (positive : 0 < denominator)
    (reaches : denominator * bound ≤ numerator) : bound ≤ nearestEven numerator denominator := by
  by_contra under
  have rounds := (roundsTo_nearestEven numerator positive).above
  have far : denominator * (nearestEven numerator denominator + 1) ≤ denominator * bound :=
    Nat.mul_le_mul_left _ (by omega)
  rw [Nat.mul_add, Nat.mul_one] at far
  omega

/-- A ratio is rounded at the scale that leaves its rounded significand 53 digits, or at the least scale. -/
theorem exists_nearestRank (numerator : Nat) {denominator : Nat} (positive : 0 < denominator) :
    ∃ scale significand, nearestRank numerator denominator = scale * ranksPerBinade + significand ∧
      RoundsTo numerator (denominator * 2 ^ scale) significand ∧ significand ≤ 2 * ranksPerBinade ∧
      (scale = 0 ∨ ranksPerBinade ≤ significand ∧ denominator * (ranksPerBinade * 2 ^ scale) ≤ numerator) := by
  obtain ⟨scale, isScale⟩ : ∃ scale, scale = Nat.log2 (numerator / denominator) - 52 := ⟨_, rfl⟩
  have spaced : 0 < denominator * 2 ^ scale := Nat.mul_pos positive (Nat.two_pow_pos scale)
  have digits : 2 * ranksPerBinade = 2 ^ 53 := rfl
  have under : numerator < denominator * 2 ^ scale * (2 * ranksPerBinade) := by
    have whole : numerator / denominator < 2 ^ (scale + 53) :=
      Nat.lt_of_lt_of_le Nat.lt_log2_self (Nat.pow_le_pow_right (by decide) (by omega))
    rw [Nat.div_lt_iff_lt_mul positive] at whole
    rw [digits, Nat.mul_assoc, ← Nat.pow_add, Nat.mul_comm]
    exact whole
  have high : scale = 0 ∨ denominator * (ranksPerBinade * 2 ^ scale) ≤ numerator := by
    by_cases least : scale = 0
    · exact Or.inl least
    · have large : 2 ^ (52 + scale) ≤ numerator / denominator := by
        have exponent : 52 + scale = Nat.log2 (numerator / denominator) := by omega
        rw [exponent]
        refine Nat.log2_self_le fun zero => least ?_
        rw [isScale, zero]
        rfl
      rw [Nat.le_div_iff_mul_le positive, Nat.mul_comm, Nat.pow_add] at large
      exact Or.inr large
  refine ⟨scale, nearestEven numerator (denominator * 2 ^ scale), ?_, roundsTo_nearestEven numerator spaced,
    nearestEven_le spaced under, high.imp_right fun large => ⟨le_nearestEven spaced ?_, large⟩⟩
  · rw [nearestRank, ← isScale]
    rfl
  · rw [Nat.mul_assoc, Nat.mul_comm (2 ^ scale)]
    exact large

namespace RoundsTo

variable {numerator denominator scale significand : Nat}

/-- A ratio is not above the middle between what it is rounded to and the next value. -/
theorem le_middleAt (rounds : RoundsTo numerator (denominator * 2 ^ scale) significand) (positive : 0 < denominator)
    (carried : significand ≤ 2 * ranksPerBinade) (normal : scale = 0 ∨ ranksPerBinade ≤ significand) :
    2 * numerator < denominator * middleAt (scale * ranksPerBinade + significand) ∨
      2 * numerator = denominator * middleAt (scale * ranksPerBinade + significand) ∧ significand % 2 = 0 := by
  have above := rounds.above
  rcases Nat.lt_or_eq_of_le carried with inside | rfl
  · have half : denominator * middleAt (scale * ranksPerBinade + significand) =
        2 * (denominator * 2 ^ scale * significand) + denominator * 2 ^ scale := by
      rw [middleAt_scale inside normal]
      ring
    rw [half]
    exact above
  · have far : denominator * middleAt (scale * ranksPerBinade + 2 * ranksPerBinade) =
        2 * (denominator * 2 ^ scale * (2 * ranksPerBinade)) + 2 * (denominator * 2 ^ scale) := by
      rw [middleAt_carried]
      ring
    have spaced : 0 < denominator * 2 ^ scale := Nat.mul_pos positive (Nat.two_pow_pos scale)
    omega

/-- A ratio is not below the middle between what it is rounded to and the value before. -/
theorem middleAt_le (rounds : RoundsTo numerator (denominator * 2 ^ scale) significand) (positive : 0 < denominator)
    (carried : significand ≤ 2 * ranksPerBinade)
    (normal : scale = 0 ∨ ranksPerBinade ≤ significand ∧ denominator * (ranksPerBinade * 2 ^ scale) ≤ numerator)
    {rank : Nat} (previous : scale * ranksPerBinade + significand = rank + 1) :
    denominator * middleAt rank < 2 * numerator ∨
      denominator * middleAt rank = 2 * numerator ∧ significand % 2 = 0 := by
  by_cases inside : scale = 0 ∨ ranksPerBinade < significand
  · obtain ⟨less, rfl⟩ : ∃ less, significand = less + 1 := by
      refine ⟨significand - 1, ?_⟩
      rcases inside with rfl | large
      · omega
      · omega
    have order : rank = scale * ranksPerBinade + less := by omega
    have half : denominator * middleAt rank + denominator * 2 ^ scale = 2 * (denominator * 2 ^ scale * (less + 1)) := by
      rw [order, middleAt_scale (by omega) (by omega)]
      ring
    have below := rounds.below
    omega
  · -- At a power of two the ranks below stand closer, and the ratio is not below the power.
    obtain ⟨large, ratio⟩ := normal.resolve_left fun least => inside (Or.inl least)
    obtain ⟨less, rfl⟩ : ∃ less, scale = less + 1 := ⟨scale - 1, by omega⟩
    have order : rank = less * ranksPerBinade + (2 * ranksPerBinade - 1) := by
      unfold ranksPerBinade at *
      omega
    have digits : 2 * (2 * ranksPerBinade - 1) + 1 + 1 = 4 * ranksPerBinade := by decide
    have close : denominator * middleAt rank + denominator * 2 ^ less =
        2 * (denominator * (ranksPerBinade * 2 ^ (less + 1))) := by
      calc denominator * middleAt rank + denominator * 2 ^ less
          = denominator * 2 ^ less * (2 * (2 * ranksPerBinade - 1) + 1 + 1) := by
            rw [order, middleAt_scale (by decide) (Or.inr (by decide))]
            ring
        _ = 2 * (denominator * (ranksPerBinade * 2 ^ (less + 1))) := by
            rw [digits]
            ring
    have spaced : 0 < denominator * 2 ^ less := Nat.mul_pos positive (Nat.two_pow_pos less)
    omega

end RoundsTo

/-- The value that a ratio of quanta is rounded to lies next to it: no other rank is nearer, and the rank is even when
another one is as near. -/
theorem nearestRank_bounds (numerator : Nat) {denominator : Nat} (positive : 0 < denominator) :
    (2 * numerator < denominator * middleAt (nearestRank numerator denominator) ∨
      2 * numerator = denominator * middleAt (nearestRank numerator denominator) ∧
        nearestRank numerator denominator % 2 = 0) ∧
    ∀ rank, nearestRank numerator denominator = rank + 1 → denominator * middleAt rank < 2 * numerator ∨
      denominator * middleAt rank = 2 * numerator ∧ nearestRank numerator denominator % 2 = 0 := by
  obtain ⟨scale, significand, split, rounds, carried, normal⟩ := exists_nearestRank numerator positive
  have parity : nearestRank numerator denominator % 2 = significand % 2 := by
    rw [split]
    unfold ranksPerBinade
    omega
  rw [parity, split]
  exact ⟨rounds.le_middleAt positive carried (normal.imp_right And.left),
    fun rank previous => rounds.middleAt_le positive carried normal previous⟩

end Reckoner

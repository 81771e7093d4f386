import Reckoner.Proofs.NearestDouble

namespace Reckoner

/-- The highest bit of the interchange format. Eleven bits of exponent and 52 of fraction follow. -/
def signField (bits : UInt64) : Nat := bits.toNat / 2 ^ 63

def exponentField (bits : UInt64) : Nat := bits.toNat / 2 ^ 52 % 2 ^ 11

def fractionField (bits : UInt64) : Nat := bits.toNat % 2 ^ 52

/-- An exponent field of ones is kept for infinity and for what is not a number. -/
def IsFinitePattern (bits : UInt64) : Prop := exponentField bits < 2 ^ 11 - 1

instance (bits : UInt64) : Decidable (IsFinitePattern bits) := inferInstanceAs (Decidable (_ < _))

/-- The fraction, with a one before its 52 digits unless the exponent field is zero. -/
def patternSignificand (bits : UInt64) : Nat :=
  if exponentField bits = 0 then fractionField bits else 2 ^ 52 + fractionField bits

/-- The exact value of a finite pattern. Below the least normal number the spacing stays the same. -/
def patternValue (bits : UInt64) : ℚ :=
  (-1) ^ signField bits * (patternSignificand bits * 2 ^ ((max (exponentField bits) 1 : Nat) - 1075 : Int))

/-- The pattern nearest to a number that is not negative, among the finite ones of either sign. Of two that are as
near it is the one with the even significand, and from half a spacing above the largest finite value on it is that of
infinity. -/
inductive NearestPattern (x : ℚ) (bits : UInt64) : Prop
  | finite (bounded : x < 2 ^ 1024 - 2 ^ 970) (finite : IsFinitePattern bits) (unsigned : signField bits = 0)
    (nearest : ∀ other, IsFinitePattern other → |x - patternValue bits| ≤ |x - patternValue other|)
    (even : ∀ other, IsFinitePattern other → patternValue other ≠ patternValue bits →
      |x - patternValue bits| = |x - patternValue other| → patternSignificand bits % 2 = 0)
  | infinity (beyond : 2 ^ 1024 - 2 ^ 970 ≤ x) (ones : bits = 0x7ff0000000000000)

section Fields

variable {bits : UInt64}

theorem isFinitePattern_iff : IsFinitePattern bits ↔ bits.toNat % 2 ^ 63 < infinityRank := by
  unfold IsFinitePattern exponentField infinityRank
  omega

theorem patternSignificand_eq : patternSignificand bits =
    bits.toNat % 2 ^ 63 - (bits.toNat % 2 ^ 63 / ranksPerBinade - 1) * ranksPerBinade := by
  unfold patternSignificand exponentField fractionField ranksPerBinade
  split <;> omega

/-- Below the sign a pattern is the rank of its magnitude. -/
theorem patternValue_eq : patternValue bits = (-1) ^ signField bits * valueAt (bits.toNat % 2 ^ 63) := by
  obtain ⟨scale, isScale⟩ : ∃ scale, scale = bits.toNat % 2 ^ 63 / ranksPerBinade - 1 := ⟨_, rfl⟩
  have exponent : ((max (exponentField bits) 1 : Nat) - 1075 : Int) = (scale : Int) - (1074 : Nat) := by
    rw [isScale]
    unfold exponentField ranksPerBinade
    omega
  have quanta : quantaAt (bits.toNat % 2 ^ 63) = patternSignificand bits * 2 ^ scale := by
    rw [patternSignificand_eq, isScale]
    rfl
  have spacing : (2 : ℚ) ^ ((scale : Int) - (1074 : Nat)) = 2 ^ scale * quantum := by
    rw [zpow_sub₀ two_ne_zero, zpow_natCast, zpow_natCast, quantum, mul_one_div]
  rw [patternValue, exponent, spacing, valueAt, quanta, Nat.cast_mul, Nat.cast_pow, Nat.cast_ofNat, mul_assoc]

end Fields

namespace Magnitude

/-- The pattern without sign. -/
def bits (m : Magnitude) : UInt64 := UInt64.ofNat m.rank

variable (m : Magnitude)

theorem rank_lt_two_pow : m.rank < 2 ^ 63 := m.rank_lt.trans (by decide)

@[simp]
theorem toNat_bits : m.bits.toNat = m.rank :=
  UInt64.toNat_ofNat_of_lt (m.rank_lt_two_pow.trans (by decide))

theorem rank_bits : m.bits.toNat % 2 ^ 63 = m.rank := by
  rw [toNat_bits, Nat.mod_eq_of_lt m.rank_lt_two_pow]

@[simp]
theorem signField_bits : signField m.bits = 0 := by
  rw [signField, toNat_bits, Nat.div_eq_of_lt m.rank_lt_two_pow]

@[simp]
theorem isFinitePattern_bits : IsFinitePattern m.bits := by
  rw [isFinitePattern_iff, rank_bits]
  exact m.rank_lt

@[simp]
theorem patternSignificand_bits : patternSignificand m.bits = m.significand := by
  rw [patternSignificand_eq, rank_bits]
  rfl

@[simp]
theorem patternValue_bits : patternValue m.bits = m.value := by
  rw [patternValue_eq, signField_bits, rank_bits, pow_zero, one_mul, value_eq]

theorem toBits_finite : (Binary64.finite false m).toBits = m.bits := by
  rw [Binary64.toBits, if_neg Bool.false_ne_true, Nat.zero_add, bits]

theorem value_injective {m other : Magnitude} (same : m.value = other.value) : m = other := by
  obtain ⟨rank, bound⟩ := m
  obtain ⟨otherRank, otherBound⟩ := other
  obtain rfl : rank = otherRank := valueAt_strictMono.injective same
  rfl

end Magnitude

section Nearest

variable {x : ℚ} {v : Binary64} {bits other : UInt64}

theorem exists_magnitude_of_unsigned (finite : IsFinitePattern bits) (unsigned : signField bits = 0) :
    ∃ m : Magnitude, m.bits = bits := by
  have rank : bits.toNat % 2 ^ 63 = bits.toNat := by
    rw [signField] at unsigned
    omega
  rw [isFinitePattern_iff, rank] at finite
  exact ⟨⟨bits.toNat, finite⟩, UInt64.ofNat_toNat⟩

/-- To a number that is not negative zero is nearer than any negative value. -/
theorem exists_magnitude_or_nearer (nonneg : 0 ≤ x) (finite : IsFinitePattern other) :
    (∃ m : Magnitude, m.value = patternValue other) ∨
      ∃ m : Magnitude, |x - m.value| < |x - patternValue other| := by
  have zero : valueAt 0 = 0 := by simp [valueAt, quantaAt]
  rw [isFinitePattern_iff] at finite
  by_cases unsigned : signField other = 0
  · left
    refine ⟨⟨other.toNat % 2 ^ 63, finite⟩, ?_⟩
    rw [patternValue_eq, unsigned, pow_zero, one_mul, Magnitude.value_eq]
  · have bound := other.toNat_lt
    have signed : signField other = 1 := by
      rw [signField] at unsigned ⊢
      omega
    rw [patternValue_eq, signed, pow_one, neg_one_mul, sub_neg_eq_add]
    rcases Nat.eq_zero_or_pos (other.toNat % 2 ^ 63) with none | some_rank
    · left
      refine ⟨⟨0, by decide⟩, ?_⟩
      rw [none, Magnitude.value_eq, zero, neg_zero]
    · right
      refine ⟨⟨0, by decide⟩, ?_⟩
      have positive : valueAt 0 < valueAt (other.toNat % 2 ^ 63) := valueAt_strictMono some_rank
      rw [Magnitude.value_eq]
      rw [zero] at positive ⊢
      rw [sub_zero, abs_of_nonneg nonneg, abs_of_nonneg (add_nonneg nonneg positive.le)]
      exact lt_add_of_pos_right x positive

theorem nearestPattern_toBits (nonneg : 0 ≤ x) (nearestDouble : NearestDouble x v) : NearestPattern x v.toBits := by
  cases nearestDouble with
  | @finite m bounded nearest even =>
    rw [m.toBits_finite]
    refine .finite bounded m.isFinitePattern_bits m.signField_bits (fun other finite => ?_)
      fun other finite different same => ?_
    · rw [m.patternValue_bits]
      rcases exists_magnitude_or_nearer nonneg finite with ⟨there, value⟩ | ⟨there, nearer⟩
      · rw [← value]
        exact nearest there
      · exact (nearest there).trans nearer.le
    · rw [m.patternValue_bits] at different same
      rw [m.patternSignificand_bits]
      rcases exists_magnitude_or_nearer nonneg finite with ⟨there, value⟩ | ⟨there, nearer⟩
      · rw [← value] at different same
        exact even there (fun equal => different (by rw [equal])) same
      · exact absurd same ((nearest there).trans_lt nearer).ne
  | infinity beyond => exact .infinity beyond rfl

theorem NearestPattern.exists_double (nearestPattern : NearestPattern x bits) :
    ∃ v : Binary64, NearestDouble x v ∧ v.toBits = bits := by
  cases nearestPattern with
  | finite bounded finite unsigned nearest even =>
    obtain ⟨m, rfl⟩ := exists_magnitude_of_unsigned finite unsigned
    simp only [m.patternValue_bits, m.patternSignificand_bits] at nearest even
    refine ⟨.finite false m, .finite bounded (fun other => ?_) fun other different same => ?_, m.toBits_finite⟩
    · have bound := nearest other.bits other.isFinitePattern_bits
      rwa [other.patternValue_bits] at bound
    · have parity := even other.bits other.isFinitePattern_bits
      rw [other.patternValue_bits] at parity
      exact parity (fun equal => different (Magnitude.value_injective equal)) same
  | infinity beyond ones => exact ⟨.infinity false, .infinity beyond, ones.symm⟩

/-- The nearest double and the nearest pattern are the same. -/
theorem nearestPattern_iff (nonneg : 0 ≤ x) (nearestDouble : NearestDouble x v) :
    NearestPattern x bits ↔ bits = v.toBits := by
  constructor
  · intro nearestPattern
    obtain ⟨w, nearestToo, rfl⟩ := nearestPattern.exists_double
    rw [nearestToo.unique nearestDouble]
  · rintro rfl
    exact nearestPattern_toBits nonneg nearestDouble

theorem NearestPattern.eq_infinity_iff (nearestPattern : NearestPattern x bits) :
    bits = 0x7ff0000000000000 ↔ 2 ^ 1024 - 2 ^ 970 ≤ x := by
  cases nearestPattern with
  | finite bounded finite =>
    refine iff_of_false ?_ (not_le.mpr bounded)
    rintro rfl
    exact absurd finite (by decide)
  | infinity beyond ones => exact iff_of_true ones beyond

end Nearest

end Reckoner

import Mathlib.Data.Rat.Floor
import Reckoner.Elementary.Rounded
import Reckoner.Operator
import Reckoner.Proofs.BitPatterns

namespace Reckoner

/-- The whole part of a number. Below zero it is rounded up. -/
def towardZero (x : ℚ) : ℤ := if 0 ≤ x then ⌊x⌋ else ⌈x⌉

theorem towardZero_neg (x : ℚ) : towardZero (-x) = -towardZero x := by
  rcases lt_trichotomy x 0 with negative | rfl | positive
  · rw [towardZero, towardZero, if_pos (by linarith), if_neg (by linarith), Int.floor_neg]
  · simp [towardZero]
  · rw [towardZero, towardZero, if_neg (by linarith), if_pos positive.le, Int.ceil_neg]

theorem towardZero_natCast_div (n d : ℕ) : towardZero (n / d) = (n : ℤ).tdiv d := by
  have nonneg : (0 : ℚ) ≤ n / d := by positivity
  rw [towardZero, if_pos nonneg, Rat.floor_natCast_div_natCast, ← Int.ofNat_tdiv, Int.natCast_ediv]

/-- The whole part of a ratio is the quotient of the division that truncates. -/
theorem towardZero_div (a b : ℤ) : towardZero (a / b) = a.tdiv b := by
  have over_nat (n : ℕ) : towardZero (n / b) = (n : ℤ).tdiv b := by
    obtain ⟨d, rfl | rfl⟩ := b.eq_nat_or_neg
    · rw [Int.cast_natCast, towardZero_natCast_div]
    · rw [Int.cast_neg, Int.cast_natCast, div_neg, towardZero_neg, towardZero_natCast_div, Int.tdiv_neg]
  obtain ⟨n, rfl | rfl⟩ := a.eq_nat_or_neg
  · rw [Int.cast_natCast, over_nat]
  · rw [Int.cast_neg, Int.cast_natCast, neg_div, towardZero_neg, over_nat, Int.neg_tdiv]

section Ranks

/-- Every number of at most 53 binary digits before some zeros is the value at a rank. -/
theorem exists_quantaAt_eq (scale : ℕ) {significand : ℕ} (digits : significand ≤ 2 * ranksPerBinade) :
    ∃ rank, quantaAt rank = significand * 2 ^ scale := by
  -- Zeros before the first digit are filled by doubling, as far as the scale allows.
  induction scale generalizing significand with
  | zero => exact ⟨0 * ranksPerBinade + significand, quantaAt_scale digits (Or.inl rfl)⟩
  | succ scale ih =>
    by_cases normal : ranksPerBinade ≤ significand
    · exact ⟨(scale + 1) * ranksPerBinade + significand, quantaAt_scale digits (Or.inr normal)⟩
    · obtain ⟨rank, value⟩ := ih (by omega : 2 * significand ≤ 2 * ranksPerBinade)
      exact ⟨rank, by rw [value]; ring⟩

/-- A remainder has no finer spacing than the finer one of its operands, and no more digits than the operand with that
spacing. -/
theorem exists_quantaAt_mod (rank : ℕ) {divisor : ℕ} (nonzero : divisor ≠ 0) :
    ∃ left, quantaAt left = quantaAt rank % quantaAt divisor := by
  obtain ⟨scale, significand, rfl, inside, normal⟩ := exists_scale rank
  obtain ⟨scale', significand', rfl, inside', normal'⟩ := exists_scale divisor
  have positive : 0 < significand' := by
    unfold ranksPerBinade at nonzero normal'
    omega
  rw [quantaAt_scale inside.le normal, quantaAt_scale inside'.le normal']
  rcases Nat.le_total scale' scale with coarser | finer
  · obtain ⟨more, rfl⟩ := Nat.exists_eq_add_of_le coarser
    have multiple : significand * 2 ^ (scale' + more) = significand * 2 ^ more * 2 ^ scale' := by ring
    rw [multiple, Nat.mul_mod_mul_right]
    exact exists_quantaAt_eq scale' ((Nat.mod_lt _ positive).trans inside').le
  · obtain ⟨more, rfl⟩ := Nat.exists_eq_add_of_le finer
    have multiple : significand' * 2 ^ (scale + more) = significand' * 2 ^ more * 2 ^ scale := by ring
    rw [multiple, Nat.mul_mod_mul_right]
    exact exists_quantaAt_eq scale ((Nat.mod_le _ _).trans inside.le)

/-- A value that has a rank is rounded to itself. -/
theorem nearestRank_quantaAt (rank : ℕ) : nearestRank (quantaAt rank) 1 = rank := by
  have ratio : valueAt rank = (quantaAt rank : ℚ) / (1 : ℕ) * quantum := by rw [valueAt, Nat.cast_one, div_one]
  exact (ranksNearest_nearestRank Nat.one_pos ratio).eq (ranksNearest_valueAt rank)

end Ranks

namespace Magnitude

variable {m m' r : Magnitude}

theorem quanta_eq (m : Magnitude) : m.quanta = quantaAt m.rank := rfl

/-- The remainder of two magnitudes is a magnitude. -/
theorem exists_quanta_mod (m : Magnitude) (nonzero : m'.rank ≠ 0) :
    ∃ r : Magnitude, r.quanta = m.quanta % m'.quanta ∧
      ∀ negative, Binary64.nearest negative (m.quanta % m'.quanta) 1 = .finite negative r := by
  obtain ⟨rank, value⟩ := exists_quantaAt_mod m.rank nonzero
  have less : quantaAt rank < quantaAt m'.rank := by
    rw [value]
    exact Nat.mod_lt _ (quanta_pos nonzero)
  have bound : rank < infinityRank := (quantaAt_strictMono.lt_iff_lt.mp less).trans m'.rank_lt
  refine ⟨⟨rank, bound⟩, value, fun negative => ?_⟩
  rw [quanta_eq, quanta_eq, ← value, Binary64.nearest, nearestRank_quantaAt, Binary64.ofRank, dif_pos bound]

end Magnitude

namespace Binary64

variable {m m' r : Magnitude}

theorem toNat_toBits_finite (negative : Bool) (m : Magnitude) :
    (finite negative m).toBits.toNat = (if negative then 2 ^ 63 else 0) + m.rank := by
  have bound := m.rank_lt_two_pow
  refine UInt64.toNat_ofNat_of_lt ?_
  have size : UInt64.size = 2 ^ 64 := rfl
  rw [signUnit, size]
  split <;> omega

theorem signField_toBits (negative : Bool) (m : Magnitude) :
    signField (finite negative m).toBits = if negative then 1 else 0 := by
  have bound := m.rank_lt_two_pow
  rw [signField, toNat_toBits_finite]
  split <;> omega

/-- The pattern of a finite double stands for its quanta with its sign. -/
theorem patternValue_toBits (negative : Bool) (m : Magnitude) :
    patternValue (finite negative m).toBits = signedQuanta negative m * quantum := by
  have bound := m.rank_lt_two_pow
  have rank : (finite negative m).toBits.toNat % 2 ^ 63 = m.rank := by
    rw [toNat_toBits_finite]
    split <;> omega
  rw [patternValue_eq, rank, signField_toBits, ← Magnitude.value_eq, Magnitude.value, signedQuanta]
  cases negative <;> simp

theorem abs_patternValue_toBits (negative : Bool) (m : Magnitude) :
    |patternValue (finite negative m).toBits| = m.quanta * quantum := by
  have size : |(signedQuanta negative m : ℚ)| = m.quanta := by cases negative <;> simp [signedQuanta]
  rw [patternValue_toBits, abs_mul, size, abs_of_pos quantum_pos]

/-- The sign of the divisor plays no part in a remainder that truncates. -/
theorem signedQuanta_tmod (remains : r.quanta = m.quanta % m'.quanta) (negative negative' : Bool) :
    signedQuanta negative r = (signedQuanta negative m).tmod (signedQuanta negative' m') := by
  have sizes : (r.quanta : ℤ) = (m.quanta : ℤ).tmod m'.quanta := by rw [remains, Int.ofNat_tmod]
  cases negative <;> cases negative' <;> simp [signedQuanta, Int.neg_tmod, Int.tmod_neg, sizes]

/-- Nothing is rounded when a magnitude keeps the remainder of two others. -/
theorem patternValue_of_remains (remains : r.quanta = m.quanta % m'.quanta) (negative negative' : Bool) :
    patternValue (finite negative r).toBits = patternValue (finite negative m).toBits -
      towardZero (patternValue (finite negative m).toBits / patternValue (finite negative' m').toBits) *
        patternValue (finite negative' m').toBits := by
  have quotient : patternValue (finite negative m).toBits / patternValue (finite negative' m').toBits =
      signedQuanta negative m / signedQuanta negative' m' := by
    rw [patternValue_toBits, patternValue_toBits, mul_div_mul_right _ _ quantum_pos.ne']
  have rest : (signedQuanta negative r : ℚ) = signedQuanta negative m -
      signedQuanta negative' m' * (signedQuanta negative m).tdiv (signedQuanta negative' m') := by
    rw [signedQuanta_tmod remains negative negative', Int.tmod_def, Int.cast_sub, Int.cast_mul]
  rw [quotient, towardZero_div, patternValue_toBits, patternValue_toBits, patternValue_toBits, rest]
  ring

theorem patternValue_mul_pos (left : 0 < r.quanta) (right : 0 < m.quanta) (negative : Bool) :
    0 < patternValue (finite negative r).toBits * patternValue (finite negative m).toBits := by
  have product : (0 : ℚ) < r.quanta * m.quanta := mul_pos (Nat.cast_pos.mpr left) (Nat.cast_pos.mpr right)
  have signs : (signedQuanta negative r : ℚ) * signedQuanta negative m = r.quanta * m.quanta := by
    cases negative <;> simp [signedQuanta]
  rw [patternValue_toBits, patternValue_toBits, mul_mul_mul_comm, signs]
  exact mul_pos product (mul_pos quantum_pos quantum_pos)

/-- What is left of a dividend when the divisor is taken out of it a whole number of times, without any rounding. It is
smaller than the divisor and lies on the side of the dividend, also by its sign where it is zero. -/
structure IsRemainder (a b r : Binary64) : Prop where
  isFinite : r.isFinite = true
  value_eq : patternValue r.toBits =
    patternValue a.toBits - towardZero (patternValue a.toBits / patternValue b.toBits) * patternValue b.toBits
  smaller : |patternValue r.toBits| < |patternValue b.toBits|
  same_side : patternValue r.toBits = 0 ∨ 0 < patternValue r.toBits * patternValue a.toBits
  same_sign : signField r.toBits = signField a.toBits

theorem isRemainder_finite (nonzero : m'.rank ≠ 0) (remains : r.quanta = m.quanta % m'.quanta)
    (negative negative' : Bool) : IsRemainder (finite negative m) (finite negative' m') (finite negative r) where
  isFinite := rfl
  value_eq := patternValue_of_remains remains negative negative'
  smaller := by
    have less : r.quanta < m'.quanta := by
      rw [remains]
      exact Nat.mod_lt _ (Magnitude.quanta_pos nonzero)
    rw [abs_patternValue_toBits, abs_patternValue_toBits]
    exact mul_lt_mul_of_pos_right (Nat.cast_lt.mpr less) quantum_pos
  same_side := by
    have bound := Nat.mod_le m.quanta m'.quanta
    rcases Nat.eq_zero_or_pos r.quanta with none | some_left
    · left
      rw [← abs_eq_zero, abs_patternValue_toBits, none, Nat.cast_zero, zero_mul]
    · exact Or.inr (patternValue_mul_pos some_left (by omega) negative)
  same_sign := by rw [signField_toBits, signField_toBits]

/-- The remainder of finite doubles is exact, however far apart they are. An infinite divisor leaves the dividend as it
is, and all else is no number. -/
theorem rem_exact [ElementaryFunctions] :
    (∀ a b : Binary64, a.isFinite = true → b.isFinite = true → b.isZero = false →
      IsRemainder a b (Operator.rem.apply a b)) ∧
    (∀ a negative, a.isFinite = true → Operator.rem.apply a (infinity negative) = a) ∧
    ∀ a b, a.isFinite = false ∨ b.isZero = true ∨ b = nan → Operator.rem.apply a b = nan := by
  refine ⟨?_, ?_, ?_⟩
  · intro a b finiteDividend finiteDivisor nonzero
    match a, b with
    | finite negative m, finite negative' m' =>
      have positive : m'.rank ≠ 0 := by simpa [isZero] using nonzero
      obtain ⟨r, remains, rounded⟩ := Magnitude.exists_quanta_mod m positive
      have result : Operator.rem.apply (finite negative m) (finite negative' m') = finite negative r := by
        rw [← rounded negative]
        exact if_neg positive
      rw [result]
      exact isRemainder_finite positive remains negative negative'
    | nan, _ | infinity _, _ => cases finiteDividend
    | finite _ _, nan | finite _ _, infinity _ => cases finiteDivisor
  · intro a negative finiteDividend
    match a with
    | finite _ _ => rfl
    | nan | infinity _ => cases finiteDividend
  · intro a b undefined
    match a, b with
    | nan, _ => rfl
    | infinity _, nan | infinity _, infinity _ | infinity _, finite _ _ | finite _ _, nan => rfl
    | finite negative m, infinity _ => simp [isFinite, isZero] at undefined
    | finite negative m, finite _ m' =>
      have zero : m'.rank = 0 := by simpa [isFinite, isZero] using undefined
      exact if_pos zero

/-- The least finite double by three quanta: the quotient has more than two thousand binary digits. -/
theorem rem_exact_three_quanta :
    (ofBits 0xffefffffffffffff).isFinite = true ∧ (ofBits 3).isFinite = true ∧ (ofBits 3).isZero = false ∧
    IsRemainder (ofBits 0xffefffffffffffff) (ofBits 3) (Operator.rem.apply (ofBits 0xffefffffffffffff) (ofBits 3)) ∧
    Operator.rem.apply (ofBits 0xffefffffffffffff) (ofBits 3) = ofBits 0x8000000000000002 ∧
    Operator.rem.apply (ofBits 3) (infinity true) = ofBits 3 ∧ Operator.rem.apply pi (zero true) = nan := by
  have finiteDividend : (ofBits 0xffefffffffffffff).isFinite = true := by decide
  have finiteDivisor : (ofBits 3).isFinite = true := by decide
  have nonzero : (ofBits 3).isZero = false := by decide
  have computed : Operator.rem.apply (ofBits 0xffefffffffffffff) (ofBits 3) = ofBits 0x8000000000000002 := by
    decide +kernel
  obtain ⟨ofFinite, byInfinity, undefined⟩ := rem_exact
  exact ⟨finiteDividend, finiteDivisor, nonzero, ofFinite _ _ finiteDividend finiteDivisor nonzero, computed,
    byInfinity _ true finiteDivisor, undefined pi _ (Or.inr (Or.inl rfl))⟩

end Binary64

end Reckoner

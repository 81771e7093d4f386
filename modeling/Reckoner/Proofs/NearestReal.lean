import Mathlib.Data.Real.Basic
import Reckoner.Arithmetic
import Reckoner.Proofs.NearestDouble

namespace Reckoner

/-- The nearest double to a real number, where a zero may have either sign. Of two that are as near it is the one with
the even significand, and from half a spacing beyond the largest magnitude on it is infinite. -/
inductive NearestReal (r : ℝ) : Binary64 → Prop
  | finite {negative : Bool} {m : Magnitude} (sign : |r| = if negative then -r else r)
      (bounded : |r| < 2 ^ 1024 - 2 ^ 970)
      (nearest : ∀ other : Magnitude, |(|r|) - m.value| ≤ |(|r|) - other.value|)
      (even : ∀ other : Magnitude, other ≠ m → |(|r|) - m.value| = |(|r|) - other.value| → m.significand % 2 = 0) :
    NearestReal r (.finite negative m)
  | infinity {negative : Bool} (sign : |r| = if negative then -r else r) (beyond : 2 ^ 1024 - 2 ^ 970 ≤ |r|) :
    NearestReal r (.infinity negative)

section Between

variable {low r high m other : ℝ}

theorem closer_iff : |r - m| ≤ |r - other| ↔ (other - m) * (2 * r - m - other) ≤ 0 := by
  have squares : (r - m) ^ 2 - (r - other) ^ 2 = (other - m) * (2 * r - m - other) := by ring
  rw [← sq_le_sq, ← squares, sub_nonpos]

/-- The numbers that one value is closer to than another lie to one side of the middle between the two. -/
theorem closer_of_between (under : low ≤ r) (above : r ≤ high) (lowCloser : |low - m| ≤ |low - other|)
    (highCloser : |high - m| ≤ |high - other|) : |r - m| ≤ |r - other| := by
  rw [closer_iff] at *
  rcases le_total m other with ordered | ordered
  · have slope := mul_le_mul_of_nonneg_left above (sub_nonneg.mpr ordered)
    linarith
  · have slope := mul_le_mul_of_nonneg_left under (sub_nonneg.mpr ordered)
    linarith

/-- A number halfway between two values, among numbers that one of them is the closer one to, is the last of these. -/
theorem tie_of_between (under : low ≤ r) (above : r ≤ high) (lowCloser : |low - m| ≤ |low - other|)
    (highCloser : |high - m| ≤ |high - other|) (different : m ≠ other) (tie : |r - m| = |r - other|) :
    |low - m| = |low - other| ∨ |high - m| = |high - other| := by
  rw [closer_iff] at lowCloser highCloser
  have middle : 2 * r = m + other := by
    rcases abs_eq_abs.mp tie with same | mirrored
    · exact absurd (by linarith) different
    · linarith
  rcases lt_or_gt_of_ne different with ordered | ordered
  · have most : 2 * high - m - other ≤ 0 := nonpos_of_mul_nonpos_right highCloser (sub_pos.mpr ordered)
    have last : high = r := by linarith
    exact Or.inr (last ▸ tie)
  · have least : 0 ≤ 2 * low - m - other := by
      by_contra beyond
      have product := mul_pos_of_neg_of_neg (sub_neg.mpr ordered) (not_le.mp beyond)
      linarith
    have first : low = r := by linarith
    exact Or.inl (first ▸ tie)

end Between

namespace NearestReal

variable {r : ℝ} {v : Binary64} {negative : Bool} {rank : Nat}

/-- A number whose size lies between two that are rounded alike is rounded as they are. -/
theorem of_between {low high : ℚ} (sign : |r| = if negative then -r else r) (under : low ≤ |r|) (above : |r| ≤ high)
    (lowNearest : NearestDouble low (.ofRank false rank)) (highNearest : NearestDouble high (.ofRank false rank)) :
    NearestReal r (.ofRank negative rank) := by
  by_cases finite : rank < infinityRank
  · rw [Binary64.ofRank, dif_pos finite] at lowNearest highNearest ⊢
    cases lowNearest with | finite _ lowCloser lowEven =>
    cases highNearest with | finite highBounded highCloser highEven =>
    have bounded : (high : ℝ) < 2 ^ 1024 - 2 ^ 970 := by exact_mod_cast highBounded
    have closerLow (other : Magnitude) : |(low : ℝ) - (⟨rank, finite⟩ : Magnitude).value| ≤ |(low : ℝ) - other.value| :=
      by exact_mod_cast lowCloser other
    have closerHigh (other : Magnitude) :
        |(high : ℝ) - (⟨rank, finite⟩ : Magnitude).value| ≤ |(high : ℝ) - other.value| := by
      exact_mod_cast highCloser other
    refine .finite sign (lt_of_le_of_lt above bounded)
      (fun other => closer_of_between under above (closerLow other) (closerHigh other)) fun other apart tie => ?_
    have different : ((⟨rank, finite⟩ : Magnitude).value : ℝ) ≠ other.value := by
      intro same
      have sameValue : valueAt rank = valueAt other.rank := by exact_mod_cast same
      have sameRank : rank = other.rank := valueAt_strictMono.injective sameValue
      exact apart (by cases other; cases sameRank; rfl)
    rcases tie_of_between under above (closerLow other) (closerHigh other) different tie with atLow | atHigh
    · exact lowEven other apart (by exact_mod_cast atLow)
    · exact highEven other apart (by exact_mod_cast atHigh)
  · rw [Binary64.ofRank, dif_neg finite] at lowNearest ⊢
    cases lowNearest with | infinity beyond =>
    have reached : (2 ^ 1024 - 2 ^ 970 : ℝ) ≤ low := by exact_mod_cast beyond
    exact .infinity sign (reached.trans under)

/-- Rounding a rational number that is not negative. -/
theorem of_ranksNearest {x : ℚ} (nonnegative : 0 ≤ x) (ranks : RanksNearest x rank) :
    NearestReal x (.ofRank false rank) := by
  have size : |(x : ℝ)| = x := abs_of_nonneg (Rat.cast_nonneg.mpr nonnegative)
  have nearest := nearestDouble_ofRank ranks
  exact .of_between (by simp [size]) size.ge size.le nearest nearest

theorem of_value (m : Magnitude) : NearestReal m.value (.finite false m) := by
  have nonnegative : 0 ≤ m.value := mul_nonneg (Nat.cast_nonneg _) quantum_pos.le
  have ranks := of_ranksNearest nonnegative (ranksNearest_valueAt m.rank)
  rwa [Binary64.ofRank, dif_pos m.rank_lt] at ranks

/-- Rounding treats both signs alike. -/
theorem negate (nearest : NearestReal r v) : NearestReal (-r) v.negate := by
  have flipped {negative : Bool} (sign : |r| = if negative then -r else r) :
      |(-r)| = if !negative then -(-r) else -r := by
    rw [abs_neg, sign]
    cases negative <;> simp
  have size : |r| = |(-r)| := (abs_neg r).symm
  cases nearest with
  | finite sign bounded closest even =>
    rw [size] at bounded closest even
    exact .finite (flipped sign) bounded closest even
  | infinity sign beyond => exact .infinity (flipped sign) (size ▸ beyond)

theorem isNaN (nearest : NearestReal r v) : v.isNaN = false := by
  cases nearest <;> rfl

end NearestReal

theorem cast_quantum_pos : (0 : ℝ) < quantum := Rat.cast_pos.mpr quantum_pos

theorem cast_quantaPerUnit_mul : (quantaPerUnit : ℝ) * quantum = 1 := by exact_mod_cast quantaPerUnit_mul_quantum

theorem quantaPerUnit_pos : 0 < quantaPerUnit := by
  rw [quantaPerUnit, twoTo_eq]
  exact pow_pos two_pos _

theorem div_quantaPerUnit (quanta : ℝ) : quanta / quantaPerUnit = quanta * quantum := by
  rw [div_eq_iff (left_ne_zero_of_mul_eq_one cast_quantaPerUnit_mul), mul_assoc, mul_comm (quantum : ℝ),
    cast_quantaPerUnit_mul, mul_one]

theorem Magnitude.cast_value (m : Magnitude) : (m.value : ℝ) = m.quanta * quantum := by
  rw [Magnitude.value, Rat.cast_mul, Rat.cast_natCast]

theorem Magnitude.cast_value_of_unit {m : Magnitude} (unit : m.quanta = quantaPerUnit) : (m.value : ℝ) = 1 := by
  rw [m.cast_value, unit, cast_quantaPerUnit_mul]

namespace Binary64

/-- The exact value of a finite double. -/
noncomputable def realValue (negative : Bool) (m : Magnitude) : ℝ := signedQuanta negative m * quantum

theorem realValue_false (m : Magnitude) : realValue false m = m.value := by
  rw [m.cast_value]
  exact congrArg (· * (quantum : ℝ)) (Int.cast_natCast m.quanta)

theorem realValue_true (m : Magnitude) : realValue true m = -m.value := by
  rw [realValue, signedQuanta, if_pos rfl, m.cast_value, Int.cast_neg, Int.cast_natCast, neg_mul]

theorem isNaN_negate (x : Binary64) : x.negate.isNaN = x.isNaN := by
  cases x <;> rfl

theorem ofRank_eq_iff {negative negative' : Bool} {rank rank' : Nat} :
    ofRank negative rank = ofRank negative' rank' ↔ negative = negative' ∧ ofRank false rank = ofRank false rank' := by
  unfold ofRank
  split <;> split <;> simp

/-- The number of quanta that a whole number of powers of two is rounded by. -/
theorem nearestDouble_scaled (mantissa exponent : Int) :
    NearestDouble (|(mantissa : ℚ)| * 2 ^ exponent) (nearest false
      (mantissa.natAbs * twoTo (exponent + 1074).toNat) (twoTo (-(exponent + 1074)).toNat)) := by
  refine nearestDouble_nearest (Nat.two_pow_pos _) ?_
  have shift : exponent = (exponent + 1074).toNat - (-(exponent + 1074)).toNat - (1074 : Nat) := by omega
  have power : (2 : ℚ) ^ exponent = 2 ^ (exponent + 1074).toNat / 2 ^ (-(exponent + 1074)).toNat / 2 ^ 1074 := by
    conv_lhs => rw [shift]
    rw [zpow_sub₀ two_ne_zero, zpow_sub₀ two_ne_zero, zpow_natCast, zpow_natCast, zpow_natCast]
  rw [power, quantum, twoTo_eq, twoTo_eq, Nat.cast_mul, Nat.cast_natAbs, Int.cast_abs, Nat.cast_pow, Nat.cast_pow,
    Nat.cast_ofNat]
  generalize (2 : ℚ) ^ 1074 = unit
  ring

/-- A number between two that round alike rounds as they do. -/
theorem nearestReal_of_scaled {lower upper exponent : Int} {r : ℝ}
    (same : nearestScaled lower exponent = nearestScaled upper exponent) (under : lower * (2 : ℝ) ^ exponent ≤ r)
    (above : r ≤ upper * 2 ^ exponent) : NearestReal r (nearestScaled lower exponent) := by
  have positive : (0 : ℝ) < 2 ^ exponent := zpow_pos two_pos exponent
  have lowNearest := nearestDouble_scaled lower exponent
  have highNearest := nearestDouble_scaled upper exponent
  obtain ⟨signs, sizes⟩ := ofRank_eq_iff.mp same
  have lowCast : ((|(lower : ℚ)| * 2 ^ exponent : ℚ) : ℝ) = |(lower : ℝ)| * 2 ^ exponent := by push_cast; rfl
  have highCast : ((|(upper : ℚ)| * 2 ^ exponent : ℚ) : ℝ) = |(upper : ℝ)| * 2 ^ exponent := by push_cast; rfl
  rw [decide_eq_decide] at signs
  rw [nearest, ← sizes] at highNearest
  by_cases below : lower < 0
  · have upperBelow := signs.mp below
    have least : (upper : ℝ) * 2 ^ exponent < 0 := mul_neg_of_neg_of_pos (Int.cast_lt_zero.mpr upperBelow) positive
    have negative : r < 0 := lt_of_le_of_lt above least
    refine .of_between (by simp [below, abs_of_neg negative]) ?_ ?_ highNearest lowNearest
    · rw [highCast, abs_of_neg negative, abs_of_neg (Int.cast_lt_zero.mpr upperBelow)]
      linarith
    · rw [lowCast, abs_of_neg negative, abs_of_neg (Int.cast_lt_zero.mpr below)]
      linarith
  · have upperAbove : ¬ upper < 0 := fun less => below (signs.mpr less)
    have least : 0 ≤ (lower : ℝ) * 2 ^ exponent := mul_nonneg (Int.cast_nonneg (not_lt.mp below)) positive.le
    have nonnegative : 0 ≤ r := least.trans under
    refine .of_between (by simp [below, abs_of_nonneg nonnegative]) ?_ ?_ lowNearest highNearest
    · rwa [lowCast, abs_of_nonneg nonnegative, abs_of_nonneg (Int.cast_nonneg (not_lt.mp below))]
    · rwa [highCast, abs_of_nonneg nonnegative, abs_of_nonneg (Int.cast_nonneg (not_lt.mp upperAbove))]

theorem realValue_not (negative : Bool) (m : Magnitude) : realValue (!negative) m = -realValue negative m := by
  cases negative with
  | true => rw [Bool.not_true, realValue_false, realValue_true, neg_neg]
  | false => rw [Bool.not_false, realValue_false, realValue_true]

theorem finite_of_zero {m : Magnitude} (zero : m.rank = 0) (negative : Bool) :
    finite negative m = Binary64.zero negative := by
  cases m
  cases zero
  rfl

theorem realValue_of_zero {m : Magnitude} (zero : m.rank = 0) (negative : Bool) : realValue negative m = 0 := by
  have none : m.quanta = 0 := by
    rw [Magnitude.quanta, Magnitude.significand, zero, Nat.zero_sub, zero_mul]
  cases negative <;> simp [realValue, signedQuanta, none]

theorem exists_one : ∃ m : Magnitude, ofBits 0x3ff0000000000000 = finite false m ∧ m.value = 1 := by
  have bounded : 0x3ff0000000000000 < infinityRank := by decide
  refine ⟨⟨0x3ff0000000000000, bounded⟩, rfl, ?_⟩
  rw [Magnitude.value_eq, valueAt, quantaAt_one, quantaPerUnit_mul_quantum]

theorem nearestReal_one : NearestReal 1 (ofBits 0x3ff0000000000000) := by
  obtain ⟨m, one, value⟩ := exists_one
  have itself := NearestReal.of_value m
  rwa [value, Rat.cast_one, ← one] at itself

theorem nearestReal_zero {r : ℝ} (nonnegative : 0 ≤ r) (small : r ≤ quantum / 4) : NearestReal r (zero false) := by
  have half : halfwayAt 0 = quantum / 2 := by
    have ends : quantaAt 0 = 0 ∧ quantaAt 1 = 1 := by decide
    rw [halfwayAt, valueAt, valueAt, ends.1, ends.2]
    push_cast
    ring
  have rounds {x : ℚ} (less : x ≤ quantum / 4) : NearestDouble x (ofRank false 0) := by
    have positive := quantum_pos
    refine nearestDouble_ofRank ⟨Or.inl ?_, fun before previous => absurd previous (Nat.succ_ne_zero before).symm⟩
    rw [half]
    linarith
  have under : ((0 : ℚ) : ℝ) ≤ |r| := Rat.cast_zero.trans_le (abs_nonneg r)
  have above : |r| ≤ ((quantum / 4 : ℚ) : ℝ) := by
    rw [abs_of_nonneg nonnegative]
    exact_mod_cast small
  exact .of_between (by simp [abs_of_nonneg nonnegative]) under above (rounds (div_pos quantum_pos four_pos).le)
    (rounds le_rfl)

theorem nearestReal_origin (negative : Bool) : NearestReal 0 (zero negative) := by
  have origin : NearestReal 0 (zero false) :=
    nearestReal_zero le_rfl (by exact_mod_cast (div_pos quantum_pos four_pos).le)
  cases negative with
  | true =>
    rw [← neg_zero]
    exact origin.negate
  | false => exact origin

theorem nearestReal_infinity {r : ℝ} (large : 2 ^ 1024 ≤ r) : NearestReal r (infinity false) := by
  have positive : (0 : ℝ) < 2 ^ 970 := pow_pos two_pos 970
  have nonnegative : 0 ≤ r := (pow_nonneg zero_le_two 1024).trans large
  refine .infinity (by simp [abs_of_nonneg nonnegative]) ?_
  rw [abs_of_nonneg nonnegative]
  exact (sub_le_self _ positive.le).trans large

/-- Rounding a ratio of quanta with a sign. -/
theorem nearestReal_nearest {negative : Bool} {numerator denominator : Nat} {r : ℝ} (positive : 0 < denominator)
    (sign : |r| = if negative then -r else r) (size : |r| = numerator / denominator * quantum) :
    NearestReal r (nearest negative numerator denominator) := by
  have rounds := nearestDouble_nearest positive (rfl : (numerator / denominator * quantum : ℚ) = _)
  have same : |r| = ((numerator / denominator * quantum : ℚ) : ℝ) := by
    rw [size]
    push_cast
    rfl
  exact .of_between sign same.ge same.le rounds rounds

/-- Rounding a whole number. -/
theorem nearestReal_natCast (n : Nat) : NearestReal n (nearest false (n * quantaPerUnit) 1) := by
  have size : |(n : ℝ)| = n := Nat.abs_cast n
  have whole : (n : ℝ) = (n * quantaPerUnit : Nat) / (1 : Nat) * quantum := by
    rw [Nat.cast_one, div_one, Nat.cast_mul, mul_assoc, cast_quantaPerUnit_mul, mul_one]
  exact nearestReal_nearest one_pos (by simp) (size.trans whole)

theorem abs_realValue (negative : Bool) (m : Magnitude) : |realValue negative m| = m.quanta * quantum := by
  have nonnegative : (0 : ℝ) ≤ m.quanta * quantum :=
    mul_nonneg (Nat.cast_nonneg _) cast_quantum_pos.le
  cases negative with
  | true => rw [realValue_true, abs_neg, m.cast_value, abs_of_nonneg nonnegative]
  | false => rw [realValue_false, m.cast_value, abs_of_nonneg nonnegative]

theorem sign_realValue (negative : Bool) (m : Magnitude) :
    |realValue negative m| = if negative then -realValue negative m else realValue negative m := by
  rw [abs_realValue, ← m.cast_value]
  cases negative with
  | true => rw [if_pos rfl, realValue_true, neg_neg]
  | false => rw [if_neg Bool.false_ne_true, realValue_false]

end Binary64

end Reckoner

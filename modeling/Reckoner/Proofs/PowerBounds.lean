import Reckoner.Elementary.Power
import Reckoner.Proofs.ExponentialBounds

namespace Reckoner

namespace Dyadic

/-- The exact number. -/
def value (x : Dyadic) : ℚ := x.odd * 2 ^ x.exponent

theorem value_takeTwos (fuel number : Nat) (exponent : Int) :
    (takeTwos fuel number exponent).value = number * 2 ^ exponent := by
  induction fuel generalizing number exponent with
  | zero => rfl
  | succ fuel ih =>
    rw [takeTwos]
    split
    · rename_i even
      have half : number = number / 2 * 2 := by omega
      rw [ih, zpow_add_one₀ two_ne_zero]
      conv_rhs => rw [half, Nat.cast_mul, Nat.cast_ofNat]
      ring
    · rfl

/-- So many halvings leave an odd number of a number with no more digits. -/
theorem odd_takeTwos {fuel number : Nat} (positive : 0 < number) (digits : number < 2 ^ fuel) (exponent : Int) :
    (takeTwos fuel number exponent).odd % 2 = 1 := by
  induction fuel generalizing number exponent with
  | zero => omega
  | succ fuel ih =>
    rw [takeTwos]
    split
    · exact ih (by omega) (by omega) _
    · rename_i odd
      exact Nat.mod_two_ne_zero.mp odd

theorem value_ofMagnitude (m : Magnitude) : (ofMagnitude m).value = m.value := by
  rw [ofMagnitude, value_takeTwos, Magnitude.value, Magnitude.quanta, quantum, twoTo_eq, zpow_sub₀ two_ne_zero,
    zpow_natCast, zpow_ofNat, Nat.cast_mul, Nat.cast_pow, Nat.cast_ofNat, mul_one_div, mul_div_assoc]

theorem value_ofMagnitude_pos {m : Magnitude} (nonzero : m.rank ≠ 0) : 0 < (ofMagnitude m).value := by
  rw [value_ofMagnitude]
  exact m.value_pos nonzero

theorem value_nonneg (x : Dyadic) : 0 ≤ x.value := mul_nonneg (Nat.cast_nonneg _) (zpow_nonneg zero_le_two _)

theorem value_root? {x root : Dyadic} (known : x.root? = some root) : root.value ^ 2 = x.value := by
  rw [root?] at known
  split at known
  · rename_i square
    cases known
    obtain ⟨even, whole⟩ := Bool.and_eq_true_iff.mp square
    have half : x.exponent = x.exponent / 2 * 2 := by
      have rest := of_decide_eq_true even
      omega
    have odd : (wholeRoot x.odd : ℚ) ^ 2 = x.odd := by
      rw [pow_two]
      exact_mod_cast eq_of_beq whole
    have power : ((2 : ℚ) ^ (x.exponent / 2)) ^ 2 = 2 ^ x.exponent := by
      conv_rhs => rw [half, zpow_mul, zpow_ofNat]
    rw [value, value, mul_pow, odd, power]
  · cases known

theorem value_roots? {times : Nat} {x root : Dyadic} (known : roots? times x = some root) :
    root.value ^ 2 ^ times = x.value := by
  induction times generalizing x with
  | zero =>
    cases known
    rw [pow_zero, pow_one]
  | succ times ih =>
    obtain ⟨between, first, rest⟩ := Option.bind_eq_some_iff.mp known
    rw [pow_succ, pow_mul, ih rest, value_root? first]

/-- The exact power, as a product of roots. -/
theorem rpow_value {base root exponent : Dyadic} (known : base.roots? (-exponent.exponent).toNat = some root) :
    (base.value : ℝ) ^ (exponent.value : ℝ) = (root.value : ℝ) ^ exponent.times := by
  have shift : (exponent.exponent.toNat : Int) = (-exponent.exponent).toNat + exponent.exponent := by omega
  have factors : (2 ^ (-exponent.exponent).toNat : Nat) * exponent.value = exponent.times := by
    rw [times, value, twoTo_eq, Nat.cast_mul, Nat.cast_pow, Nat.cast_pow, Nat.cast_ofNat, ← zpow_natCast 2,
      ← zpow_natCast 2, shift, zpow_add₀ two_ne_zero]
    ring
  have product : ((2 ^ (-exponent.exponent).toNat : Nat) : ℝ) * exponent.value = exponent.times := by
    exact_mod_cast factors
  have nonnegative : (0 : ℝ) ≤ root.value := Rat.cast_nonneg.mpr root.value_nonneg
  rw [← value_roots? known, Rat.cast_pow, ← Real.rpow_natCast, ← Real.rpow_mul nonnegative, product,
    Real.rpow_natCast]

/-- A power with a whole exponent is an odd power times a power of two. -/
theorem zpow_value (x : Dyadic) (times : Int) : x.value ^ times = (x.odd : ℚ) ^ times * 2 ^ (x.exponent * times) := by
  rw [value, mul_zpow, ← zpow_mul]

end Dyadic

namespace Binary64

theorem nearestReal_nearestScaled (mantissa exponent : Int) :
    NearestReal (mantissa * 2 ^ exponent) (nearestScaled mantissa exponent) :=
  nearestReal_of_scaled rfl le_rfl le_rfl

/-- Powers of two far beyond the format are rounded as the last of them that is looked at. -/
theorem nearestReal_two_zpow (shift : Int) :
    NearestReal (2 ^ shift) (nearestScaled 1 (max (-3000) (min 3000 shift))) := by
  have infinite : nearestScaled 1 3000 = infinity false := by decide +kernel
  have vanished : nearestScaled 1 (-3000) = zero false := by decide +kernel
  rcases lt_or_ge 3000 shift with large | notLarge
  · have cut : max (-3000) (min 3000 shift) = 3000 := by omega
    have beyond : (2 : ℝ) ^ 1024 ≤ 2 ^ shift := by
      rw [← zpow_natCast]
      exact zpow_le_zpow_right₀ one_le_two (by omega)
    rw [cut, infinite]
    exact nearestReal_infinity beyond
  · rcases lt_or_ge shift (-3000) with small | notSmall
    · have cut : max (-3000) (min 3000 shift) = -3000 := by omega
      rw [cut, vanished]
      exact nearestReal_zero (zpow_nonneg zero_le_two _) (two_zpow_le_quarter (by omega))
    · have kept : max (-3000) (min 3000 shift) = shift := by omega
      have itself := nearestReal_nearestScaled 1 shift
      rw [kept]
      rwa [Int.cast_one, one_mul] at itself

end Binary64

namespace Dyadic

/-- A power that is found without a series is the nearest double as well. -/
theorem pow?_nearest {base exponent : Dyadic} {negative : Bool} {v : Binary64} (positive : 0 < base.value)
    (known : base.pow? negative exponent = some v) :
    NearestReal (base.value ^ (if negative then -exponent.value else exponent.value : ℝ)) v := by
  rw [pow?] at known
  obtain ⟨root, roots, result⟩ := Option.bind_eq_some_iff.mp known
  obtain ⟨times, isTimes⟩ : ∃ times : Int, times = if negative then -(exponent.times : Int) else exponent.times :=
    ⟨_, rfl⟩
  have power : (base.value : ℝ) ^ (if negative then -exponent.value else exponent.value : ℝ) =
      (root.value ^ times : ℚ) := by
    rw [isTimes, Rat.cast_zpow]
    cases negative with
    | true =>
      rw [if_pos rfl, if_pos rfl, Real.rpow_neg (Rat.cast_nonneg.mpr positive.le), rpow_value roots, zpow_neg,
        zpow_natCast]
    | false => exact (rpow_value roots).trans (zpow_natCast _ _).symm
  rw [power, zpow_value]
  simp only [← isTimes] at result
  by_cases one : root.odd = 1
  · rw [if_pos one] at result
    cases result
    rw [one, Nat.cast_one, one_zpow, one_mul, Rat.cast_zpow, Rat.cast_ofNat]
    exact Binary64.nearestReal_two_zpow _
  · rw [if_neg one] at result
    by_cases refused : (negative || 40 < exponent.times) = true
    · rw [if_pos refused] at result
      cases result
    · obtain ⟨unsigned, -⟩ := Bool.or_eq_false_iff.mp (Bool.not_eq_true _ ▸ refused)
      rw [if_neg refused] at result
      cases result
      have whole := Binary64.nearestReal_nearestScaled (root.odd ^ exponent.times : Nat)
        (root.exponent * exponent.times)
      rw [isTimes, unsigned, if_neg Bool.false_ne_true, zpow_natCast]
      push_cast at whole ⊢
      exact whole

end Dyadic

theorem holds_powerLogBracket (precision : Nat) {base : Magnitude} (nonzero : base.rank ≠ 0) (negative : Bool)
    (exponent : Magnitude) :
    (powerLogBracket base.quanta (Binary64.signedQuanta negative exponent) precision).Holds precision
      (Real.log base.value * Binary64.realValue negative exponent) := by
  have log := holds_logBracket precision (base.quanta_pos nonzero)
  have product := (log.scale (Binary64.signedQuanta negative exponent)).divNat quantaPerUnit_pos
  have value : (Binary64.signedQuanta negative exponent * Real.log (base.quanta * quantum) / quantaPerUnit : ℝ) =
      Real.log base.value * Binary64.realValue negative exponent := by
    rw [div_quantaPerUnit, base.cast_value, Binary64.realValue]
    ring
  rwa [value] at product

namespace Binary64

variable {base exponent : Magnitude}

/-- A number whose bounds pass the limit lies beyond it. -/
theorem expOfBounds_nearest {bounds : Nat → Bracket} {r : ℝ} (holds : ∀ precision, (bounds precision).Holds precision r)
    (decided : Decided fun precision => some (exponentialEnclosure precision (bounds precision))) :
    NearestReal (Real.exp r) (expOfBounds bounds) := by
  have unit : (0 : ℝ) < 2 ^ firstPrecision := pow_pos two_pos _
  have limit : ((exponentLimit * twoTo firstPrecision : Int) : ℝ) = exponentLimit * 2 ^ firstPrecision := by
    rw [Int.cast_mul, Int.cast_natCast, Bracket.cast_twoTo]
  have first := holds firstPrecision
  rw [expOfBounds]
  split
  · rename_i beyond
    have cast : (exponentLimit : ℝ) * 2 ^ firstPrecision ≤ r * 2 ^ firstPrecision := by
      rw [← limit]
      exact (Int.cast_lt.mpr beyond).le.trans first.lower_le
    have large := le_of_mul_le_mul_right cast unit
    exact nearestReal_infinity ((pow_le_pow_right₀ one_le_two (by decide)).trans (large_exp large))
  · split
    · rename_i beyond
      have cast : r * 2 ^ firstPrecision ≤ -(exponentLimit : ℝ) * 2 ^ firstPrecision := by
        rw [neg_mul, ← limit, ← Int.cast_neg]
        exact first.le_upper.trans (Int.cast_lt.mpr beyond).le
      have small := le_of_mul_le_mul_right cast unit
      exact nearestReal_zero (Real.exp_pos r).le (small_exp small)
    · refine settle_nearest (fun precision e known => ?_) decided
      cases known
      exact holds_exponentialEnclosure (holds precision)

theorem isNaN_expOfBounds (bounds : Nat → Bracket) : (expOfBounds bounds).isNaN = false := by
  rw [expOfBounds]
  split
  · rfl
  · split
    · rfl
    · exact isNaN_settle rfl

theorem isNaN_powPositive (nonzero : base.rank ≠ 0) (negative : Bool) (exponent : Magnitude) :
    (powPositive base negative exponent).isNaN = false := by
  rw [powPositive]
  cases known : (Dyadic.ofMagnitude base).pow? negative (.ofMagnitude exponent) with
  | some result => exact (Dyadic.pow?_nearest (Dyadic.value_ofMagnitude_pos nonzero) known).isNaN
  | none =>
    rw [Option.getD_none]
    exact isNaN_expOfBounds _

theorem powPositive_nearest (nonzero : base.rank ≠ 0) (negative : Bool) (exponent : Magnitude)
    (decided : (Dyadic.ofMagnitude base).pow? negative (.ofMagnitude exponent) = none → Decided fun precision =>
      some (exponentialEnclosure precision (powerLogBracket base.quanta (signedQuanta negative exponent) precision))) :
    NearestReal (base.value ^ realValue negative exponent) (powPositive base negative exponent) := by
  rw [powPositive]
  cases known : (Dyadic.ofMagnitude base).pow? negative (.ofMagnitude exponent) with
  | some result =>
    have power := Dyadic.pow?_nearest (Dyadic.value_ofMagnitude_pos nonzero) known
    have sign : (if negative then -(Dyadic.ofMagnitude exponent).value else (Dyadic.ofMagnitude exponent).value : ℝ) =
        realValue negative exponent := by
      rw [Dyadic.value_ofMagnitude]
      cases negative with
      | true => exact (realValue_true exponent).symm
      | false => exact (realValue_false exponent).symm
    rw [Option.getD_some]
    rwa [Dyadic.value_ofMagnitude, sign] at power
  | none =>
    rw [Option.getD_none, Real.rpow_def_of_pos (Rat.cast_pos.mpr (base.value_pos nonzero))]
    exact expOfBounds_nearest (fun precision => holds_powerLogBracket precision nonzero negative exponent)
      (decided known)

/-- An exponent without binary digits behind the point is a whole number, and it is odd when none ends in zeros. -/
theorem exists_wholeExponent (negative : Bool) {m : Magnitude} (nonzero : m.rank ≠ 0)
    (whole : (Dyadic.ofMagnitude m).isWhole = true) :
    ∃ n : Int, realValue negative m = n ∧ ((Dyadic.ofMagnitude m).isOdd = true ↔ Odd n) := by
  obtain ⟨x, isDyadic⟩ : ∃ x, x = Dyadic.ofMagnitude m := ⟨_, rfl⟩
  have odd : x.odd % 2 = 1 := by
    have digits : m.significand < 2 ^ 53 := m.significand_lt
    have positive : 0 < m.significand := Nat.pos_of_mul_pos_right (m.quanta_pos nonzero)
    exact isDyadic ▸ Dyadic.odd_takeTwos positive digits _
  rw [← isDyadic] at whole ⊢
  have point : 0 ≤ x.exponent := of_decide_eq_true whole
  have value : (m.value : ℝ) = x.times := by
    have power : x.value = x.times := by
      rw [Dyadic.value, Dyadic.times, twoTo_eq, Nat.cast_mul, Nat.cast_pow, Nat.cast_ofNat, ← zpow_natCast,
        Int.toNat_of_nonneg point]
    rw [← Dyadic.value_ofMagnitude, ← isDyadic, power, Rat.cast_natCast]
  have parity : x.isOdd = true ↔ Odd (x.times : Int) := by
    rw [Dyadic.isOdd, decide_eq_true_iff, Int.odd_coe_nat, Dyadic.times, twoTo_eq, Nat.odd_mul, Nat.odd_iff, odd]
    constructor
    · intro zero
      rw [zero]
      exact ⟨rfl, odd_one⟩
    · rintro ⟨-, oddPower⟩
      by_contra nonzero
      have even : Even (2 ^ x.exponent.toNat) := even_two.pow_of_ne_zero (by omega)
      exact Nat.not_even_iff_odd.mpr oddPower even
  cases negative with
  | true =>
    refine ⟨-(x.times : Int), ?_, parity.trans odd_neg.symm⟩
    rw [realValue_true, value, Int.cast_neg, Int.cast_natCast]
  | false =>
    refine ⟨x.times, ?_, parity⟩
    rw [realValue_false, value, Int.cast_natCast]

section Power

variable {negative : Bool} (nonzero : base.rank ≠ 0) (negative' : Bool)
  (whole : negative = true → (Dyadic.ofMagnitude exponent).isWhole = true)
include nonzero whole

/-- The power of a base other than zero, which is positive or has a whole exponent. -/
theorem pow_eq (ordinary : ¬ ((finite negative' exponent).isZero ||
      finite negative base == ofBits 0x3ff0000000000000) = true) :
    pow (.finite negative base) (.finite negative' exponent) =
      signed (negative && (Dyadic.ofMagnitude exponent).isOdd) (powPositive base negative' exponent) := by
  have defined : (negative && !(Dyadic.ofMagnitude exponent).isWhole) = false := by
    cases negative with
    | true => rw [whole rfl, Bool.not_true, Bool.and_false]
    | false => rfl
  rw [pow, if_neg ordinary]
  simp only [nonzero, if_false, defined, Bool.false_eq_true]

theorem isNaN_pow : (pow (.finite negative base) (.finite negative' exponent)).isNaN = false := by
  by_cases trivial : ((finite negative' exponent).isZero || finite negative base == ofBits 0x3ff0000000000000) = true
  · rw [pow, if_pos trivial]
    exact nearestReal_one.isNaN
  · rw [pow_eq nonzero negative' whole trivial, signed]
    split
    · rw [isNaN_negate]
      exact isNaN_powPositive nonzero negative' exponent
    · exact isNaN_powPositive nonzero negative' exponent

theorem pow_nearest
    (decided : (Dyadic.ofMagnitude base).pow? negative' (.ofMagnitude exponent) = none → Decided fun precision =>
      some (exponentialEnclosure precision (powerLogBracket base.quanta (signedQuanta negative' exponent) precision))) :
    NearestReal (realValue negative base ^ realValue negative' exponent)
      (pow (.finite negative base) (.finite negative' exponent)) := by
  have size := powPositive_nearest nonzero negative' exponent decided
  by_cases trivial : ((finite negative' exponent).isZero || finite negative base == ofBits 0x3ff0000000000000) = true
  · rw [pow, if_pos trivial]
    have power : realValue negative base ^ realValue negative' exponent = 1 := by
      rcases Bool.or_eq_true_iff.mp trivial with zero | same
      · rw [realValue_of_zero (beq_iff_eq.mp zero), Real.rpow_zero]
      · obtain ⟨m, one, value⟩ := exists_one
        rw [one, beq_iff_eq] at same
        cases same
        rw [realValue_false, value, Rat.cast_one, Real.one_rpow]
    rw [power]
    exact nearestReal_one
  · rw [pow_eq nonzero negative' whole trivial, signed]
    cases negative with
    | false =>
      rw [realValue_false]
      exact size
    | true =>
      have exponent_nonzero : exponent.rank ≠ 0 := by
        intro zero
        exact trivial (Bool.or_eq_true_iff.mpr (Or.inl (beq_iff_eq.mpr zero)))
      obtain ⟨n, value, parity⟩ := exists_wholeExponent negative' exponent_nonzero (whole rfl)
      rw [value, Real.rpow_intCast] at size ⊢
      rw [realValue_true, Bool.true_and]
      by_cases odd : (Dyadic.ofMagnitude exponent).isOdd = true
      · rw [if_pos odd, (parity.mp odd).neg_zpow]
        exact size.negate
      · have even : Even n := Int.not_odd_iff_even.mp fun isOdd => odd (parity.mpr isOdd)
        rw [if_neg odd, even.neg_zpow]
        exact size

end Power

end Binary64

end Reckoner

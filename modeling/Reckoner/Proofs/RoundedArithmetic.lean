import Mathlib.Analysis.Real.Sqrt
import Reckoner.Proofs.NearestReal

namespace Reckoner

theorem rootBelow_eq_iter (square guess : Nat) : rootBelow square guess = Nat.sqrt.iter square guess := by
  induction guess using Nat.strong_induction_on with
  | _ guess ih =>
    rw [rootBelow, Nat.sqrt.iter]
    by_cases down : (guess + square / guess) / 2 < guess
    · simp only [down, if_true, dite_true]
      exact ih _ down
    · simp only [down, if_false, dite_false]

/-- The iteration ends at the whole root. -/
theorem wholeRoot_eq (square : Nat) : wholeRoot square = Nat.sqrt square := by
  rw [wholeRoot, Nat.sqrt, twoTo_eq, rootBelow_eq_iter, Nat.one_shiftLeft]
  match square with
  | 0 => rfl
  | 1 =>
    rw [← rootBelow_eq_iter]
    decide +kernel
  | square + 2 => rw [if_neg (by omega), if_neg (by omega)]

/-- A middle between two values is a whole number of quanta, but for the middles between the least values. -/
theorem even_middleAt (rank : Nat) : middleAt rank % 2 = 0 ∨ middleAt rank < 2 ^ 54 := by
  obtain ⟨scale, significand, rfl, inside, normal⟩ := exists_scale rank
  rw [middleAt_scale inside normal]
  cases scale with
  | zero =>
    unfold ranksPerBinade at inside
    exact Or.inr (by omega)
  | succ scale =>
    rw [pow_succ', ← Nat.mul_assoc, Nat.mul_comm _ 2, Nat.mul_assoc]
    exact Or.inl (Nat.mul_mod_right 2 _)

section Sides

variable {root rank : Nat} {x : ℚ}

theorem halfwayAt_eq (rank : Nat) : halfwayAt rank = middleAt rank / 2 * quantum := by
  rw [halfwayAt, valueAt, valueAt, middleAt]
  push_cast
  ring

/-- No middle between two values lies between a large whole number of quanta and the next. -/
theorem side_of_middleAt (large : 2 ^ 54 ≤ root) (rank : Nat) :
    halfwayAt rank ≤ root * quantum ∨ (root + 1) * quantum ≤ halfwayAt rank := by
  rw [halfwayAt_eq]
  have half : middleAt rank / 2 ≤ (root : ℚ) ∨ (root + 1 : ℚ) ≤ middleAt rank / 2 := by
    rcases even_middleAt rank with even | little
    · obtain ⟨half, whole⟩ : ∃ half, middleAt rank = 2 * half := ⟨middleAt rank / 2, by omega⟩
      have value : (middleAt rank : ℚ) / 2 = half := by
        rw [whole]
        push_cast
        ring
      rw [value]
      rcases Nat.lt_or_ge root half with above | below
      · exact Or.inr (by exact_mod_cast above)
      · exact Or.inl (by exact_mod_cast below)
    · have bound : (middleAt rank : ℚ) ≤ 2 ^ 54 := by exact_mod_cast little.le
      have far : (2 ^ 54 : ℚ) ≤ root := by exact_mod_cast large
      left
      linarith
  exact half.imp (fun below => mul_le_mul_of_nonneg_right below quantum_pos.le) fun above =>
    mul_le_mul_of_nonneg_right above quantum_pos.le

/-- The numbers between a large whole number of quanta and the next are all rounded alike. -/
theorem ranksNearest_of_between (large : 2 ^ 54 ≤ root) (above : root * quantum < x)
    (below : x < (root + 1) * quantum) :
    RanksNearest x (nearestRank (2 * root + 1) 2) := by
  have middle : RanksNearest ((2 * root + 1 : Nat) / (2 : Nat) * quantum) (nearestRank (2 * root + 1) 2) :=
    ranksNearest_nearestRank two_pos rfl
  have value : ((2 * root + 1 : Nat) / (2 : Nat) * quantum : ℚ) = (root + 1 / 2) * quantum := by
    push_cast
    ring
  have positive := quantum_pos
  rw [value] at middle
  constructor
  · left
    rcases side_of_middleAt large (nearestRank (2 * root + 1) 2) with under | past
    · rcases middle.above with less | ⟨same, -⟩ <;> linarith
    · exact below.trans_le past
  · intro before previous
    left
    rcases side_of_middleAt large before with under | past
    · exact under.trans_lt above
    · rcases middle.below before previous with less | ⟨same, -⟩ <;> linarith

/-- Nor are the real numbers between them rounded in another way. -/
theorem nearestReal_of_between {r : ℝ} (large : 2 ^ 54 ≤ root) (above : (root : ℝ) * quantum < r)
    (below : r < (root + 1 : ℝ) * quantum) : NearestReal r (.nearest false (2 * root + 1) 2) := by
  obtain ⟨low, aboveRoot, under⟩ := exists_rat_btwn above
  obtain ⟨high, past, belowNext⟩ := exists_rat_btwn below
  have rounds {x : ℚ} (above : (root : ℝ) * quantum < x) (below : x < (root + 1 : ℝ) * quantum) :
      NearestDouble x (.ofRank false (nearestRank (2 * root + 1) 2)) :=
    nearestDouble_ofRank (ranksNearest_of_between large (by exact_mod_cast above) (by exact_mod_cast below))
  have nonnegative : 0 ≤ r := (mul_nonneg (Nat.cast_nonneg root) cast_quantum_pos.le).trans above.le
  have size := abs_of_nonneg nonnegative
  exact .of_between (by simp [size]) (under.le.trans size.ge) (size.le.trans past.le)
    (rounds aboveRoot (under.trans (past.trans belowNext))) (rounds (aboveRoot.trans (under.trans past)) belowNext)

end Sides

namespace Binary64

section Signs

variable {x y : ℝ} {negative negative' : Bool}

/-- The sign of a product or a quotient is the one of two signs that differ. -/
theorem sign_mul (sign : |x| = if negative then -x else x) (sign' : |y| = if negative' then -y else y) :
    |x * y| = if negative ^^ negative' then -(x * y) else x * y := by
  rw [abs_mul, sign, sign']
  cases negative <;> cases negative' <;> simp

theorem sign_inv (sign : |y| = if negative' then -y else y) : |y⁻¹| = if negative' then -y⁻¹ else y⁻¹ := by
  rw [abs_inv, sign]
  cases negative' with
  | true => simp [inv_neg]
  | false => rfl

end Signs

/-- The sum of two finite doubles is the double nearest to the exact sum. -/
theorem add_nearest (negative negative' : Bool) (m m' : Magnitude) :
    NearestReal (realValue negative m + realValue negative' m') (add (.finite negative m) (.finite negative' m')) := by
  obtain ⟨sum, isSum⟩ : ∃ sum, sum = signedQuanta negative m + signedQuanta negative' m' := ⟨_, rfl⟩
  have value : realValue negative m + realValue negative' m' = sum * quantum := by
    rw [realValue, realValue, ← add_mul, ← Int.cast_add, isSum]
  rw [add, addFinite, value]
  simp only [← isSum]
  by_cases zero : sum = 0
  · rw [if_pos zero, zero, Int.cast_zero, zero_mul]
    exact nearestReal_origin _
  · rw [if_neg zero]
    have size : |(sum : ℝ) * quantum| = sum.natAbs / (1 : Nat) * quantum := by
      rw [abs_mul, abs_of_pos cast_quantum_pos, Nat.cast_one, div_one, Nat.cast_natAbs, Int.cast_abs]
    refine nearestReal_nearest one_pos ?_ size
    by_cases below : sum < 0
    · have less : (sum : ℝ) * quantum < 0 := mul_neg_of_neg_of_pos (Int.cast_lt_zero.mpr below) cast_quantum_pos
      rw [abs_of_neg less, if_pos (decide_eq_true below)]
    · have least : 0 ≤ (sum : ℝ) * quantum := mul_nonneg (Int.cast_nonneg (not_lt.mp below)) cast_quantum_pos.le
      rw [abs_of_nonneg least, decide_eq_false below, if_neg Bool.false_ne_true]

theorem sub_nearest (negative negative' : Bool) (m m' : Magnitude) :
    NearestReal (realValue negative m - realValue negative' m') (sub (.finite negative m) (.finite negative' m')) := by
  rw [sub_eq_add_neg, ← realValue_not]
  exact add_nearest negative (!negative') m m'

theorem mul_nearest (negative negative' : Bool) (m m' : Magnitude) :
    NearestReal (realValue negative m * realValue negative' m') (mul (.finite negative m) (.finite negative' m')) := by
  refine nearestReal_nearest quantaPerUnit_pos (sign_mul (sign_realValue negative m) (sign_realValue negative' m')) ?_
  rw [abs_mul, abs_realValue, abs_realValue, Nat.cast_mul, div_quantaPerUnit]
  ring

theorem div_nearest {m' : Magnitude} (nonzero : m'.rank ≠ 0) (negative negative' : Bool) (m : Magnitude) :
    NearestReal (realValue negative m / realValue negative' m') (div (.finite negative m) (.finite negative' m')) := by
  have sign := sign_mul (sign_realValue negative m) (sign_inv (sign_realValue negative' m'))
  rw [div, if_neg nonzero]
  refine nearestReal_nearest (m'.quanta_pos nonzero) (div_eq_mul_inv (realValue negative m) _ ▸ sign) ?_
  rw [abs_div, abs_realValue, abs_realValue, mul_div_mul_right _ _ cast_quantum_pos.ne', Nat.cast_mul,
    mul_div_right_comm, mul_assoc, cast_quantaPerUnit_mul, mul_one]

theorem sqrt_value (m : Magnitude) : √(m.value : ℝ) = √((m.quanta * quantaPerUnit : Nat) : ℝ) * quantum := by
  have square : (m.value : ℝ) = ((m.quanta * quantaPerUnit : Nat) : ℝ) * (quantum * quantum) := by
    calc (m.value : ℝ) = m.quanta * quantum * (quantaPerUnit * quantum) := by
          rw [cast_quantaPerUnit_mul, mul_one, m.cast_value]
      _ = ((m.quanta * quantaPerUnit : Nat) : ℝ) * (quantum * quantum) := by
          push_cast
          ring
  rw [square, Real.sqrt_mul (Nat.cast_nonneg _), Real.sqrt_mul_self cast_quantum_pos.le]

/-- The square root is the double nearest to the exact root. -/
theorem sqrt_nearest (m : Magnitude) : NearestReal √m.value (sqrt (.finite false m)) := by
  by_cases zero : m.rank = 0
  · rw [sqrt, if_pos zero, ← realValue_false, realValue_of_zero zero, Real.sqrt_zero, finite_of_zero zero]
    exact nearestReal_origin false
  · have large : 2 ^ 54 ≤ Nat.sqrt (m.quanta * quantaPerUnit) := by
      have unit : 2 ^ 108 ≤ quantaPerUnit := by
        rw [quantaPerUnit, twoTo_eq]
        exact pow_le_pow_right₀ one_le_two (by decide)
      rw [Nat.le_sqrt, ← pow_add]
      exact unit.trans (Nat.le_mul_of_pos_left quantaPerUnit (m.quanta_pos zero))
    rw [sqrt, if_neg zero, sqrt_value]
    simp only [wholeRoot_eq, Bool.false_eq_true, if_false]
    generalize m.quanta * quantaPerUnit = square at *
    by_cases whole : Nat.sqrt square * Nat.sqrt square = square
    · have root : √(square : ℝ) = Nat.sqrt square := by
        conv_lhs => rw [← whole, Nat.cast_mul]
        exact Real.sqrt_mul_self (Nat.cast_nonneg _)
      have ratio : ((Nat.sqrt square : ℚ) * quantum) = (2 * Nat.sqrt square : Nat) / (2 : Nat) * quantum := by
        push_cast
        ring
      rw [if_pos whole, root]
      exact_mod_cast NearestReal.of_ranksNearest (mul_nonneg (Nat.cast_nonneg _) quantum_pos.le)
        (ranksNearest_nearestRank two_pos ratio)
    · have least : (Nat.sqrt square : ℝ) < √square := by
        refine Real.lt_sqrt_of_sq_lt ?_
        have less : Nat.sqrt square * Nat.sqrt square < square := lt_of_le_of_ne (Nat.sqrt_le square) whole
        rw [pow_two]
        exact_mod_cast less
      have most : √(square : ℝ) < Nat.sqrt square + 1 := Real.real_sqrt_lt_nat_sqrt_succ
      rw [if_neg whole]
      exact nearestReal_of_between large (mul_lt_mul_of_pos_right least cast_quantum_pos)
        (mul_lt_mul_of_pos_right most cast_quantum_pos)

end Binary64

end Reckoner

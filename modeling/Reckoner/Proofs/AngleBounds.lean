import Mathlib.Analysis.SpecialFunctions.Trigonometric.Arctan
import Reckoner.Elementary.Trigonometric
import Reckoner.Proofs.SeriesBounds

namespace Reckoner

/-- An angle is twice the angle of the tangent that half of it has. -/
theorem eq_two_mul_arctan {angle : ℝ} (low : -Real.pi < angle) (high : angle < Real.pi) :
    angle = 2 * Real.arctan (Real.sin angle / (1 + Real.cos angle)) := by
  obtain ⟨half, rfl⟩ : ∃ half, angle = 2 * half := ⟨angle / 2, by ring⟩
  have cosine : 0 < Real.cos half := Real.cos_pos_of_mem_Ioo ⟨by linarith, by linarith⟩
  have tangent : Real.sin (2 * half) / (1 + Real.cos (2 * half)) = Real.tan half := by
    rw [Real.sin_two_mul, Real.cos_two_mul, Real.tan_eq_sin_div_cos]
    field_simp
    ring
  rw [tangent, Real.arctan_tan (by linarith) (by linarith)]

theorem arctan_eq_two_mul (r : ℝ) : Real.arctan r = 2 * Real.arctan (r / (1 + √(1 + r * r))) := by
  have low := Real.neg_pi_div_two_lt_arctan r
  have high := Real.arctan_lt_pi_div_two r
  have root : 0 < √(1 + r * r) := Real.sqrt_pos.mpr (by nlinarith [mul_self_nonneg r])
  have half : Real.sin (Real.arctan r) / (1 + Real.cos (Real.arctan r)) = r / (1 + √(1 + r * r)) := by
    rw [Real.sin_arctan, Real.cos_arctan, pow_two]
    field_simp
    ring
  have whole := eq_two_mul_arctan (by linarith : -Real.pi < Real.arctan r) (by linarith)
  rwa [half] at whole

theorem arcsin_eq_two_mul {r : ℝ} (small : |r| ≤ 1) :
    Real.arcsin r = 2 * Real.arctan (r / (1 + √(1 - r * r))) := by
  obtain ⟨least, most⟩ := abs_le.mp small
  have low := Real.neg_pi_div_two_le_arcsin r
  have high := Real.arcsin_le_pi_div_two r
  have positive := Real.pi_pos
  have half : Real.sin (Real.arcsin r) / (1 + Real.cos (Real.arcsin r)) = r / (1 + √(1 - r * r)) := by
    rw [Real.sin_arcsin least most, Real.cos_arcsin, pow_two]
  have whole := eq_two_mul_arctan (by linarith : -Real.pi < Real.arcsin r) (by linarith)
  rwa [half] at whole

theorem complement_of_square {a b : ℝ} (nonzero : b ≠ 0) : (b * b - a * a) / (b * b) = 1 - a / b * (a / b) := by
  field_simp

theorem abs_half_tangent_le {r s : ℝ} (nonnegative : 1 ≤ s) : |r / (1 + s)| ≤ |r| / 2 := by
  rw [abs_div, abs_of_nonneg (by linarith : (0 : ℝ) ≤ 1 + s)]
  exact div_le_div_of_nonneg_left (abs_nonneg r) two_pos (by linarith)

namespace Bracket

/-- A divisor one above a square root lies above zero, however rough its bounds. -/
theorem one_add_root_pos (precision : Nat) (x : Bracket) : 0 < ((one precision).add (x.root precision)).lower :=
  Int.add_pos_of_pos_of_nonneg (cast_twoTo_pos precision) (Int.natCast_nonneg _)

namespace Holds

variable {precision : Nat} {x : Bracket} {r : ℝ}

theorem halfAngleTangent (here : x.Holds precision r) :
    (Reckoner.halfAngleTangent precision x).Holds precision (r / (1 + √(1 + r * r))) := by
  have square : 0 ≤ 1 + r * r := add_nonneg zero_le_one (mul_self_nonneg r)
  have root := ((holds_one precision).add (here.mul here)).root square
  exact here.div ((holds_one precision).add root) (one_add_root_pos precision _)

/-- Two halvings bring a tangent of at most one below a quarter. -/
theorem arctanBracket (here : x.Holds precision r) (small : |r| ≤ 1) :
    (Reckoner.arctanBracket precision x).Holds precision (Real.arctan r) := by
  have root (s : ℝ) : 1 ≤ √(1 + s * s) := Real.one_le_sqrt.mpr (le_add_of_nonneg_right (mul_self_nonneg s))
  obtain ⟨half, isHalf⟩ : ∃ half, half = r / (1 + √(1 + r * r)) := ⟨_, rfl⟩
  obtain ⟨quarter, isQuarter⟩ : ∃ quarter, quarter = half / (1 + √(1 + half * half)) := ⟨_, rfl⟩
  have halved : |half| ≤ |r| / 2 := isHalf ▸ abs_half_tangent_le (root r)
  have quartered : |quarter| ≤ |half| / 2 := isQuarter ▸ abs_half_tangent_le (root half)
  have bounds := here.halfAngleTangent.halfAngleTangent
  rw [← isHalf, ← isQuarter] at bounds
  have angle : Real.arctan r = (4 : Int) * Real.arctan quarter := by
    rw [arctan_eq_two_mul r, ← isHalf, arctan_eq_two_mul half, ← isQuarter]
    push_cast
    ring
  rw [angle]
  exact (bounds.arctanSeries (by linarith)).scale 4

end Holds

section Turns

/-- The angle that is left over, whatever the number of quarter turns is. -/
theorem holds_quarterTurns (precision quanta : Nat) :
    (quarterTurns precision quanta).2.Holds precision
      (quanta * quantum - (quarterTurns precision quanta).1 * (Real.pi / 2)) := by
  rw [quarterTurns]
  generalize Nat.log2 quanta - 1074 + 8 = extra
  generalize (4 * (ofRatio (precision + extra) quanta quantaPerUnit).lower + (piBracket (precision + extra)).lower) /
    (2 * (piBracket (precision + extra)).lower) = turns
  have angle := holds_fraction (precision + extra) quanta quantaPerUnit_pos
  rw [div_quantaPerUnit] at angle
  have rest := (((angle.scale 2).sub ((holds_piBracket (precision + extra)).scale turns)).divNat two_pos).coarsen
  have value : ((2 : Int) * (quanta * quantum) - turns * Real.pi) / (2 : Nat) =
      quanta * quantum - turns * (Real.pi / 2) := by
    push_cast
    ring
  rwa [value] at rest

theorem sin_add_quarterTurns (r : ℝ) (turns : Int) :
    Real.sin (r + turns * (Real.pi / 2)) = Real.sin (r + (turns % 4 : Int) * (Real.pi / 2)) := by
  have split : (turns : ℝ) = (turns % 4 : Int) + 4 * (turns / 4 : Int) := by
    exact_mod_cast (Int.emod_add_mul_ediv turns 4).symm
  have angle : r + turns * (Real.pi / 2) =
      r + (turns % 4 : Int) * (Real.pi / 2) + (turns / 4 : Int) * (2 * Real.pi) := by
    rw [split]
    ring
  rw [angle, Real.sin_add_int_mul_two_pi]

theorem holds_sineBracket (ahead precision quanta : Nat) :
    (sineBracket ahead precision quanta).Holds precision (Real.sin (quanta * quantum + ahead * (Real.pi / 2))) := by
  have bounds := holds_quarterTurns precision quanta
  rw [sineBracket]
  generalize quarterTurns precision quanta = split at *
  obtain ⟨turns, rest⟩ := split
  obtain ⟨r, left⟩ : ∃ r, r = quanta * quantum - turns * (Real.pi / 2) := ⟨_, rfl⟩
  have angle : quanta * quantum + ahead * (Real.pi / 2) = r + ((turns + ahead : Int) : ℝ) * (Real.pi / 2) := by
    rw [left]
    push_cast
    ring
  rw [← left] at bounds
  rw [angle, sin_add_quarterTurns]
  obtain quarter | quarter | quarter | quarter : (turns + ahead) % 4 = 0 ∨ (turns + ahead) % 4 = 1 ∨
      (turns + ahead) % 4 = 2 ∨ (turns + ahead) % 4 = 3 := by omega
  · have same : Real.sin (r + (0 : Int) * (Real.pi / 2)) = Real.sin r := by simp
    simp only [quarter, same]
    exact bounds.sineSeries
  · have same : Real.sin (r + (1 : Int) * (Real.pi / 2)) = Real.cos r := by
      rw [Int.cast_one, one_mul, Real.sin_add_pi_div_two]
    simp only [quarter, same]
    exact bounds.cosineSeries
  · have same : Real.sin (r + (2 : Int) * (Real.pi / 2)) = -Real.sin r := by
      rw [Int.cast_ofNat, mul_div_cancel₀ Real.pi two_ne_zero, Real.sin_add_pi]
    simp only [quarter, same]
    exact bounds.sineSeries.neg
  · have same : Real.sin (r + (3 : Int) * (Real.pi / 2)) = -Real.cos r := by
      have around : r + (3 : Int) * (Real.pi / 2) = r + Real.pi / 2 + Real.pi := by
        push_cast
        ring
      rw [around, Real.sin_add_pi, Real.sin_add_pi_div_two]
    simp only [quarter, same]
    exact bounds.cosineSeries.neg

variable {m : Magnitude}

theorem holds_sine (precision : Nat) (m : Magnitude) :
    (sineBracket 0 precision m.quanta).Holds precision (Real.sin m.value) := by
  have bounds := holds_sineBracket 0 precision m.quanta
  rwa [Nat.cast_zero, zero_mul, add_zero, ← m.cast_value] at bounds

theorem holds_cosine (precision : Nat) (m : Magnitude) :
    (sineBracket 1 precision m.quanta).Holds precision (Real.cos m.value) := by
  have bounds := holds_sineBracket 1 precision m.quanta
  rwa [Nat.cast_one, one_mul, Real.sin_add_pi_div_two, ← m.cast_value] at bounds

/-- The tangent as a quotient of sine and cosine, or of both with the other sign. -/
theorem holds_tangent {precision : Nat} {bounds : Bracket}
    (known : tangentBracket? precision m.quanta = some bounds) : bounds.Holds precision (Real.tan m.value) := by
  have sine := holds_sine precision m
  have cosine := holds_cosine precision m
  rw [Real.tan_eq_sin_div_cos]
  rcases Option.or_eq_some_iff.mp known with above | ⟨-, below⟩
  · exact sine.of_div? cosine above
  · rw [← neg_div_neg_eq]
    exact sine.neg.of_div? cosine.neg below

end Turns

section Inverse

variable {m : Magnitude}

theorem value_le_one (small : m.quanta ≤ quantaPerUnit) : |(m.value : ℝ)| ≤ 1 := by
  have unit : (0 : ℝ) < quantaPerUnit := Nat.cast_pos.mpr quantaPerUnit_pos
  rw [m.cast_value, ← div_quantaPerUnit, abs_of_nonneg (div_nonneg (Nat.cast_nonneg _) unit.le), div_le_one unit]
  exact_mod_cast small

theorem holds_arctanOfQuanta (precision : Nat) (positive : 0 < m.quanta) :
    (arctanOfQuanta precision m.quanta).Holds precision (Real.arctan m.value) := by
  have unit : (0 : ℝ) < quantaPerUnit := Nat.cast_pos.mpr quantaPerUnit_pos
  have size : (0 : ℝ) < m.quanta := Nat.cast_pos.mpr positive
  rw [arctanOfQuanta]
  split
  · rename_i small
    exact (holds_value precision m).arctanBracket (value_le_one small)
  · rename_i large
    have ratio := holds_fraction precision quantaPerUnit positive
    have most : |(quantaPerUnit / m.quanta : ℝ)| ≤ 1 := by
      rw [abs_of_nonneg (div_nonneg unit.le size.le), div_le_one size]
      exact_mod_cast (not_le.mp large).le
    have inverse : Real.arctan m.value = Real.pi / (2 : Nat) - Real.arctan (quantaPerUnit / m.quanta) := by
      have value : (m.value : ℝ) = (quantaPerUnit / m.quanta : ℝ)⁻¹ := by
        rw [inv_div, div_quantaPerUnit, m.cast_value]
      rw [value, Real.arctan_inv_of_pos (div_pos unit size), Nat.cast_ofNat]
    rw [inverse]
    exact ((holds_piBracket precision).divNat two_pos).sub (ratio.arctanBracket most)

theorem holds_arcsinBracket (precision : Nat) (small : m.quanta ≤ quantaPerUnit) :
    (arcsinBracket precision m.quanta).Holds precision (Real.arcsin m.value) := by
  have unit : (quantaPerUnit : ℝ) ≠ 0 := Nat.cast_ne_zero.mpr quantaPerUnit_pos.ne'
  have size := value_le_one small
  obtain ⟨r, isValue⟩ : ∃ r : ℝ, r = m.value := ⟨_, rfl⟩
  have ratio := holds_value precision m
  rw [← isValue] at size ratio ⊢
  have square := holds_ofRatio precision ((quantaPerUnit : Int) * quantaPerUnit - m.quanta * m.quanta)
    (Nat.mul_pos quantaPerUnit_pos quantaPerUnit_pos)
  have complement : ((quantaPerUnit : Int) * quantaPerUnit - m.quanta * m.quanta : Int) /
      (quantaPerUnit * quantaPerUnit : Nat) = 1 - r * r := by
    rw [isValue, m.cast_value, ← div_quantaPerUnit, ← complement_of_square unit]
    push_cast
    rfl
  have nonnegative : 0 ≤ 1 - r * r := by
    have most := abs_square_le_one size
    rw [abs_of_nonneg (mul_self_nonneg r)] at most
    linarith
  rw [complement] at square
  have tangent := ratio.div ((holds_one precision).add (square.root nonnegative)) (one_add_root_pos precision _)
  have little : |r / (1 + √(1 - r * r))| ≤ 1 := by
    have divisor : 1 ≤ 1 + √(1 - r * r) := le_add_of_nonneg_right (Real.sqrt_nonneg _)
    rw [abs_div, abs_of_pos (zero_lt_one.trans_le divisor)]
    exact (div_le_self (abs_nonneg r) divisor).trans size
  rw [arcsin_eq_two_mul size]
  exact (tangent.arctanBracket little).scale 2

theorem holds_arccosBracket (precision : Nat) (negative : Bool) (small : m.quanta ≤ quantaPerUnit) :
    (arccosBracket precision negative m.quanta).Holds precision (Real.arccos (Binary64.realValue negative m)) := by
  have quarter := (holds_piBracket precision).divNat two_pos
  have angle := holds_arcsinBracket precision small
  rw [Nat.cast_ofNat] at quarter
  rw [Real.arccos_eq_pi_div_two_sub_arcsin, arccosBracket, sub_eq_add_neg]
  cases negative with
  | true =>
    rw [Binary64.realValue_true, Real.arcsin_neg, neg_neg]
    exact quarter.add angle
  | false =>
    rw [Binary64.realValue_false]
    exact quarter.add angle.neg

end Inverse

end Bracket

namespace Binary64

variable {m : Magnitude}

/-- An odd function of a double is nearest when it is for positive doubles. -/
theorem oddly_nearest {positive : Magnitude → Binary64} {f : ℝ → ℝ} (odd : ∀ r, f (-r) = -f r)
    (nearest : m.rank ≠ 0 → NearestReal (f m.value) (positive m)) (negative : Bool) :
    NearestReal (f (realValue negative m)) (oddly positive negative m) := by
  have origin : f 0 = 0 := by
    have mirrored := odd 0
    rw [neg_zero] at mirrored
    linarith
  rw [oddly]
  by_cases zero : m.rank = 0
  · rw [if_pos zero, realValue_of_zero zero, origin, finite_of_zero zero]
    exact nearestReal_origin negative
  · rw [if_neg zero]
    cases negative with
    | true =>
      rw [realValue_true, odd]
      exact (nearest zero).negate
    | false =>
      rw [realValue_false]
      exact nearest zero

theorem isNaN_oddly {positive : Magnitude → Binary64} (known : (positive m).isNaN = false) (negative : Bool) :
    (oddly positive negative m).isNaN = false := by
  rw [oddly]
  split
  · rfl
  · cases negative with
    | true =>
      rw [if_pos rfl, isNaN_negate]
      exact known
    | false => exact known

theorem sin_nearest (negative : Bool) (m : Magnitude)
    (decided : Decided fun precision => some (.fixed precision (sineBracket 0 precision m.quanta))) :
    NearestReal (Real.sin (realValue negative m)) (sin (.finite negative m)) := by
  rw [sin]
  exact oddly_nearest Real.sin_neg
    (fun _ => settleFixed_nearest (fun precision => Bracket.holds_sine precision m) decided) negative

/-- At one the first bounds decide. -/
example : Decided fun precision => some (.fixed precision (sineBracket 0 precision quantaPerUnit)) :=
  ⟨0, by decide, by decide +kernel⟩

theorem isNaN_sin (negative : Bool) (m : Magnitude) : (sin (.finite negative m)).isNaN = false := by
  rw [sin]
  exact isNaN_oddly (isNaN_settleFixed _) negative

theorem cos_nearest (negative : Bool) (m : Magnitude)
    (decided : Decided fun precision => some (.fixed precision (sineBracket 1 precision m.quanta))) :
    NearestReal (Real.cos (realValue negative m)) (cos (.finite negative m)) := by
  rw [cos]
  by_cases zero : m.rank = 0
  · rw [if_pos zero, realValue_of_zero zero, Real.cos_zero]
    exact nearestReal_one
  · have even : Real.cos (realValue negative m) = Real.cos m.value := by
      cases negative with
      | true => rw [realValue_true, Real.cos_neg]
      | false => rw [realValue_false]
    rw [if_neg zero, even]
    exact settleFixed_nearest (fun precision => Bracket.holds_cosine precision m) decided

theorem isNaN_cos (negative : Bool) (m : Magnitude) : (cos (.finite negative m)).isNaN = false := by
  rw [cos]
  split
  · exact nearestReal_one.isNaN
  · exact isNaN_settleFixed _

/-- The tangent is decided only where the bounds of the cosine stay away from zero. -/
theorem tan_nearest (negative : Bool) (m : Magnitude) (decided : Decided fun precision =>
      (tangentBracket? precision m.quanta).map (.fixed precision)) :
    NearestReal (Real.tan (realValue negative m)) (tan (.finite negative m)) := by
  rw [tan]
  refine oddly_nearest Real.tan_neg (fun _ => settle_nearest (fun precision e known => ?_) decided) negative
  obtain ⟨bounds, tangent, rfl⟩ := Option.map_eq_some_iff.mp known
  exact Enclosure.holds_fixed (Bracket.holds_tangent tangent)

theorem isNaN_tan (negative : Bool) (known : (tangentBracket? (2 ^ mostDoublings * firstPrecision) m.quanta).isSome) :
    (tan (.finite negative m)).isNaN = false := by
  rw [tan]
  refine isNaN_oddly (isNaN_settle ?_) negative
  rw [Option.isSome_map]
  exact known

/-- The constant is the double nearest to the circle ratio. -/
theorem pi_nearest : NearestReal Real.pi pi :=
  (Enclosure.holds_fixed (Bracket.holds_piBracket firstPrecision)).nearest (by decide +kernel)

/-- At infinity the angle of a tangent is a quarter turn. -/
theorem atan_infinity_nearest (negative : Bool) :
    NearestReal (if negative then -(Real.pi / 2) else Real.pi / 2) (atan (.infinity negative)) := by
  have bounds := Enclosure.holds_fixed ((Bracket.holds_piBracket firstPrecision).divNat two_pos)
  have quarter : NearestReal (Real.pi / 2) (ofBits 0x3ff921fb54442d18) := by
    rw [← Nat.cast_ofNat]
    exact bounds.nearest (by decide +kernel)
  cases negative with
  | true => exact quarter.negate
  | false => exact quarter

theorem atan_nearest (negative : Bool) (m : Magnitude)
    (decided : Decided fun precision => some (.fixed precision (arctanOfQuanta precision m.quanta))) :
    NearestReal (Real.arctan (realValue negative m)) (atan (.finite negative m)) := by
  rw [atan]
  exact oddly_nearest Real.arctan_neg (fun nonzero => settleFixed_nearest
    (fun precision => Bracket.holds_arctanOfQuanta precision (m.quanta_pos nonzero)) decided) negative

theorem isNaN_atan (negative : Bool) (m : Magnitude) : (atan (.finite negative m)).isNaN = false := by
  rw [atan]
  exact isNaN_oddly (isNaN_settleFixed _) negative

section Inverse

variable (small : m.quanta ≤ quantaPerUnit)
include small

theorem asin_nearest (negative : Bool)
    (decided : Decided fun precision => some (.fixed precision (arcsinBracket precision m.quanta))) :
    NearestReal (Real.arcsin (realValue negative m)) (asin (.finite negative m)) := by
  rw [asin, if_neg (not_lt.mpr small)]
  exact oddly_nearest Real.arcsin_neg
    (fun _ => settleFixed_nearest (fun precision => Bracket.holds_arcsinBracket precision small) decided) negative

theorem isNaN_asin (negative : Bool) : (asin (.finite negative m)).isNaN = false := by
  rw [asin, if_neg (not_lt.mpr small)]
  exact isNaN_oddly (isNaN_settleFixed _) negative

theorem acos_nearest (negative : Bool)
    (decided : Decided fun precision => some (.fixed precision (arccosBracket precision negative m.quanta))) :
    NearestReal (Real.arccos (realValue negative m)) (acos (.finite negative m)) := by
  rw [acos, if_neg (not_lt.mpr small)]
  split
  · rename_i one
    obtain ⟨unit, positive⟩ := Bool.and_eq_true_iff.mp one
    have value : realValue negative m = 1 := by
      rw [Bool.not_eq_true'] at positive
      rw [positive, realValue_false, m.cast_value_of_unit (of_decide_eq_true unit)]
    rw [value, Real.arccos_one]
    exact nearestReal_origin false
  · exact settleFixed_nearest (fun precision => Bracket.holds_arccosBracket precision negative small) decided

theorem isNaN_acos (negative : Bool) : (acos (.finite negative m)).isNaN = false := by
  rw [acos, if_neg (not_lt.mpr small)]
  split
  · rfl
  · exact isNaN_settleFixed _

end Inverse

end Binary64

end Reckoner

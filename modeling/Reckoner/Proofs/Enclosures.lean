import Reckoner.Elementary.Bracket
import Reckoner.Proofs.RoundedArithmetic

namespace Reckoner

namespace Bracket

variable {x y : Bracket} {u v : ℝ}

/-- A number of units lies between the bounds. -/
structure Contains (x : Bracket) (units : ℝ) : Prop where
  lower_le : x.lower ≤ units
  le_upper : units ≤ x.upper

theorem ediv_le (numerator : Int) {divisor : Int} (positive : 0 < divisor) :
    ((numerator / divisor : Int) : ℝ) ≤ numerator / divisor := by
  rw [le_div_iff₀ (Int.cast_pos.mpr positive)]
  exact_mod_cast Int.ediv_mul_le numerator positive.ne'

theorem le_ceilDiv (numerator : Int) {divisor : Int} (positive : 0 < divisor) :
    (numerator / divisor : ℝ) ≤ ceilDiv numerator divisor := by
  have below := ediv_le (-numerator) positive
  rw [ceilDiv, Int.cast_neg]
  rw [Int.cast_neg, neg_div] at below
  linarith

namespace Contains

theorem neg (here : x.Contains u) : x.neg.Contains (-u) where
  lower_le := by
    rw [Bracket.neg, Int.cast_neg]
    exact neg_le_neg here.le_upper
  le_upper := by
    rw [Bracket.neg, Int.cast_neg]
    exact neg_le_neg here.lower_le

theorem add (here : x.Contains u) (there : y.Contains v) : (x.add y).Contains (u + v) where
  lower_le := by
    rw [Bracket.add, Int.cast_add]
    exact add_le_add here.lower_le there.lower_le
  le_upper := by
    rw [Bracket.add, Int.cast_add]
    exact add_le_add here.le_upper there.le_upper

theorem widen {slack : Int} (here : x.Contains u) (near : |v - u| ≤ slack) : (x.widen slack).Contains v := by
  obtain ⟨below, above⟩ := abs_le.mp near
  have least := here.lower_le
  have most := here.le_upper
  constructor
  · rw [Bracket.widen, Int.cast_sub]
    linarith
  · rw [Bracket.widen, Int.cast_add]
    linarith

theorem abs_le_reach (here : x.Contains u) : |u| ≤ x.reach := by
  have least := here.lower_le
  rw [reach, Int.cast_max, Int.cast_neg, abs_le']
  exact ⟨le_max_of_le_right here.le_upper, le_max_of_le_left (neg_le_neg least)⟩

theorem scale (factor : Int) (here : x.Contains u) : (x.scale factor).Contains (factor * u) := by
  rw [Bracket.scale]
  split
  · rename_i negative
    have sign : (factor : ℝ) ≤ 0 := by exact_mod_cast negative.le
    constructor
    · rw [Int.cast_mul]
      exact mul_le_mul_of_nonpos_left here.le_upper sign
    · rw [Int.cast_mul]
      exact mul_le_mul_of_nonpos_left here.lower_le sign
  · rename_i nonnegative
    have sign : (0 : ℝ) ≤ factor := by exact_mod_cast not_lt.mp nonnegative
    constructor
    · rw [Int.cast_mul]
      exact mul_le_mul_of_nonneg_left here.lower_le sign
    · rw [Int.cast_mul]
      exact mul_le_mul_of_nonneg_left here.le_upper sign

theorem divNat {divisor : Nat} (positive : 0 < divisor) (here : x.Contains u) :
    (x.divNat divisor).Contains (u / divisor) := by
  have whole : (0 : Int) < divisor := by exact_mod_cast positive
  have size : (0 : ℝ) ≤ divisor := Nat.cast_nonneg divisor
  constructor
  · exact (ediv_le x.lower whole).trans (div_le_div_of_nonneg_right here.lower_le size)
  · exact (div_le_div_of_nonneg_right here.le_upper size).trans (le_ceilDiv x.upper whole)

/-- A product lies between the products of the bounds, as it does when one factor is fixed. -/
theorem corners (here : x.Contains u) (there : y.Contains v) :
    Contains ⟨min (min (x.lower * y.lower) (x.lower * y.upper)) (min (x.upper * y.lower) (x.upper * y.upper)),
      max (max (x.lower * y.lower) (x.lower * y.upper)) (max (x.upper * y.lower) (x.upper * y.upper))⟩ (u * v) := by
  have fixed {a b s t : ℝ} (least : a ≤ s) (most : s ≤ b) :
      min (a * t) (b * t) ≤ s * t ∧ s * t ≤ max (a * t) (b * t) := by
    rcases le_total 0 t with sign | sign
    · exact ⟨min_le_of_left_le (mul_le_mul_of_nonneg_right least sign),
        le_max_of_le_right (mul_le_mul_of_nonneg_right most sign)⟩
    · exact ⟨min_le_of_right_le (mul_le_mul_of_nonpos_right most sign),
        le_max_of_le_left (mul_le_mul_of_nonpos_right least sign)⟩
  obtain ⟨under, past⟩ := fixed here.lower_le here.le_upper (t := v)
  obtain ⟨underLow, overLow⟩ := fixed there.lower_le there.le_upper (t := (x.lower : ℝ))
  obtain ⟨underHigh, overHigh⟩ := fixed there.lower_le there.le_upper (t := (x.upper : ℝ))
  constructor
  · push_cast
    rw [mul_comm v, mul_comm _ (x.lower : ℝ), mul_comm _ (x.lower : ℝ)] at underLow
    rw [mul_comm v, mul_comm _ (x.upper : ℝ), mul_comm _ (x.upper : ℝ)] at underHigh
    exact (min_le_min underLow underHigh).trans under
  · push_cast
    rw [mul_comm v, mul_comm _ (x.lower : ℝ), mul_comm _ (x.lower : ℝ)] at overLow
    rw [mul_comm v, mul_comm _ (x.upper : ℝ), mul_comm _ (x.upper : ℝ)] at overHigh
    exact past.trans (max_le_max overLow overHigh)

/-- Of a positive divisor the bound that keeps the quotient outside depends on the sign of the dividend. -/
theorem quotient (here : x.Contains u) (there : y.Contains v) (positive : 0 < y.lower) :
    Contains ⟨x.lower / (if x.lower < 0 then y.lower else y.upper),
      ceilDiv x.upper (if x.upper < 0 then y.upper else y.lower)⟩ (u / v) := by
  have least : (0 : ℝ) < y.lower := Int.cast_pos.mpr positive
  have divisor : 0 < v := least.trans_le there.lower_le
  have upper : 0 < y.upper := by exact_mod_cast divisor.trans_le there.le_upper
  have antitone {a b c : ℝ} (dividend : a ≤ 0) (smaller : 0 < b) (larger : b ≤ c) : a / b ≤ a / c := by
    have mirrored := div_le_div_of_nonneg_left (neg_nonneg.mpr dividend) smaller larger
    rwa [neg_div, neg_div, neg_le_neg_iff] at mirrored
  constructor
  · refine le_trans ?_ (div_le_div_of_nonneg_right here.lower_le divisor.le)
    by_cases sign : x.lower < 0
    · simp only [if_pos sign]
      exact (ediv_le x.lower positive).trans (antitone (by exact_mod_cast sign.le) least there.lower_le)
    · simp only [if_neg sign]
      exact (ediv_le x.lower upper).trans
        (div_le_div_of_nonneg_left (by exact_mod_cast not_lt.mp sign) divisor there.le_upper)
  · refine le_trans (div_le_div_of_nonneg_right here.le_upper divisor.le) ?_
    by_cases sign : x.upper < 0
    · simp only [if_pos sign]
      exact (antitone (by exact_mod_cast sign.le) divisor there.le_upper).trans (le_ceilDiv x.upper upper)
    · simp only [if_neg sign]
      exact (div_le_div_of_nonneg_left (by exact_mod_cast not_lt.mp sign) least there.lower_le).trans
        (le_ceilDiv x.upper positive)

end Contains

/-- A real number lies between the bounds when they are in units of `2 ^ -precision`. -/
def Holds (precision : Nat) (x : Bracket) (r : ℝ) : Prop := x.Contains (r * 2 ^ precision)

variable {precision : Nat} {r s : ℝ}

theorem cast_twoTo (exponent : Nat) : ((twoTo exponent : Int) : ℝ) = 2 ^ exponent := by
  rw [twoTo_eq]
  push_cast
  rfl

theorem cast_twoTo_pos (exponent : Nat) : 0 < (twoTo exponent : Int) := Int.natCast_pos.mpr (Nat.two_pow_pos exponent)

theorem holds_ofRatio (precision : Nat) (numerator : Int) {denominator : Nat} (positive : 0 < denominator) :
    (ofRatio precision numerator denominator).Holds precision (numerator / denominator) := by
  have scaled : (numerator / denominator * 2 ^ precision : ℝ) = (numerator * twoTo precision : Int) / denominator := by
    rw [Int.cast_mul, cast_twoTo]
    ring
  have whole : (0 : Int) < denominator := by exact_mod_cast positive
  rw [Holds, scaled]
  exact ⟨ediv_le _ whole, le_ceilDiv _ whole⟩

theorem holds_one (precision : Nat) : (one precision).Holds precision 1 := by
  rw [Holds, one_mul, ← cast_twoTo]
  exact ⟨le_refl _, le_refl _⟩

theorem holds_zero (precision : Nat) : Holds precision ⟨0, 0⟩ 0 := by
  rw [Holds, zero_mul]
  exact ⟨Int.cast_zero.le, Int.cast_zero.ge⟩

theorem holds_unit (precision : Nat) (small : |r| ≤ 1) : (unit precision).Holds precision r := by
  obtain ⟨least, most⟩ := abs_le.mp small
  have positive : (0 : ℝ) ≤ 2 ^ precision := pow_nonneg zero_le_two precision
  constructor
  · rw [unit, Int.cast_neg, cast_twoTo]
    linarith [mul_le_mul_of_nonneg_right least positive]
  · rw [unit, cast_twoTo]
    linarith [mul_le_mul_of_nonneg_right most positive]

namespace Holds

theorem neg (here : x.Holds precision r) : x.neg.Holds precision (-r) := by
  rw [Holds, neg_mul]
  exact Contains.neg here

theorem add (here : x.Holds precision r) (there : y.Holds precision s) : (x.add y).Holds precision (r + s) := by
  rw [Holds, add_mul]
  exact Contains.add here there

theorem sub (here : x.Holds precision r) (there : y.Holds precision s) : (x.sub y).Holds precision (r - s) := by
  rw [sub_eq_add_neg]
  exact here.add there.neg

theorem scale (factor : Int) (here : x.Holds precision r) : (x.scale factor).Holds precision (factor * r) := by
  rw [Holds, mul_assoc]
  exact Contains.scale factor here

theorem atLeast {bound : Nat} (here : x.Holds precision r) (known : bound ≤ r) :
    (x.atLeast precision bound).Holds precision r := by
  refine ⟨?_, here.le_upper⟩
  rw [Bracket.atLeast, Int.cast_max, Int.cast_mul, cast_twoTo, Int.cast_natCast]
  exact max_le (mul_le_mul_of_nonneg_right known (pow_nonneg zero_le_two precision)) here.lower_le

theorem divNat {divisor : Nat} (positive : 0 < divisor) (here : x.Holds precision r) :
    (x.divNat divisor).Holds precision (r / divisor) := by
  rw [Holds, div_mul_eq_mul_div]
  exact Contains.divNat positive here

theorem coarsen {digits : Nat} (here : x.Holds (precision + digits) r) : (x.coarsen digits).Holds precision r := by
  have fewer : r * 2 ^ precision = r * 2 ^ (precision + digits) / twoTo digits := by
    rw [pow_add, ← mul_assoc, twoTo_eq, Nat.cast_pow, Nat.cast_ofNat,
      mul_div_cancel_right₀ _ (pow_ne_zero _ two_ne_zero)]
  rw [Holds, fewer]
  exact Contains.divNat (Nat.two_pow_pos digits) here

theorem mul (here : x.Holds precision r) (there : y.Holds precision s) :
    (x.mul precision y).Holds precision (r * s) := by
  refine coarsen ?_
  have product : r * s * 2 ^ (precision + precision) = r * 2 ^ precision * (s * 2 ^ precision) := by
    rw [pow_add]
    ring
  rw [Holds, product]
  exact Contains.corners here there

/-- A number is no larger than its bounds allow. -/
theorem abs_le (here : x.Holds precision r) : |r| * 2 ^ precision ≤ x.reach := by
  have reach := here.abs_le_reach
  rwa [abs_mul, abs_of_nonneg (pow_nonneg (zero_le_two : (0 : ℝ) ≤ 2) precision)] at reach

theorem abs_le_one (here : x.Holds precision r) (small : ¬ twoTo precision < x.reach) : |r| ≤ 1 := by
  have reach : (x.reach : ℝ) ≤ 2 ^ precision := by
    rw [← cast_twoTo]
    exact_mod_cast not_lt.mp small
  have positive : (0 : ℝ) < 2 ^ precision := pow_pos two_pos precision
  exact le_of_mul_le_mul_right (by linarith [here.abs_le]) positive

theorem div (here : x.Holds precision r) (there : y.Holds precision s) (positive : 0 < y.lower) :
    (x.div precision y).Holds precision (r / s) := by
  have unit : (0 : ℝ) < 2 ^ precision := pow_pos two_pos precision
  have shifted : Contains ⟨x.lower * twoTo precision, x.upper * twoTo precision⟩
      (r * 2 ^ precision * 2 ^ precision) := by
    constructor
    · rw [Int.cast_mul, cast_twoTo]
      exact mul_le_mul_of_nonneg_right here.lower_le unit.le
    · rw [Int.cast_mul, cast_twoTo]
      exact mul_le_mul_of_nonneg_right here.le_upper unit.le
  have quotient : r / s * 2 ^ precision = r * 2 ^ precision * 2 ^ precision / (s * 2 ^ precision) := by
    rw [mul_div_mul_right _ _ unit.ne', div_mul_eq_mul_div]
  rw [Holds, quotient]
  exact shifted.quotient there positive

theorem of_div? {quotient : Bracket} (here : x.Holds precision r) (there : y.Holds precision s)
    (divides : x.div? precision y = some quotient) : quotient.Holds precision (r / s) := by
  rw [div?] at divides
  split at divides
  · rename_i positive
    cases divides
    exact here.div there positive
  · cases divides

theorem root (here : x.Holds precision r) (nonnegative : 0 ≤ r) : (x.root precision).Holds precision √r := by
  have unit : (0 : ℝ) ≤ 2 ^ precision := pow_nonneg zero_le_two precision
  have product : √r * 2 ^ precision = √(r * 2 ^ precision * 2 ^ precision) := by
    rw [mul_assoc, Real.sqrt_mul nonnegative, Real.sqrt_mul_self unit]
  have least : (x.lower.toNat : ℝ) ≤ r * 2 ^ precision := by
    have whole : ((x.lower.toNat : Int) : ℝ) = max (x.lower : ℝ) 0 := by
      rw [Int.toNat_eq_max, Int.cast_max, Int.cast_zero]
    rw [← Int.cast_natCast, whole]
    exact max_le here.lower_le (mul_nonneg nonnegative unit)
  have most : r * 2 ^ precision ≤ x.upper.toNat := here.le_upper.trans (by exact_mod_cast Int.self_le_toNat x.upper)
  have square (whole : Nat) : ((whole * twoTo precision : Nat) : ℝ) = whole * 2 ^ precision := by
    rw [Nat.cast_mul, twoTo_eq, Nat.cast_pow, Nat.cast_ofNat]
  rw [Holds, product, Bracket.root, wholeRoot_eq, wholeRoot_eq]
  constructor
  · have below := (Real.nat_sqrt_le_real_sqrt (a := x.lower.toNat * twoTo precision))
    rw [square] at below
    rw [Int.cast_natCast]
    exact below.trans (Real.sqrt_le_sqrt (mul_le_mul_of_nonneg_right least unit))
  · have above := (Real.real_sqrt_lt_nat_sqrt_succ (a := x.upper.toNat * twoTo precision)).le
    rw [square] at above
    rw [Int.cast_add, Int.cast_natCast, Int.cast_one]
    exact (Real.sqrt_le_sqrt (mul_le_mul_of_nonneg_right most unit)).trans above

end Holds

end Bracket

namespace Enclosure

variable {e : Enclosure} {r : ℝ} {v : Binary64}

/-- A real number lies between the bounds. -/
def Holds (e : Enclosure) (r : ℝ) : Prop :=
  e.bounds.lower * (2 : ℝ) ^ e.exponent ≤ r ∧ r ≤ e.bounds.upper * (2 : ℝ) ^ e.exponent

theorem holds_fixed {precision : Nat} {x : Bracket} (here : x.Holds precision r) : (fixed precision x).Holds r := by
  have unit : (0 : ℝ) < 2 ^ precision := pow_pos two_pos precision
  rw [Holds, fixed, zpow_neg, zpow_natCast, ← div_eq_mul_inv, ← div_eq_mul_inv, div_le_iff₀ unit, le_div_iff₀ unit]
  exact ⟨here.lower_le, here.le_upper⟩

theorem agreed?_eq_some_iff :
    e.agreed? = some v ↔ e.rounded = .nearestScaled e.bounds.upper e.exponent ∧ e.rounded = v := by
  rw [agreed?]
  split <;> simp_all

/-- What both bounds round to is the nearest double of the number between them. -/
theorem Holds.nearest (here : e.Holds r) (agreed : e.agreed? = some v) : NearestReal r v := by
  obtain ⟨same, rfl⟩ := agreed?_eq_some_iff.mp agreed
  exact Binary64.nearestReal_of_scaled same here.1 here.2

theorem isNaN_rounded (e : Enclosure) : e.rounded.isNaN = false := Binary64.isNaN_ofRank _ _

end Enclosure

section Settling

variable {enclose : Nat → Option Enclosure} {r : ℝ}

/-- Bounds round alike at one of so many precisions, each of them twice the one before. -/
def DecidedWithin (enclose : Nat → Option Enclosure) (doublings precision : Nat) : Prop :=
  ∃ times ≤ doublings, ((enclose (2 ^ times * precision)).bind Enclosure.agreed?).isSome

/-- At one of the precisions that settling goes through the bounds round alike. -/
def Decided (enclose : Nat → Option Enclosure) : Prop := DecidedWithin enclose mostDoublings firstPrecision

/-- Settling ends with bounds that round alike, or without any the last lower one is rounded. -/
theorem settleWithin_cases (enclose : Nat → Option Enclosure) (doublings precision : Nat) :
    (∃ digits e, enclose digits = some e ∧ e.agreed? = some (settleWithin enclose doublings precision)) ∨
      ¬ DecidedWithin enclose doublings precision ∧ settleWithin enclose doublings precision =
        (enclose (2 ^ doublings * precision)).elim .nan Enclosure.rounded := by
  induction doublings generalizing precision with
  | zero =>
    rw [settleWithin, pow_zero, one_mul]
    cases agreed : (enclose precision).bind Enclosure.agreed? with
    | some v =>
      obtain ⟨e, known, same⟩ := Option.bind_eq_some_iff.mp agreed
      refine Or.inl ⟨precision, e, known, ?_⟩
      rw [known, Option.elim_some, (Enclosure.agreed?_eq_some_iff.mp same).2]
      exact same
    | none =>
      refine Or.inr ⟨?_, rfl⟩
      rintro ⟨times, most, decided⟩
      rw [Nat.le_zero.mp most, pow_zero, one_mul, agreed] at decided
      cases decided
  | succ doublings ih =>
    rw [settleWithin]
    cases agreed : (enclose precision).bind Enclosure.agreed? with
    | some v =>
      obtain ⟨e, known, same⟩ := Option.bind_eq_some_iff.mp agreed
      exact Or.inl ⟨precision, e, known, same⟩
    | none =>
      have order : 2 ^ (doublings + 1) * precision = 2 ^ doublings * (2 * precision) := by rw [pow_succ, mul_assoc]
      rw [order]
      refine (ih (2 * precision)).imp_right fun ⟨undecided, last⟩ => ⟨?_, last⟩
      rintro ⟨times, most, decided⟩
      cases times with
      | zero =>
        rw [pow_zero, one_mul, agreed] at decided
        cases decided
      | succ times =>
        refine undecided ⟨times, Nat.le_of_succ_le_succ most, ?_⟩
        rwa [← mul_assoc, ← pow_succ]

theorem settle_nearest (holds : ∀ precision e, enclose precision = some e → e.Holds r) (decided : Decided enclose) :
    NearestReal r (settle enclose) := by
  rw [settle]
  rcases settleWithin_cases enclose mostDoublings firstPrecision with ⟨digits, e, known, agreed⟩ | ⟨undecided, -⟩
  · exact (holds digits e known).nearest agreed
  · exact absurd decided undecided

/-- As long as the last precision gives bounds there is a result. -/
theorem isNaN_settle (known : (enclose (2 ^ mostDoublings * firstPrecision)).isSome) :
    (settle enclose).isNaN = false := by
  obtain ⟨e, last⟩ := Option.isSome_iff_exists.mp known
  rw [settle]
  rcases settleWithin_cases enclose mostDoublings firstPrecision with ⟨-, e, -, agreed⟩ | ⟨-, result⟩
  · rw [← (Enclosure.agreed?_eq_some_iff.mp agreed).2]
    exact e.isNaN_rounded
  · rw [result, last, Option.elim_some]
    exact e.isNaN_rounded

end Settling

section Fixed

variable {bounds : Nat → Bracket} {r : ℝ} (holds : ∀ precision, (bounds precision).Holds precision r)
include holds

theorem settleFixed_nearest (decided : Decided fun precision => some (.fixed precision (bounds precision))) :
    NearestReal r (settleFixed bounds) := by
  rw [settleFixed]
  refine settle_nearest (fun precision e known => ?_) decided
  cases known
  exact Enclosure.holds_fixed (holds precision)

end Fixed

theorem isNaN_settleFixed (bounds : Nat → Bracket) : (settleFixed bounds).isNaN = false := isNaN_settle rfl

/-- The bounds that a finite double begins with. -/
theorem holds_realValue (precision : Nat) (negative : Bool) (m : Magnitude) :
    (Bracket.ofRatio precision (Binary64.signedQuanta negative m) quantaPerUnit).Holds precision
      (Binary64.realValue negative m) := by
  have ratio := Bracket.holds_ofRatio precision (Binary64.signedQuanta negative m) quantaPerUnit_pos
  rwa [div_quantaPerUnit] at ratio

theorem holds_value (precision : Nat) (m : Magnitude) :
    (Bracket.ofRatio precision m.quanta quantaPerUnit).Holds precision m.value := by
  rw [← Binary64.realValue_false]
  exact holds_realValue precision false m

end Reckoner

import Reckoner.Elementary.Rounded
import Reckoner.Proofs.Ranks

namespace Reckoner

namespace Binary64

variable {x : Binary64}

/-- What lies below zero is a negative number, of finite size or not. -/
theorem negative_of_lt_zero (less : x.lt (zero false) = true) :
    x = .infinity true ∨ ∃ m : Magnitude, m.rank ≠ 0 ∧ x = .finite true m := by
  match x with
  | .nan => cases less
  | .infinity true => exact Or.inl rfl
  | .infinity false => cases less
  | .finite true m =>
    have below : -(m.rank : Int) < 0 := of_decide_eq_true less
    exact Or.inr ⟨m, by omega, rfl⟩
  | .finite false m =>
    have below : (m.rank : Int) < 0 := of_decide_eq_true less
    omega

/-- What is larger than one in size has more quanta than the unit, or is infinite. -/
theorem large_of_one_lt_abs (large : (ofBits 0x3ff0000000000000).lt x.abs = true) :
    (∃ negative, x = .infinity negative) ∨
      ∃ (negative : Bool) (m : Magnitude), quantaPerUnit < m.quanta ∧ x = .finite negative m := by
  match x with
  | .nan => cases large
  | .infinity negative => exact Or.inl ⟨negative, rfl⟩
  | .finite negative m =>
    have beyond : (0x3ff0000000000000 : Int) < m.rank := of_decide_eq_true large
    have higher : quantaAt 0x3ff0000000000000 < quantaAt m.rank := quantaAt_strictMono (by omega)
    rw [quantaAt_one] at higher
    exact Or.inr ⟨negative, m, higher, rfl⟩

/-- Below zero there is no logarithm. -/
theorem ln_of_lt_zero (less : x.lt (zero false) = true) : ln x = nan := by
  rcases negative_of_lt_zero less with rfl | ⟨m, nonzero, rfl⟩
  · rfl
  · simp [ln, nonzero]

theorem log10_of_lt_zero (less : x.lt (zero false) = true) : log10 x = nan := by
  rcases negative_of_lt_zero less with rfl | ⟨m, nonzero, rfl⟩
  · rfl
  · simp [log10, nonzero]

/-- Beyond one there is no angle. -/
theorem asin_of_one_lt_abs (large : (ofBits 0x3ff0000000000000).lt x.abs = true) : asin x = nan := by
  rcases large_of_one_lt_abs large with ⟨negative, rfl⟩ | ⟨negative, m, beyond, rfl⟩
  · rfl
  · simp [asin, beyond]

theorem acos_of_one_lt_abs (large : (ofBits 0x3ff0000000000000).lt x.abs = true) : acos x = nan := by
  rcases large_of_one_lt_abs large with ⟨negative, rfl⟩ | ⟨negative, m, beyond, rfl⟩
  · rfl
  · simp [acos, beyond]

end Binary64

instance roundedFunctions_lawful : ElementaryFunctions.Lawful where
  sin_nan := rfl
  cos_nan := rfl
  tan_nan := rfl
  asin_nan := rfl
  acos_nan := rfl
  atan_nan := rfl
  ln_nan := rfl
  log10_nan := rfl
  exp_nan := rfl
  ln_of_lt_zero := Binary64.ln_of_lt_zero
  log10_of_lt_zero := Binary64.log10_of_lt_zero
  asin_of_one_lt_abs := Binary64.asin_of_one_lt_abs
  acos_of_one_lt_abs := Binary64.acos_of_one_lt_abs

end Reckoner

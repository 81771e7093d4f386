import Reckoner.Proofs.DecimalRounding
import Reckoner.Proofs.Figures
import Reckoner.Proofs.Numeral

namespace Reckoner

namespace Decimal

variable (d : Decimal)

theorem digits_ne_nil : d.digits ≠ [] := Nat.toDigits_ne_nil

theorem ofDigitChars_digits : Nat.ofDigitChars 10 d.digits 0 = d.coefficient := Nat.ofDigitChars_ten_toDigits

theorem split_ne_nil : d.split.1 ≠ [] := by
  have some_digit := d.digits_ne_nil
  rcases d.layout_cases with whole | ⟨places, scaled, positive, inside | outside⟩
  · rw [split_of_nonneg whole]
    exact fun empty => some_digit (List.append_eq_nil_iff.mp empty).1
  · rw [split_of_lt scaled inside positive]
    intro empty
    rcases List.take_eq_nil_iff.mp empty with none | bare
    · omega
    · exact some_digit bare
  · rw [split_of_le scaled outside positive]
    exact List.cons_ne_nil _ _

/-- The digits in their places are the digits of the number, scaled down by those behind the point. -/
theorem value_split :
    (Nat.ofDigitChars 10 (d.split.1 ++ d.split.2) 0 : ℚ) * 10 ^ (-(d.split.2.length : Int)) = d.value := by
  rcases d.layout_cases with whole | ⟨places, scaled, positive, inside | outside⟩
  · obtain ⟨zeros, exponent⟩ := Int.eq_ofNat_of_zero_le whole
    rw [split_of_nonneg whole, exponent, List.append_nil, Nat.ofDigitChars_append, ofDigitChars_digits,
      Int.toNat_natCast, Nat.ofDigitChars_replicate_zero, value, exponent]
    simp only [Nat.cast_mul, Nat.cast_pow, Nat.cast_ofNat, List.length_nil, Nat.cast_zero, neg_zero, zpow_zero, mul_one,
      zpow_natCast]
    exact mul_comm _ _
  · have length : (d.digits.drop (d.digits.length - places)).length = places := by
      rw [List.length_drop]
      omega
    rw [split_of_lt scaled inside positive, List.take_append_drop, ofDigitChars_digits, length, value, scaled]
  · have length : (List.replicate (places - d.digits.length) '0' ++ d.digits).length = places := by
      rw [List.length_append, List.length_replicate]
      omega
    have zeros : Nat.ofDigitChars 10 (['0'] ++ (List.replicate (places - d.digits.length) '0' ++ d.digits)) 0 =
        d.coefficient := by
      rw [Nat.ofDigitChars_append, Nat.ofDigitChars_append, Nat.ofDigitChars_replicate_zero]
      exact d.ofDigitChars_digits
    rw [split_of_le scaled outside positive, zeros, length, value, scaled]

/-- A decimal as a numeral with all digits in their places. -/
def positional : Numeral where
  whole := d.split.1
  fraction := if d.split.2.isEmpty then none else some d.split.2
  whole_digits _ member := isDigit_of_mem_split (Or.inl member)
  fraction_digits c member := by
    split at member
    · cases member
    · exact isDigit_of_mem_split (Or.inr member)
  has_digit empty := absurd empty d.split_ne_nil

theorem positional_fraction : d.positional.fraction.getD [] = d.split.2 := by
  simp only [positional]
  split
  · rename_i empty
    exact (List.isEmpty_iff.mp empty).symm
  · rfl

theorem positional_text : d.positional.text = positionalText d := by
  simp only [Numeral.text, Numeral.behind, positional, positionalText]
  by_cases whole : d.split.2.isEmpty = true
  · rw [if_pos whole, if_pos whole]
    exact List.append_nil _
  · rw [if_neg whole, if_neg whole]

theorem positional_value : d.positional.decimal.value = d.value := by
  rw [← d.value_split, value, Numeral.decimal, positional_fraction]
  rfl

/-- What stands in front of the exponent of a decimal: its first digit, and the others behind a point. -/
def mantissa (droppedZeros : Bool) : Numeral where
  whole := d.digits.take 1
  fraction := if d.digits.length = 1 ∧ droppedZeros = false then none else some (d.digits.drop 1)
  whole_digits _ member := isDigit_of_mem_digits (List.mem_of_mem_take member)
  fraction_digits c member := by
    split at member
    · cases member
    · exact isDigit_of_mem_digits (List.mem_of_mem_drop member)
  has_digit empty := absurd empty (by simp [d.digits_ne_nil])

theorem scientificText_eq (droppedZeros : Bool) :
    scientificText droppedZeros d = (d.mantissa droppedZeros).text ++ exponentText d.leading := by
  simp only [scientificText, Numeral.text, Numeral.behind, mantissa]
  split
  · rename_i digit single
    cases droppedZeros <;> simp [single]
  · rename_i digit more several_digits several
    have some_more : more ≠ [] := fun none => several_digits (by rw [none])
    simp [several, some_more]
  · rename_i empty
    exact absurd empty d.digits_ne_nil

end Decimal

end Reckoner

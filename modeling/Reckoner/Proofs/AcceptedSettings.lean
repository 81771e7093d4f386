import Reckoner.Proofs.OneLine

namespace Reckoner

theorem digitsIn_int {digits : Nat} (countable : digits ≤ 0x7fffffff) : digitsIn (.int digits) = .ok digits := by
  have shown : (Value.int digits).shown.toList = Nat.toDigits 10 digits := by
    have whole : (Value.int digits).shown = toString digits := rfl
    rw [whole, Nat.toString_eq_ofList_toDigits, String.toList_ofList]
  have figures : (Nat.toDigits 10 digits).takeWhile Char.isDigit = Nat.toDigits 10 digits :=
    List.takeWhile_eq_self_iff.mpr fun _ => isDigit_of_mem_toDigits
  have some_digit : (Nat.toDigits 10 digits).isEmpty = false := by
    rw [List.isEmpty_eq_false_iff]
    exact Nat.toDigits_ne_nil
  have length : (Value.int digits).shown.length = (Nat.toDigits 10 digits).length := by
    rw [← shown, String.length_toList]
  rw [digitsIn, digitsInText]
  simp only [shown, figures, some_digit, length, Nat.ofDigitChars_ten_toDigits, Nat.lt_irrefl, if_false,
    Bool.false_eq_true, countableDigits]
  rw [if_neg (by omega), if_neg (by omega)]

namespace Settings

variable {settings : Settings}

/-- What settings that agree with each other have in common. -/
structure Agree (settings : Settings) : Prop where
  precision : checkPrecision settings.precision = .ok ()
  lower : (Binary64.zero false).lt settings.sciLower = true
  upper : settings.sciLower.lt settings.sciUpper = true
  expressionColumn : settings.expressionColumn ≠ settings.resultColumn ∧
    settings.expressionColumn ≠ settings.errorColumn
  resultColumn : settings.resultColumn ≠ settings.errorColumn

theorem Agree.places {digits : Int} (agree : settings.Agree) (whole : settings.precision = .int digits) :
    ∃ places : Nat, digits = places ∧ 1 ≤ places ∧ places ≤ 17 := by
  have accepted := agree.precision
  simp only [whole, checkPrecision] at accepted
  split at accepted
  · rename_i inRange
    simp only [Bool.and_eq_true, decide_eq_true_eq] at inRange
    exact ⟨digits.toNat, by omega, by omega, by omega⟩
  · cases accepted

theorem exists_layOut {digits : Nat} (positive : digits ≠ 0) (x : Binary64) :
    ∃ text, settings.layOut digits x = .ok text := by
  unfold layOut
  rw [if_neg positive, if_neg positive]
  cases x <;> split <;> exact ⟨_, rfl⟩

theorem display_of_int {digits : Nat} {asked : Option Int} (chosen : settings.digitsFor asked = .int digits)
    (countable : digits ≤ 0x7fffffff) (x : Binary64) :
    settings.display asked x = if x.isZero then .ok "0" else settings.layOut digits x := by
  simp only [display, chosen, digitsIn_int countable]

/-- With a whole number of digits settings that agree show every double. -/
theorem Agree.exists_display {digits : Int} (agree : settings.Agree) (whole : settings.precision = .int digits)
    (x : Binary64) : ∃ text, settings.display none x = .ok text ∧ OneLine text := by
  obtain ⟨places, rfl, low, high⟩ := agree.places whole
  have shown : ∃ text, settings.display none x = .ok text := by
    have chosen : settings.digitsFor none = .int places := whole
    rw [display_of_int chosen (by omega)]
    split
    · exact ⟨_, rfl⟩
    · exact exists_layOut (by omega) x
  obtain ⟨text, shown⟩ := shown
  exact ⟨text, shown, oneLine_display shown⟩

end Settings

end Reckoner

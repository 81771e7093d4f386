import Reckoner.Proofs.NumberReading
import Reckoner.Proofs.ShortestDecimal
import Reckoner.Proofs.TypedBack

namespace Reckoner

/-- The number in the display of a magnitude. -/
def Magnitude.shownNumber (m : Magnitude) (digits : Nat) : ℚ := if m.rank = 0 then 0 else (m.significant digits).value

namespace Settings

variable {settings : Settings} {digits : Nat} {negative : Bool} {m : Magnitude}

/-- The text in the display of a magnitude, before its sign. -/
def unsignedText (settings : Settings) (digits : Nat) (m : Magnitude) : List Char :=
  if settings.isScientific (.finite false m) digits = true then
    scientificText (m.endsInZeros digits) (m.significant digits)
  else positionalText (m.significant digits)

theorem display_eq (some_digit : 1 ≤ digits) (few : digits ≤ 17) (some_rank : m.rank ≠ 0) :
    settings.display (some digits) (.finite negative m) = .ok (signedText negative (settings.unsignedText digits m)) :=
  display_finite some_digit few some_rank

theorem readUnsigned?_unsignedText : readUnsigned? (settings.unsignedText digits m) = some (m.significant digits).value := by
  unfold unsignedText
  split
  · exact Decimal.readUnsigned?_scientificText _ _
  · exact Decimal.readUnsigned?_positionalText _

/-- Every finite double has a display, which is read as a number. -/
theorem exists_display (settings : Settings) (some_digit : 1 ≤ digits) (few : digits ≤ 17) (negative : Bool)
    (m : Magnitude) : ∃ shown, settings.display (some digits) (.finite negative m) = .ok shown ∧
      readNumber? shown = some (signed negative (m.shownNumber digits)) := by
  by_cases zero : m.rank = 0
  · refine ⟨"0", display_zero some_digit few zero, ?_⟩
    have read := readNumber?_signedText false (Decimal.readUnsigned?_positionalText ⟨0, 0⟩)
    have none : (⟨0, 0⟩ : Decimal).value = 0 := by simp [Decimal.value]
    rw [none, signed_zero] at read
    rw [Magnitude.shownNumber, if_pos zero, signed_zero]
    exact read
  · refine ⟨_, display_eq some_digit few zero, ?_⟩
    rw [Magnitude.shownNumber, if_neg zero]
    exact readNumber?_signedText negative readUnsigned?_unsignedText

end Settings

/-- A display is read as the shortest decimal that is read as the value displayed when there are digits enough for it,
and otherwise as the value rounded to the digits there are. Thresholds choose the layout and nothing else, and the sign
stands in front of what is displayed without it. -/
theorem display_denotes (settings : Settings) {digits : Nat} (some_digit : 1 ≤ digits) (few : digits ≤ 17)
    (negative : Bool) {m : Magnitude} (some_rank : m.rank ≠ 0) :
    ∃ shown plain number, settings.display (some digits) (.finite negative m) = .ok shown ∧
      readNumber? shown = some (signed negative number) ∧ (∀ x, IsShown m digits x ↔ x = number) ∧
      settings.display (some digits) (.finite false m) = .ok plain ∧
      settings.display (some digits) (.finite true m) = .ok ("-" ++ plain) := by
  have isShown := Magnitude.isShown_significant some_rank some_digit
  refine ⟨_, _, (m.significant digits).value, Settings.display_eq some_digit few some_rank,
    readNumber?_signedText negative Settings.readUnsigned?_unsignedText, fun x => ⟨fun isShownToo => ?_, ?_⟩,
    Settings.display_eq some_digit few some_rank, ?_⟩
  · exact isShownToo.unique isShown
  · rintro rfl
    exact isShown
  · rw [Settings.display_eq some_digit few some_rank, signedText_true, signedText_false, String.ofList_cons]
    rfl

/-- An eighth lies halfway between two numbers of two digits, and the one with the even digit is shown. -/
theorem display_denotes_eighth :
    1 ≤ 2 ∧ 2 ≤ 17 ∧ (⟨0x3fc0000000000000, by decide⟩ : Magnitude).rank ≠ 0 ∧
      ({} : Settings).display (some 2) (.finite true ⟨0x3fc0000000000000, by decide⟩) = .ok "-0.12" ∧
      IsShown ⟨0x3fc0000000000000, by decide⟩ 2 (12 / 100) := by
  have some_rank : (⟨0x3fc0000000000000, by decide⟩ : Magnitude).rank ≠ 0 := by decide
  have eighth : ({} : Settings).display (some 2) (.finite true ⟨0x3fc0000000000000, by decide⟩) = .ok "-0.12" := by
    decide +kernel
  have decimal : readNumber? "-0.12" = some (-(12 / 100)) := by decide +kernel
  obtain ⟨shown, plain, number, displayed, read, isShown, -⟩ :=
    display_denotes {} (show 1 ≤ 2 by decide) (by decide) true some_rank
  obtain rfl : "-0.12" = shown := Except.ok.inj (eighth.symm.trans displayed)
  have same : 12 / 100 = number := neg_injective (Option.some.inj (decimal.symm.trans read))
  exact ⟨by decide, by decide, some_rank, eighth, (isShown _).mpr same⟩

end Reckoner

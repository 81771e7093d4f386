import Reckoner.Display

namespace Reckoner

/-- The characters that numbers are shown with. -/
def isFigure (c : Char) : Bool := c.isDigit || c == '.' || c == '-' || c == '+' || c == 'e'

variable {c : Char}

theorem isFigure_of_isDigit (digit : c.isDigit = true) : isFigure c = true := by simp [isFigure, digit]

theorem isDigit_of_mem_toDigits {n : Nat} (member : c ∈ Nat.toDigits 10 n) : c.isDigit = true :=
  Nat.isDigit_of_mem_toDigits (by decide) (by decide) member

theorem isDigit_of_mem_zeros {n : Nat} (member : c ∈ List.replicate n '0') : c.isDigit = true := by
  rw [List.eq_of_mem_replicate member]
  rfl

namespace Decimal

variable {d : Decimal}

theorem isDigit_of_mem_digits (member : c ∈ d.digits) : c.isDigit = true := isDigit_of_mem_toDigits member

theorem split_of_nonneg (whole : 0 ≤ d.exponent) :
    d.split = (d.digits ++ List.replicate d.exponent.toNat '0', []) := if_pos whole

theorem split_of_lt {places : Nat} (scaled : d.exponent = -places) (inside : places < d.digits.length)
    (positive : 0 < places) :
    d.split = (d.digits.take (d.digits.length - places), d.digits.drop (d.digits.length - places)) := by
  have below : ¬0 ≤ d.exponent := by omega
  have same : (-d.exponent).toNat = places := by omega
  simp only [split, if_neg below, same, if_pos inside, List.splitAt_eq]

theorem split_of_le {places : Nat} (scaled : d.exponent = -places) (outside : d.digits.length ≤ places)
    (positive : 0 < places) :
    d.split = (['0'], List.replicate (places - d.digits.length) '0' ++ d.digits) := by
  have below : ¬0 ≤ d.exponent := by omega
  have same : (-d.exponent).toNat = places := by omega
  simp only [split, if_neg below, same, if_neg (Nat.not_lt.mpr outside)]

/-- The number is whole, or its point falls among its digits, or in front of them. -/
theorem layout_cases (d : Decimal) : 0 ≤ d.exponent ∨
    ∃ places : Nat, d.exponent = -places ∧ 0 < places ∧ (places < d.digits.length ∨ d.digits.length ≤ places) := by
  by_cases whole : 0 ≤ d.exponent
  · exact Or.inl whole
  · exact Or.inr ⟨(-d.exponent).toNat, by omega, by omega, by omega⟩

theorem isDigit_of_mem_split (member : c ∈ d.split.1 ∨ c ∈ d.split.2) : c.isDigit = true := by
  rcases d.layout_cases with whole | ⟨places, scaled, positive, inside | outside⟩
  · rw [split_of_nonneg whole] at member
    rcases member with whole | fraction
    · rcases List.mem_append.mp whole with digit | zero
      · exact isDigit_of_mem_digits digit
      · exact isDigit_of_mem_zeros zero
    · cases fraction
  · rw [split_of_lt scaled inside positive] at member
    rcases member with whole | fraction
    · exact isDigit_of_mem_digits (List.mem_of_mem_take whole)
    · exact isDigit_of_mem_digits (List.mem_of_mem_drop fraction)
  · rw [split_of_le scaled outside positive] at member
    rcases member with whole | fraction
    · rw [List.mem_singleton.mp whole]
      rfl
    · rcases List.mem_append.mp fraction with zero | digit
      · exact isDigit_of_mem_zeros zero
      · exact isDigit_of_mem_digits digit

end Decimal

theorem cases_of_mem_exponentText {exponent : Int} (member : c ∈ exponentText exponent) :
    c = 'e' ∨ c = '-' ∨ c = '+' ∨ c.isDigit = true := by
  unfold exponentText at member
  simp only [List.mem_cons] at member
  rcases member with mark | sign | later
  · exact Or.inl mark
  · split at sign
    · exact Or.inr (Or.inl sign)
    · exact Or.inr (Or.inr (Or.inl sign))
  · refine Or.inr (Or.inr (Or.inr ?_))
    split at later
    · rcases List.mem_cons.mp later with rfl | digit
      · rfl
      · exact isDigit_of_mem_toDigits digit
    · exact isDigit_of_mem_toDigits later

theorem isFigure_of_mem_exponentText {exponent : Int} (member : c ∈ exponentText exponent) : isFigure c = true := by
  rcases cases_of_mem_exponentText member with rfl | rfl | rfl | digit
  · rfl
  · rfl
  · rfl
  · exact isFigure_of_isDigit digit

theorem cases_of_mem_positionalText {d : Decimal} (member : c ∈ positionalText d) : c = '.' ∨ c.isDigit = true := by
  simp only [positionalText] at member
  split at member
  · exact Or.inr (Decimal.isDigit_of_mem_split (Or.inl member))
  · rcases List.mem_append.mp member with whole | behindIt
    · exact Or.inr (Decimal.isDigit_of_mem_split (Or.inl whole))
    · rcases List.mem_cons.mp behindIt with point | fraction
      · exact Or.inl point
      · exact Or.inr (Decimal.isDigit_of_mem_split (Or.inr fraction))

theorem isFigure_of_mem_positionalText {d : Decimal} (member : c ∈ positionalText d) : isFigure c = true := by
  rcases cases_of_mem_positionalText member with rfl | digit
  · rfl
  · exact isFigure_of_isDigit digit

theorem isFigure_of_mem_scientificText {droppedZeros : Bool} {d : Decimal}
    (member : c ∈ scientificText droppedZeros d) : isFigure c = true := by
  have digits : ∀ c ∈ d.digits, isFigure c = true :=
    fun c digit => isFigure_of_isDigit (Decimal.isDigit_of_mem_digits digit)
  unfold scientificText at member
  split at member
  · rename_i digit single
    have figure : isFigure digit = true := digits digit (by simp [single])
    rcases List.mem_append.mp member with mantissa | exponent
    · split at mantissa
      · simp only [List.mem_cons, List.not_mem_nil, or_false] at mantissa
        rcases mantissa with rfl | rfl
        · exact figure
        · rfl
      · rwa [List.mem_singleton.mp mantissa]
    · exact isFigure_of_mem_exponentText exponent
  · rename_i digit more _ several
    simp only [List.mem_cons, List.mem_append] at member
    rcases member with (rfl | rfl | later) | exponent
    · exact digits c (by simp [several])
    · rfl
    · exact digits c (by simp [several, later])
    · exact isFigure_of_mem_exponentText exponent
  · cases member

theorem isFigure_of_mem_finiteText {d : Decimal} (member : c ∈ finiteText d) : isFigure c = true := by
  have parts : ∀ c, c ∈ d.split.1 ∨ c ∈ d.split.2 → isFigure c = true :=
    fun c inside => isFigure_of_isDigit (Decimal.isDigit_of_mem_split inside)
  simp only [finiteText] at member
  split at member
  · rcases List.mem_append.mp member with whole | behindIt
    · exact parts c (Or.inl whole)
    · rcases List.mem_cons.mp behindIt with rfl | fraction
      · rfl
      · split at fraction
        · rw [List.mem_singleton.mp fraction]
          rfl
        · exact parts c (Or.inr fraction)
  · -- With an exponent the text is a scientific one in which no zeros were dropped.
    have same : c ∈ scientificText false d := by
      unfold scientificText
      split <;> simp_all
    exact isFigure_of_mem_scientificText same

@[simp]
theorem signedText_false (text : List Char) : signedText false text = String.ofList text := rfl

@[simp]
theorem signedText_true (text : List Char) : signedText true text = String.ofList ('-' :: text) := rfl

theorem isFigure_of_mem_signedText {negative : Bool} {text : List Char} (figures : ∀ c ∈ text, isFigure c = true)
    (member : c ∈ (signedText negative text).toList) : isFigure c = true := by
  rw [signedText, String.toList_ofList] at member
  split at member
  · rcases List.mem_cons.mp member with rfl | later
    · rfl
    · exact figures c later
  · exact figures c member

theorem isFigure_of_mem_text {negative : Bool} {m : Magnitude}
    (member : c ∈ (Binary64.finite negative m).text.toList) : isFigure c = true := by
  refine isFigure_of_mem_signedText (fun c number => ?_) member
  split at number
  · simp only [List.mem_cons, List.not_mem_nil, or_false] at number
    rcases number with rfl | rfl | rfl <;> rfl
  · exact isFigure_of_mem_finiteText number

end Reckoner

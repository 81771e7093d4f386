import Reckoner.Proofs.ShownNumerals

namespace Reckoner

/-- Reads digits and nothing else. -/
def readDigits? (text : List Char) : Option Nat :=
  if text.isEmpty then none
  else if text.all Char.isDigit then some (Nat.ofDigitChars 10 text 0) else none

/-- Reads what stands behind the digits of a number: nothing, or the mark of an exponent and a whole number. -/
def readExponent? : List Char → Option Int
  | [] => some 0
  | 'e' :: '+' :: digits => (readDigits? digits).map fun size => (size : Int)
  | 'e' :: '-' :: digits => (readDigits? digits).map fun size => -(size : Int)
  | 'e' :: digits => (readDigits? digits).map fun size => (size : Int)
  | _ => none

/-- Cuts off a point and the digits behind it. -/
def cutFraction : List Char → List Char × List Char
  | '.' :: later => (later.takeWhile Char.isDigit, later.dropWhile Char.isDigit)
  | rest => ([], rest)

/-- Reads digits with at most one point in front of them, among them or behind them, and an exponent if there is one. -/
def readUnsigned? (text : List Char) : Option ℚ :=
  let whole := text.takeWhile Char.isDigit
  let (fraction, rest) := cutFraction (text.dropWhile Char.isDigit)
  if whole.isEmpty && fraction.isEmpty then none
  else (readExponent? rest).map fun exponent =>
    Decimal.value ⟨Nat.ofDigitChars 10 (whole ++ fraction) 0, exponent - fraction.length⟩

/-- Reads a decimal number: a sign if there is one, digits, a point and more digits if there are any, and an exponent if
there is one. -/
def readNumber? (text : String) : Option ℚ :=
  match text.toList with
  | '-' :: digits => (readUnsigned? digits).map fun x => -x
  | digits => readUnsigned? digits

def signed (negative : Bool) (x : ℚ) : ℚ := if negative then -x else x

@[simp]
theorem signed_zero (negative : Bool) : signed negative 0 = 0 := by cases negative <;> simp [signed]

theorem readDigits?_of_digits {digits : List Char} (some_digit : digits ≠ []) (all : ∀ c ∈ digits, c.isDigit = true) :
    readDigits? digits = some (Nat.ofDigitChars 10 digits 0) := by
  rw [readDigits?, if_neg (by simpa using some_digit), if_pos (List.all_eq_true.mpr all)]

theorem readExponent?_exponentText (exponent : Int) : readExponent? (exponentText exponent) = some exponent := by
  have read (digits : List Char) (some_digit : digits ≠ []) (all : ∀ c ∈ digits, c.isDigit = true) :
      readExponent? ('e' :: (if exponent < 0 then '-' else '+') :: digits) =
        some (if exponent < 0 then -(Nat.ofDigitChars 10 digits 0 : Int) else Nat.ofDigitChars 10 digits 0) := by
    split <;> simp [readExponent?, readDigits?_of_digits some_digit all]
  have digits : ∀ c ∈ Nat.toDigits 10 exponent.natAbs, c.isDigit = true := fun c => isDigit_of_mem_toDigits
  have size : Nat.ofDigitChars 10 (Nat.toDigits 10 exponent.natAbs) 0 = exponent.natAbs :=
    Nat.ofDigitChars_ten_toDigits
  have sign : (if exponent < 0 then -(exponent.natAbs : Int) else exponent.natAbs) = exponent := by
    split <;> omega
  dsimp only [exponentText]
  by_cases short : (Nat.toDigits 10 exponent.natAbs).length < 2
  · have padded : Nat.ofDigitChars 10 ('0' :: Nat.toDigits 10 exponent.natAbs) 0 = exponent.natAbs := by
      rw [Nat.ofDigitChars_cons]
      exact size
    have all : ∀ c ∈ '0' :: Nat.toDigits 10 exponent.natAbs, c.isDigit = true :=
      List.forall_mem_cons.mpr ⟨rfl, digits⟩
    rw [if_pos short, read _ (List.cons_ne_nil _ _) all, padded, sign]
  · rw [if_neg short, read _ Nat.toDigits_ne_nil digits, size, sign]

theorem cutFraction_behind (numeral : Numeral) {rest : List Char} (ends : EndsNumeral rest) :
    cutFraction (numeral.behind ++ rest) = (numeral.fraction.getD [], rest) := by
  cases written : numeral.fraction with
  | none =>
    have noBehind : numeral.behind = [] := by rw [Numeral.behind, written]
    rw [noBehind, List.nil_append, cutFraction]
    · rfl
    · rintro later rfl
      exact (ends '.' rfl).2 rfl
  | some fraction =>
    have pointed : numeral.behind = '.' :: fraction := by rw [Numeral.behind, written]
    have digits : ∀ c ∈ fraction, c.isDigit = true := by simpa [written] using numeral.fraction_digits
    have stop : ∀ c ∈ rest.head?, c.isDigit = false := fun c first => (ends c first).1
    rw [pointed, List.cons_append, cutFraction, takeWhile_append_of_stop digits stop,
      dropWhile_append_of_stop digits stop]
    rfl

/-- A numeral is read with the exponent behind it. -/
theorem readUnsigned?_append (numeral : Numeral) {rest : List Char} (ends : EndsNumeral rest) :
    readUnsigned? (numeral.text ++ rest) =
      (readExponent? rest).map fun exponent => numeral.decimal.value * 10 ^ exponent := by
  have stop : ∀ c ∈ (numeral.behind ++ rest).head?, c.isDigit = false := by
    intro c first
    cases behind : numeral.behind with
    | nil =>
      rw [behind] at first
      exact (ends c first).1
    | cons d later =>
      rw [behind] at first
      exact numeral.behind_stops (behind ▸ first)
  have scaled (exponent : Int) : Decimal.value ⟨Nat.ofDigitChars 10 (numeral.whole ++ numeral.fraction.getD []) 0,
      exponent - (numeral.fraction.getD []).length⟩ = numeral.decimal.value * 10 ^ exponent := by
    rw [Decimal.value, Decimal.value, Numeral.decimal, mul_assoc, ← zpow_add₀ (by norm_num), neg_add_eq_sub]
  have some_digit : (numeral.whole.isEmpty && (numeral.fraction.getD []).isEmpty) = false := by
    by_cases bare : numeral.whole = []
    · simp [numeral.has_digit bare]
    · simp [bare]
  simp only [readUnsigned?, Numeral.text, List.append_assoc, takeWhile_append_of_stop numeral.whole_digits stop,
    dropWhile_append_of_stop numeral.whole_digits stop, cutFraction_behind numeral ends, some_digit, scaled,
    Bool.false_eq_true, if_false]

theorem readNumber?_signedText (negative : Bool) {text : List Char} {x : ℚ} (read : readUnsigned? text = some x) :
    readNumber? (signedText negative text) = some (signed negative x) := by
  cases negative with
  | true =>
    rw [signedText_true, readNumber?, String.toList_ofList]
    simp only [read]
    rfl
  | false =>
    rw [signedText_false, readNumber?, String.toList_ofList]
    split
    · -- A sign is no digit, so nothing would have been read.
      rename_i digits
      have unread : readUnsigned? ('-' :: digits) = none := rfl
      rw [unread] at read
      cases read
    · exact read

example : readNumber? "-12.5e-03" = some (-(125 / 10000)) := by decide +kernel

namespace Decimal

variable (d : Decimal)

theorem readUnsigned?_positionalText : readUnsigned? (positionalText d) = some d.value := by
  have read := readUnsigned?_append d.positional (show EndsNumeral [] from nofun)
  rw [List.append_nil, positional_text, positional_value] at read
  rw [read, readExponent?, Option.map_some, zpow_zero, mul_one]

theorem mantissa_fraction (droppedZeros : Bool) : (d.mantissa droppedZeros).fraction.getD [] = d.digits.drop 1 := by
  simp only [mantissa]
  split
  · rename_i single
    rw [Option.getD_none, List.drop_of_length_le single.1.le]
  · rfl

/-- The mantissa and the exponent of the leading digit give the number again. -/
theorem mantissa_value (droppedZeros : Bool) : (d.mantissa droppedZeros).decimal.value * 10 ^ d.leading = d.value := by
  have some_digit : 0 < d.digits.length := List.length_pos_iff.mpr d.digits_ne_nil
  have digits : (d.mantissa droppedZeros).whole ++ d.digits.drop 1 = d.digits := List.take_append_drop 1 d.digits
  have exponent : -((d.digits.drop 1).length : Int) + d.leading = d.exponent := by
    rw [List.length_drop, leading]
    omega
  rw [value, Numeral.decimal, mantissa_fraction, digits, ofDigitChars_digits, mul_assoc, ← zpow_add₀ (by norm_num),
    exponent, value]

theorem readUnsigned?_scientificText (droppedZeros : Bool) :
    readUnsigned? (scientificText droppedZeros d) = some d.value := by
  have mark : EndsNumeral (exponentText d.leading) := by
    rintro c ⟨⟩
    decide
  rw [scientificText_eq, readUnsigned?_append _ mark, readExponent?_exponentText, Option.map_some, mantissa_value]

end Decimal

end Reckoner

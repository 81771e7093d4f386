import Reckoner.Proofs.BitPatterns
import Reckoner.Proofs.DecimalRounding
import Reckoner.Proofs.Pieces

namespace Reckoner

/-- The value of digits behind a point, each of them worth a tenth of what it would be one place earlier. -/
def fractionValue : List Char → ℚ
  | [] => 0
  | c :: digits => ((c.toNat - '0'.toNat : Nat) + fractionValue digits) / 10

/-- Digits that go on with a number, scaled down until the number is whole again, are a fraction behind it. -/
theorem ofDigitChars_scaled (digits : List Char) (n : Nat) :
    (Nat.ofDigitChars 10 digits n : ℚ) * 10 ^ (-(digits.length : Int)) = n + fractionValue digits := by
  induction digits generalizing n with
  | nil => simp [fractionValue]
  | cons c digits ih =>
    have length : (-((c :: digits).length : Int)) = -(digits.length : Int) - 1 := by
      rw [List.length_cons]
      omega
    rw [Nat.ofDigitChars_cons, length, zpow_sub_one₀ (by norm_num), ← mul_assoc, ih, fractionValue]
    push_cast
    ring

namespace Numeral

/-- The exact number that a numeral is written for. -/
def exact (numeral : Numeral) : ℚ :=
  Nat.ofDigitChars 10 numeral.whole 0 + fractionValue (numeral.fraction.getD [])

theorem value_decimal (numeral : Numeral) : numeral.decimal.value = numeral.exact := by
  rw [Decimal.value, decimal, Nat.ofDigitChars_append, ofDigitChars_scaled, exact]

theorem exact_eq_numeralValue (numeral : Numeral) : numeral.exact = (numeralValue numeral.text).value := by
  rw [numeralValue_text, value_decimal]

theorem nearestDouble (numeral : Numeral) : NearestDouble numeral.exact numeral.value := by
  rw [← value_decimal]
  exact numeral.decimal.nearestDouble

theorem exact_nonneg (numeral : Numeral) : 0 ≤ numeral.exact := by
  rw [← value_decimal]
  exact numeral.decimal.value_nonneg

end Numeral

/-- A number in a text is the longest numeral from its place on. -/
theorem exists_numeral_of_mem_scan {source : String} {token : Token} {value : Binary64} (member : token ∈ scan source)
    (isNumber : token.kind = .number value) : ∃ (place : Nat) (numeral : Numeral), token.position = place ∧
      Longest IsNumeral numeral.text (source.toList.drop place) ∧ numeral.value = value := by
  obtain ⟨pieces, cut, scanned⟩ := exists_cut_scan source
  rw [scanned] at member
  obtain ⟨piece, here, rfl⟩ := List.mem_map.mp member
  have leads := cut.leads piece here
  obtain ⟨place, lexeme, kind⟩ := piece
  obtain rfl : kind = .number value := isNumber
  rw [Nat.sub_zero] at leads
  cases leads with
  | number numeral longest => exact ⟨place, numeral, rfl, longest, rfl⟩
  | symbol _ _ _ entry => simp [symbolKinds] at entry

/-- However many digits a number in a text has, its pattern is the only one nearest to the exact number, and it is that
of infinity from half a spacing above the largest finite value on. -/
theorem scanned_number_nearest {source : String} {token : Token} {value : Binary64} (member : token ∈ scan source)
    (isNumber : token.kind = .number value) : ∃ (place : Nat) (numeral : Numeral), token.position = place ∧
      Longest IsNumeral numeral.text (source.toList.drop place) ∧
      (∀ bits, NearestPattern numeral.exact bits ↔ bits = value.toBits) ∧
      (value.toBits = 0x7ff0000000000000 ↔ 2 ^ 1024 - 2 ^ 970 ≤ numeral.exact) := by
  obtain ⟨place, numeral, position, longest, rfl⟩ := exists_numeral_of_mem_scan member isNumber
  have nearest (bits : UInt64) : NearestPattern numeral.exact bits ↔ bits = numeral.value.toBits :=
    nearestPattern_iff numeral.exact_nonneg numeral.nearestDouble
  exact ⟨place, numeral, position, longest, nearest, ((nearest _).mpr rfl).eq_infinity_iff⟩

/-- `2 ^ 53 + 1` lies halfway between two doubles, and the lower one is even. -/
theorem scanned_number_nearest_tie :
    ⟨.number (.ofBits 0x4340000000000000), 2⟩ ∈ scan "ln9007199254740993." ∧
      ∀ bits, NearestPattern 9007199254740993 bits ↔ bits = 0x4340000000000000 := by
  have member : ⟨.number (.ofBits 0x4340000000000000), 2⟩ ∈ scan "ln9007199254740993." := by decide +kernel
  obtain ⟨place, numeral, position, longest, nearest, -⟩ := scanned_number_nearest member rfl
  have atTwo : place = 2 := (Int.ofNat_inj.mp position).symm
  have digits : ∀ c ∈ "9007199254740993".toList, c.isDigit = true := List.all_eq_true.mp (by decide +kernel)
  let whole : Numeral := ⟨"9007199254740993".toList, some [], digits, by simp, by decide +kernel⟩
  have text : numeral.text = "9007199254740993.".toList := by
    rw [atTwo] at longest
    exact longest.beginning.eq_of_length_le (longest.longest _ List.prefix_rfl ⟨whole, rfl⟩)
  have exact : numeral.exact = 9007199254740993 := by
    have decimal : numeralValue "9007199254740993.".toList = ⟨9007199254740993, 0⟩ := by decide +kernel
    rw [numeral.exact_eq_numeralValue, text, decimal, Decimal.value]
    norm_num
  rw [exact] at nearest
  exact ⟨member, nearest⟩

end Reckoner

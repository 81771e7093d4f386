import Reckoner.Elementary.Rounded
import Reckoner.Proofs.AcceptedSettings
import Reckoner.Proofs.ShownNumerals
import Reckoner.Proofs.TextFailures

namespace Reckoner

/-- In front of what does not go on with it a numeral is the first token. -/
theorem scanFrom_numeral (numeral : Numeral) {rest : List Char} (ends : EndsNumeral rest) (position : Nat) :
    scanFrom position [] (numeral.text ++ rest) =
      ⟨.number numeral.value, position⟩ :: scanFrom (position + numeral.text.length) [] rest := by
  have meaning : TokenKind.ofLexeme? numeral.text = some (.number numeral.value) := Numeral.ofLexeme_text
  obtain ⟨c, tail, split⟩ := List.exists_cons_of_ne_nil numeral.text_ne_nil
  rw [split] at meaning
  rw [split, List.cons_append, scanFrom_cons, firstToken?, Numeral.lexemeExtent_text split ends, List.take_left,
    List.drop_left, meaning]
  rfl

/-- A numeral alone is an expression under any rules, and its value is its own. -/
theorem evaluate_numeral [ElementaryFunctions] (strict : Bool) {numeral : Numeral}
    (finite : numeral.value.isFinite = true) : evaluate strict (.text (String.ofList numeral.text)) = .ok numeral.value := by
  have scanned : scan (String.ofList numeral.text) = [⟨.number numeral.value, 0⟩] := by
    have whole := scanFrom_numeral numeral (show EndsNumeral [] from nofun) 0
    rw [List.append_nil, scanFrom] at whole
    rw [scan_eq, String.toList_ofList]
    exact whole
  have converted : convert strict (scan (String.ofList numeral.text)) = .ok [.operand numeral.value] := by
    rw [scanned]
    cases strict <;> rfl
  have ran : Program.run [.operand numeral.value] = .ok numeral.value := if_pos finite
  rw [evaluate_of_convert rfl converted, ran]
  rfl

/-- Strict rules have no sign in front of a number. -/
theorem evaluate_negative [ElementaryFunctions] (text : List Char) : evaluate true (.text (signedText true text)) =
    .error (.conversion (.refused (.operatorWithoutOperand "-") 0)) := by
  have scanned : scan (signedText true text) = [] ++ ⟨.operator "-", 0⟩ :: scanFrom 1 [] text := by
    rw [scan_eq, signedText_true, String.toList_ofList, scanFrom_cons]
    rfl
  have refused : convert true (scan (signedText true text)) = .error (.refused (.operatorWithoutOperand "-") 0) := by
    rw [scanned]
    exact refused_of_agrees (.operator rfl) rfl
  exact evaluate_of_convert_error rfl refused

/-- Strict rules have no exponent behind a number: its mark is read as a name that nothing has. -/
theorem evaluate_exponent [ElementaryFunctions] (numeral : Numeral) (exponent : Int) :
    evaluate true (.text (signedText false (numeral.text ++ exponentText exponent))) =
      .error (.conversion (.refused (.unknownName "e") numeral.text.length)) := by
  obtain ⟨signed, split, noLetter⟩ : ∃ signed, exponentText exponent = 'e' :: signed ∧ EndsWord signed := by
    refine ⟨_, rfl, ?_⟩
    rintro c ⟨⟩
    split <;> decide
  have mark : EndsNumeral ('e' :: signed) := by
    rintro c ⟨⟩
    decide
  have extent : lexemeExtent 'e' signed = 0 := by
    have letter : ∀ c ∈ ['e'], isNameChar c = true := List.all_eq_true.mp rfl
    exact lexemeExtent_name letter noLetter
  have scanned : ∃ later, scan (signedText false (numeral.text ++ exponentText exponent)) =
      [⟨.number numeral.value, 0⟩] ++ ⟨.identifier "e", numeral.text.length⟩ :: later := by
    rw [scan_eq, signedText_false, String.toList_ofList, split, scanFrom_numeral numeral mark,
      Nat.zero_add, scanFrom_cons, firstToken?, extent]
    exact ⟨_, rfl⟩
  obtain ⟨later, scanned⟩ := scanned
  have refused : convert true (scan (signedText false (numeral.text ++ exponentText exponent))) =
      .error (.refused (.unknownName "e") numeral.text.length) := by
    rw [scanned]
    exact refused_of_agrees (.unknown (by decide) (by decide)) (Moves.number fun _ => rfl).steps
  exact evaluate_of_convert_error rfl refused

namespace Binary64

variable {rank : Nat} {x y : Binary64}

theorem isNaN_of_lt (less : x.lt y = true) : y.isNaN = false := by
  cases y with
  | nan => cases x <;> cases less
  | infinity | finite => rfl

/-- What is below anything is finite. -/
theorem rank_lt_of_lt (less : (ofRank false rank).lt x = true) : rank < infinityRank := by
  by_contra beyond
  rw [ofRank, dif_neg beyond] at less
  cases x with
  | nan => cases less
  | infinity negative =>
    have beyondIt : (infinityRank : Int) < (if negative then -infinityRank else infinityRank : Int) :=
      of_decide_eq_true less
    split at beyondIt <;> omega
  | finite negative m =>
    have beyondIt : (infinityRank : Int) < (if negative then -m.rank else m.rank : Int) := of_decide_eq_true less
    have bound := m.rank_lt
    split at beyondIt <;> omega

end Binary64

/-- What is shown with all digits in their places is below a threshold, which makes its rounded value finite. -/
theorem Settings.rank_rounded_lt {settings : Settings} (inOrder : settings.sciLower.lt settings.sciUpper = true)
    {negative : Bool} {m : Magnitude} {digits : Nat} (some_digit : 1 ≤ digits) (few : digits ≤ 800)
    (places : settings.isScientific (.finite negative m) digits = false) : (m.rounded digits).rank < infinityRank := by
  have asked : min (max digits 1) 800 = digits := by omega
  simp only [isScientific, Binary64.roundedMagnitude, asked, Decimal.nearest, Binary64.isNaN_ofRank,
    Binary64.isNaN_of_lt inOrder, Bool.not_false, Bool.true_and, Bool.or_eq_false_iff, Bool.not_eq_false'] at places
  exact Binary64.rank_lt_of_lt places.2

/-- A text is a number, and any rules evaluate it to the nearest double. -/
structure TypedBack [ElementaryFunctions] (shown : String) (value : Binary64) : Prop where
  nearest : ∃ numeral : Numeral, shown = String.ofList numeral.text ∧ NearestDouble numeral.decimal.value value
  evaluates : ∀ strict, evaluate strict (.text shown) = .ok value

theorem typedBack_positionalText [ElementaryFunctions] {d : Decimal} (finite : d.rank < infinityRank) :
    TypedBack (signedText false (positionalText d)) (.finite false ⟨d.rank, finite⟩) := by
  have value : d.positional.value = .finite false ⟨d.rank, finite⟩ := by
    rw [Numeral.value, Decimal.nearest, Decimal.rank_congr d.positional_value, Binary64.ofRank, dif_pos finite]
  have isFinite : d.positional.value.isFinite = true := by
    rw [value]
    rfl
  rw [signedText_false, ← d.positional_text, ← value]
  exact ⟨⟨d.positional, rfl, d.positional.decimal.nearestDouble⟩, fun strict => evaluate_numeral strict isFinite⟩

theorem typedBack_zero [ElementaryFunctions] : TypedBack "0" (.zero false) := by
  have rank : (⟨0, 0⟩ : Decimal).rank = 0 := by decide +kernel
  have finite : (⟨0, 0⟩ : Decimal).rank < infinityRank := by
    rw [rank]
    decide
  have typed := typedBack_positionalText finite
  simp only [rank] at typed
  exact typed

namespace Settings

variable {settings : Settings} {digits : Nat} {negative : Bool} {m : Magnitude}

theorem display_zero (some_digit : 1 ≤ digits) (few : digits ≤ 17) (zero : m.rank = 0) :
    settings.display (some digits) (.finite negative m) = .ok "0" := by
  have chosen : settings.digitsFor (some digits) = .int digits := if_neg (by omega)
  have isZero : (Binary64.finite negative m).isZero = true := beq_iff_eq.mpr zero
  rw [display_of_int chosen (by omega), isZero, if_pos rfl]

theorem display_finite (some_digit : 1 ≤ digits) (few : digits ≤ 17) (some_rank : m.rank ≠ 0) :
    settings.display (some digits) (.finite negative m) =
      .ok (signedText negative (if settings.isScientific (.finite negative m) digits = true then
        scientificText (m.endsInZeros digits) (m.significant digits) else positionalText (m.significant digits))) := by
  have chosen : settings.digitsFor (some digits) = .int digits := if_neg (by omega)
  have notZero : (Binary64.finite negative m).isZero = false := beq_eq_false_iff_ne.mpr some_rank
  have countable : digits ≠ 0 := by omega
  rw [display_of_int chosen (by omega), notZero, if_neg Bool.false_ne_true, layOut, if_neg countable, if_neg countable]
  split <;> rfl

theorem rank_significant_lt (inOrder : settings.sciLower.lt settings.sciUpper = true) (some_digit : 1 ≤ digits)
    (few : digits ≤ 800) (some_rank : m.rank ≠ 0)
    (places : settings.isScientific (.finite negative m) digits = false) :
    (m.significant digits).rank < infinityRank := by
  rcases Magnitude.rank_significant some_rank digits with same | rounded
  · rw [same]
    exact m.rank_lt
  · rw [rounded]
    exact rank_rounded_lt inOrder some_digit few places

/-- Strict rules refuse what is shown with a sign or an exponent. -/
theorem refused_of_display [ElementaryFunctions] (some_digit : 1 ≤ digits) (few : digits ≤ 17) (some_rank : m.rank ≠ 0)
    (marked : negative = true ∨ settings.isScientific (.finite negative m) digits = true) {shown : String}
    (displayed : settings.display (some digits) (.finite negative m) = .ok shown) :
    ∃ failure, evaluate true (.text shown) = .error failure := by
  rw [display_finite some_digit few some_rank] at displayed
  cases displayed
  cases negative with
  | true => exact ⟨_, evaluate_negative _⟩
  | false =>
    have scientific := marked.resolve_left Bool.false_ne_true
    rw [if_pos scientific, Decimal.scientificText_eq]
    exact ⟨_, evaluate_exponent _ _⟩

end Settings

/-- With thresholds in order, as accepted settings have them, a displayed number can be typed in again. Zero and what
is positive and shown with all digits in their places is evaluated to the double nearest to what is shown, which with
seventeen digits is the one displayed. Signs and exponents are no part of strict expressions. -/
theorem evaluate_display [ElementaryFunctions] {settings : Settings}
    (inOrder : settings.sciLower.lt settings.sciUpper = true) {digits : Nat} (some_digit : 1 ≤ digits)
    (few : digits ≤ 17) (negative : Bool) (m : Magnitude) :
    ∃ shown, settings.display (some digits) (.finite negative m) = .ok shown ∧
      (m.rank = 0 ∨ negative = false ∧ settings.isScientific (.finite negative m) digits = false →
        ∃ value, TypedBack shown value ∧
          (digits = 17 → Binary64.finite negative m ≠ .zero true → value = .finite negative m)) ∧
      (m.rank ≠ 0 ∧ (negative = true ∨ settings.isScientific (.finite negative m) digits = true) →
        ∃ failure, evaluate true (.text shown) = .error failure) := by
  by_cases zero : m.rank = 0
  · -- Zero of either sign is shown without a sign, so that only the positive one comes back.
    refine ⟨"0", Settings.display_zero some_digit few zero, fun _ => ⟨_, typedBack_zero, fun _ notNegative => ?_⟩,
      fun some_rank => absurd zero some_rank.1⟩
    obtain ⟨rank, bound⟩ := m
    obtain rfl : rank = 0 := zero
    cases negative with
    | false => rfl
    | true => exact absurd rfl notNegative
  · have displayed := @Settings.display_finite settings digits negative m some_digit few zero
    refine ⟨_, displayed, ?_, fun marked => Settings.refused_of_display some_digit few zero marked.2 displayed⟩
    rintro (isZero | ⟨rfl, places⟩)
    · exact absurd isZero zero
    · have finite := Settings.rank_significant_lt inOrder some_digit (by omega) zero places
      have same : digits = 17 → (m.significant digits).rank = m.rank := by
        rintro rfl
        exact Magnitude.rank_significant_seventeen zero
      rw [places, if_neg Bool.false_ne_true]
      refine ⟨_, typedBack_positionalText finite, fun all _ => ?_⟩
      simp only [same all]

theorem evaluate_display_tenth :
    ({} : Settings).sciLower.lt ({} : Settings).sciUpper = true ∧ 1 ≤ 17 ∧ 17 ≤ 17 ∧
      ({} : Settings).display (some 17) (.finite false ⟨0x3fb999999999999a, by decide⟩) = .ok "0.1" ∧
      ∀ strict, evaluate strict (.text "0.1") = .ok (.finite false ⟨0x3fb999999999999a, by decide⟩) := by
  have inOrder : ({} : Settings).sciLower.lt ({} : Settings).sciUpper = true := by decide +kernel
  have places : ({} : Settings).isScientific (.finite false ⟨0x3fb999999999999a, by decide⟩) 17 = false := by
    decide +kernel
  have tenth : ({} : Settings).display (some 17) (.finite false ⟨0x3fb999999999999a, by decide⟩) = .ok "0.1" := by
    decide +kernel
  obtain ⟨shown, displayed, typed, -⟩ :=
    evaluate_display inOrder (by decide) (Nat.le_refl 17) false ⟨0x3fb999999999999a, by decide⟩
  obtain ⟨value, ⟨-, evaluates⟩, all⟩ := typed (Or.inr ⟨rfl, places⟩)
  obtain rfl : shown = "0.1" := Except.ok.inj (displayed.symm.trans tenth)
  obtain rfl := all rfl (by decide)
  exact ⟨inOrder, by decide, by decide, tenth, evaluates⟩

end Reckoner

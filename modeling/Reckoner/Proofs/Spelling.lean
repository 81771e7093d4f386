import Reckoner.Proofs.LayoutChoice

namespace Reckoner

/-- Something holds of the digits behind each point in a text. -/
def ForFractions (holds : List Char → Prop) (text : List Char) : Prop :=
  ∀ front later, text = front ++ '.' :: later → holds (later.takeWhile Char.isDigit)

/-- A digit follows every point. -/
def PointsFollowed (text : List Char) : Prop := ForFractions (fun fraction => fraction ≠ []) text

/-- The digits behind a point do not end in a zero. -/
def NoFinalZeros (text : List Char) : Prop := ForFractions (fun fraction => fraction.getLast? ≠ some '0') text

/-- When a display keeps a point that no digit follows: there is an exponent, several digits were asked for and are too
few for any number that is read as the value, and rounding down left one digit and zeros. -/
structure KeepsPoint (m : Magnitude) (digits : Nat) (shown : String) (x : ℚ) : Prop where
  exponent : 'e' ∈ shown.toList
  several : 1 < digits
  long : ∀ y, HasDigits digits y → ¬ReadsBack m y
  single : HasDigits 1 x
  down : x < m.value

section Points

variable {holds : List Char → Prop} {front text fraction rest : List Char}

theorem forFractions_of_not_mem (pointless : '.' ∉ text) : ForFractions holds text := by
  rintro front later rfl
  exact absurd (List.mem_append_right front List.mem_cons_self) pointless

theorem forFractions_append_iff (pointless : '.' ∉ front) :
    ForFractions holds (front ++ text) ↔ ForFractions holds text := by
  constructor
  · rintro every before later rfl
    exact every (front ++ before) later (List.append_assoc front before _).symm
  · intro every before later split
    rcases List.append_eq_append_iff.mp split with ⟨between, rfl, inside⟩ | ⟨between, reaches, inside⟩
    · exact every between later inside
    · cases between with
      | nil => exact every [] later inside.symm
      | cons c more =>
        obtain ⟨rfl, -⟩ := List.cons.inj inside
        refine absurd ?_ pointless
        rw [reaches]
        exact List.mem_append_right before List.mem_cons_self

/-- A single point is followed by the digits right behind it. -/
theorem forFractions_point_iff (digits : ∀ c ∈ fraction, c.isDigit = true)
    (stop : ∀ c ∈ rest.head?, c.isDigit = false) (pointless : '.' ∉ rest) :
    ForFractions holds ('.' :: (fraction ++ rest)) ↔ holds fraction := by
  have behind : (fraction ++ rest).takeWhile Char.isDigit = fraction := takeWhile_append_of_stop digits stop
  constructor
  · intro every
    rw [← behind]
    exact every [] (fraction ++ rest) rfl
  · intro first front later split
    cases front with
    | nil =>
      obtain ⟨-, rfl⟩ := List.cons.inj split
      rwa [behind]
    | cons c more =>
      have member : '.' ∈ fraction ++ rest := by
        rw [(List.cons.inj split).2]
        exact List.mem_append_right more List.mem_cons_self
      rcases List.mem_append.mp member with digit | later
      · exact absurd (digits '.' digit) (by decide)
      · exact absurd later pointless

theorem forFractions_numeral_iff (numeral : Numeral) (ends : EndsNumeral rest) (pointless : '.' ∉ rest) :
    ForFractions holds (numeral.text ++ rest) ↔ ∀ fraction ∈ numeral.fraction, holds fraction := by
  have whole : '.' ∉ numeral.whole := fun point => absurd (numeral.whole_digits '.' point) (by decide)
  rw [Numeral.text, List.append_assoc, forFractions_append_iff whole, Numeral.behind]
  cases written : numeral.fraction with
  | none => exact iff_of_true (forFractions_of_not_mem pointless) fun _ none => absurd none (Option.not_mem_none _)
  | some fraction =>
    have digits : ∀ c ∈ fraction, c.isDigit = true := by simpa [written] using numeral.fraction_digits
    rw [List.cons_append, forFractions_point_iff digits (fun c first => (ends c first).1) pointless]
    simp

theorem forFractions_signedText_iff {negative : Bool} :
    ForFractions holds (signedText negative text).toList ↔ ForFractions holds text := by
  cases negative with
  | true =>
    rw [signedText_true, String.toList_ofList]
    have minus : '.' ∉ ['-'] := by decide
    exact forFractions_append_iff minus
  | false => rw [signedText_false, String.toList_ofList]

end Points

namespace Decimal

variable {d : Decimal} {holds : List Char → Prop}

theorem forFractions_positionalText_iff :
    ForFractions holds (positionalText d) ↔ (d.split.2 ≠ [] → holds d.split.2) := by
  have fractions := @forFractions_numeral_iff holds [] d.positional nofun List.not_mem_nil
  rw [List.append_nil, positional_text] at fractions
  rw [fractions, positional]
  by_cases whole : d.split.2 = []
  · simp [whole]
  · simp [whole]

theorem forFractions_scientificText_iff {droppedZeros : Bool} : ForFractions holds (scientificText droppedZeros d) ↔
    (¬(d.digits.length = 1 ∧ droppedZeros = false) → holds (d.digits.drop 1)) := by
  have mark : EndsNumeral (exponentText d.leading) := by
    rintro c ⟨⟩
    decide
  have noFigure : ¬('.' = 'e' ∨ '.' = '-' ∨ '.' = '+' ∨ '.'.isDigit = true) := by decide
  have pointless : '.' ∉ exponentText d.leading := fun point => noFigure (cases_of_mem_exponentText point)
  rw [scientificText_eq, forFractions_numeral_iff _ mark pointless, mantissa]
  by_cases single : d.digits.length = 1 ∧ droppedZeros = false
  · simp [single]
  · simp [single]

theorem IsTrimmed.value_pos (trimmed : d.IsTrimmed) : 0 < d.value := by
  have positive : 0 < d.coefficient := Nat.pos_of_ne_zero fun zero => trimmed (by rw [zero])
  exact mul_pos (Nat.cast_pos.mpr positive) (ten_zpow_pos d.exponent)

theorem IsTrimmed.last_digit (trimmed : d.IsTrimmed) : d.digits.getLast? ≠ some '0' := by
  intro zero
  obtain ⟨front, split⟩ := List.getLast?_eq_some_iff.mp zero
  have value := d.ofDigitChars_digits
  rw [split, Nat.ofDigitChars_append, Nat.ofDigitChars_cons, Nat.ofDigitChars_nil] at value
  refine trimmed ?_
  rw [← value]
  omega

/-- The digits behind the point end where all digits end. -/
theorem getLast?_split (fraction : d.split.2 ≠ []) : d.split.2.getLast? = d.digits.getLast? := by
  rcases d.layout_cases with whole | ⟨places, scaled, positive, inside | outside⟩
  · rw [split_of_nonneg whole] at fraction
    exact absurd rfl fraction
  · rw [split_of_lt scaled inside positive, List.getLast?_drop, if_neg (by omega)]
  · rw [split_of_le scaled outside positive, List.getLast?_append_of_ne_nil _ d.digits_ne_nil]

theorem pointsFollowed_positionalText : PointsFollowed (positionalText d) :=
  forFractions_positionalText_iff.mpr id

theorem IsTrimmed.noFinalZeros_positionalText (trimmed : d.IsTrimmed) : NoFinalZeros (positionalText d) := by
  refine forFractions_positionalText_iff.mpr fun fraction => ?_
  rw [getLast?_split fraction]
  exact trimmed.last_digit

theorem pointsFollowed_scientificText_iff {droppedZeros : Bool} :
    PointsFollowed (scientificText droppedZeros d) ↔ ¬(d.digits.length = 1 ∧ droppedZeros = true) := by
  have some_digit := List.length_pos_iff.mpr d.digits_ne_nil
  rw [PointsFollowed, forFractions_scientificText_iff, Ne, List.drop_eq_nil_iff]
  cases droppedZeros <;> simp <;> omega

theorem IsTrimmed.noFinalZeros_scientificText (trimmed : d.IsTrimmed) (droppedZeros : Bool) :
    NoFinalZeros (scientificText droppedZeros d) := by
  refine forFractions_scientificText_iff.mpr fun _ => ?_
  rw [List.getLast?_drop]
  split
  · nofun
  · exact trimmed.last_digit

end Decimal

namespace Magnitude

variable {m : Magnitude} {digits : Nat}

theorem coefficient_lt_iff (m : Magnitude) (d : Decimal) :
    d.coefficient * (m.ratioAt d.exponent).2 < (m.ratioAt d.exponent).1 ↔ d.value < m.value := by
  have parts : (0 : ℚ) < (m.ratioAt d.exponent).2 := Nat.cast_pos.mpr (m.ratioAt_pos d.exponent)
  rw [Decimal.value, ← lt_div_iff₀ (ten_zpow_pos d.exponent), ← ratioAt_eq, lt_div_iff₀ parts]
  exact_mod_cast Iff.rfl

theorem single_digit_iff (some_rank : m.rank ≠ 0) (some_digit : 1 ≤ digits) :
    (m.significant digits).digits.length = 1 ↔ HasDigits 1 (m.significant digits).value := by
  have positive := List.length_pos_iff.mpr (m.significant digits).digits_ne_nil
  rw [(isTrimmed_significant some_rank some_digit).hasDigits_iff Nat.one_pos]
  omega

theorem endsInZeros_iff (some_rank : m.rank ≠ 0) (some_digit : 1 ≤ digits) : m.endsInZeros digits = true ↔
    1 < digits ∧ (∀ y, HasDigits digits y → ¬ReadsBack m y) ∧ HasDigits 1 (m.significant digits).value ∧
      (m.significant digits).value < m.value := by
  have long : digits < m.shortest.digits.length ↔ ∀ y, HasDigits digits y → ¬ReadsBack m y := by
    rw [← Nat.not_le, length_shortest_le_iff some_rank some_digit]
    exact ⟨fun none y few reads => none ⟨y, few, reads⟩, fun long ⟨y, few, reads⟩ => long y few reads⟩
  rw [← long, ← single_digit_iff some_rank some_digit, ← coefficient_lt_iff, endsInZeros]
  obtain ⟨⟨numerator, denominator⟩, ratio⟩ :
      ∃ ratio, m.ratioAt (m.significant digits).exponent = ratio := ⟨_, rfl⟩
  simp only [ratio, Bool.and_eq_true, decide_eq_true_eq, beq_iff_eq, and_assoc]

/-- Zeros are dropped behind a single digit only. -/
theorem pointsFollowed_significant_iff (some_rank : m.rank ≠ 0) (some_digit : 1 ≤ digits) :
    PointsFollowed (scientificText (m.endsInZeros digits) (m.significant digits)) ↔ m.endsInZeros digits = false := by
  rw [Decimal.pointsFollowed_scientificText_iff, ← Bool.not_eq_true, not_iff_not]
  refine ⟨fun dropped => dropped.2, fun dropped => ⟨?_, dropped⟩⟩
  exact (single_digit_iff some_rank some_digit).mpr ((endsInZeros_iff some_rank some_digit).mp dropped).2.2.1

end Magnitude

namespace Settings

variable {settings : Settings} {digits : Nat} {negative : Bool} {m m' : Magnitude}

theorem noFinalZeros_unsignedText (some_rank : m.rank ≠ 0) (some_digit : 1 ≤ digits) :
    NoFinalZeros (settings.unsignedText digits m) := by
  have trimmed := Magnitude.isTrimmed_significant some_rank some_digit
  unfold unsignedText
  split
  · exact trimmed.noFinalZeros_scientificText _
  · exact trimmed.noFinalZeros_positionalText

theorem pointsFollowed_unsignedText_iff (some_rank : m.rank ≠ 0) (some_digit : 1 ≤ digits) :
    PointsFollowed (settings.unsignedText digits m) ↔
      ¬(settings.isScientific (.finite false m) digits = true ∧ m.endsInZeros digits = true) := by
  unfold unsignedText
  split
  · rename_i scientific
    rw [Magnitude.pointsFollowed_significant_iff some_rank some_digit]
    simp [scientific]
  · rename_i places
    exact iff_of_true Decimal.pointsFollowed_positionalText fun kept => places kept.1

theorem keepsPoint_iff (some_rank : m.rank ≠ 0) (some_digit : 1 ≤ digits) :
    KeepsPoint m digits (signedText negative (settings.unsignedText digits m)) (m.significant digits).value ↔
      settings.isScientific (.finite false m) digits = true ∧ m.endsInZeros digits = true := by
  rw [← mem_unsignedText, ← mem_signedText, Magnitude.endsInZeros_iff some_rank some_digit]
  exact ⟨fun ⟨exponent, several, long, single, down⟩ => ⟨exponent, several, long, single, down⟩,
    fun ⟨exponent, several, long, single, down⟩ => ⟨exponent, several, long, single, down⟩⟩

/-- Magnitudes that are shown as the same number are shown in the same layout. -/
theorem UsualThresholds.unsignedText_eq (usual : settings.UsualThresholds) (some_digit : 1 ≤ digits)
    (few : digits ≤ 17) (some_rank : m.rank ≠ 0) (some_rank' : m'.rank ≠ 0)
    (same : m.significant digits = m'.significant digits)
    (alike : PointsFollowed (settings.unsignedText digits m) ↔ PointsFollowed (settings.unsignedText digits m')) :
    settings.unsignedText digits m = settings.unsignedText digits m' := by
  have layouts : settings.isScientific (.finite false m) digits = true ↔
      settings.isScientific (.finite false m') digits = true := by
    rw [usual.isScientific_iff_shown some_digit few some_rank,
      usual.isScientific_iff_shown some_digit few some_rank', same]
  by_cases scientific : settings.isScientific (.finite false m) digits = true
  · rw [unsignedText, unsignedText, if_pos scientific, if_pos (layouts.mp scientific)] at alike ⊢
    rw [Magnitude.pointsFollowed_significant_iff some_rank some_digit,
      Magnitude.pointsFollowed_significant_iff some_rank' some_digit] at alike
    have zeros : m.endsInZeros digits = m'.endsInZeros digits := by
      rwa [Bool.eq_iff_iff, ← not_iff_not, Bool.not_eq_true, Bool.not_eq_true]
    rw [zeros, same]
  · rw [unsignedText, unsignedText, if_neg scientific, if_neg fun there => scientific (layouts.mpr there), same]

end Settings

theorem signed_injective {negative negative' : Bool} {x x' : ℚ} (positive : 0 < x) (positive' : 0 < x')
    (same : signed negative x = signed negative' x') : negative = negative' ∧ x = x' := by
  cases negative <;> cases negative' <;> simp only [signed, Bool.false_eq_true, if_true, if_false] at same
  · exact ⟨rfl, same⟩
  · linarith
  · linarith
  · exact ⟨rfl, neg_injective same⟩

/-- With the usual thresholds a number has one spelling, without a zero at the end of its fraction and without a point
that no digit follows. The exception is a point that is kept: of two displays of one number the texts differ when one
keeps its point and the other does not. -/
theorem display_spelling {settings : Settings} (usual : settings.UsualThresholds) {digits : Nat}
    (some_digit : 1 ≤ digits) (few : digits ≤ 17) (negative negative' : Bool) {m m' : Magnitude}
    (some_rank : m.rank ≠ 0) (some_rank' : m'.rank ≠ 0) :
    ∃ shown shown' x x', settings.display (some digits) (.finite negative m) = .ok shown ∧
      settings.display (some digits) (.finite negative' m') = .ok shown' ∧
      readNumber? shown = some (signed negative x) ∧ readNumber? shown' = some (signed negative' x') ∧
      NoFinalZeros shown.toList ∧ (PointsFollowed shown.toList ↔ ¬KeepsPoint m digits shown x) ∧
      (readNumber? shown = readNumber? shown' →
        (shown = shown' ↔ (KeepsPoint m digits shown x ↔ KeepsPoint m' digits shown' x'))) := by
  have trimmed := Magnitude.isTrimmed_significant some_rank some_digit
  have trimmed' := Magnitude.isTrimmed_significant some_rank' some_digit
  have read := readNumber?_signedText negative (@Settings.readUnsigned?_unsignedText settings digits m)
  have read' := readNumber?_signedText negative' (@Settings.readUnsigned?_unsignedText settings digits m')
  have followed (negative : Bool) {m : Magnitude} (some_rank : m.rank ≠ 0) :
      PointsFollowed (signedText negative (settings.unsignedText digits m)).toList ↔
        ¬KeepsPoint m digits (signedText negative (settings.unsignedText digits m)) (m.significant digits).value := by
    rw [Settings.keepsPoint_iff some_rank some_digit, ← Settings.pointsFollowed_unsignedText_iff some_rank some_digit]
    exact forFractions_signedText_iff
  refine ⟨_, _, _, _, Settings.display_eq some_digit few some_rank, Settings.display_eq some_digit few some_rank',
    read, read', forFractions_signedText_iff.mpr (Settings.noFinalZeros_unsignedText some_rank some_digit),
    followed negative some_rank, fun sameNumber => ?_⟩
  rw [read, read'] at sameNumber
  obtain ⟨rfl, sameValue⟩ := signed_injective trimmed.value_pos trimmed'.value_pos (Option.some.inj sameNumber)
  have sameDecimal : m.significant digits = m'.significant digits := trimmed'.eq trimmed sameValue
  rw [← not_iff_not (a := KeepsPoint _ _ _ _), ← followed negative some_rank, ← followed negative some_rank']
  constructor
  · intro sameText
    rw [sameText]
  · intro alike
    rw [PointsFollowed, PointsFollowed, forFractions_signedText_iff, forFractions_signedText_iff] at alike
    rw [usual.unsignedText_eq some_digit few some_rank some_rank' sameDecimal alike]

/-- What is rounded up to a power of ten is spelled as that power is. -/
theorem display_spelling_carried :
    ({} : Settings).UsualThresholds ∧ 1 ≤ 12 ∧ 12 ≤ 17 ∧ (⟨0x426d1a94a1fff333, by decide⟩ : Magnitude).rank ≠ 0 ∧
      (⟨0x426d1a94a2000000, by decide⟩ : Magnitude).rank ≠ 0 ∧
      ({} : Settings).display (some 12) (.finite true ⟨0x426d1a94a1fff333, by decide⟩) = .ok "-1e+12" ∧
      ({} : Settings).display (some 12) (.finite true ⟨0x426d1a94a2000000, by decide⟩) = .ok "-1e+12" ∧
      ∃ x x', ¬KeepsPoint ⟨0x426d1a94a1fff333, by decide⟩ 12 "-1e+12" x ∧
        ¬KeepsPoint ⟨0x426d1a94a2000000, by decide⟩ 12 "-1e+12" x' := by
  have some_rank : (⟨0x426d1a94a1fff333, by decide⟩ : Magnitude).rank ≠ 0 := by decide
  have some_rank' : (⟨0x426d1a94a2000000, by decide⟩ : Magnitude).rank ≠ 0 := by decide
  have carried : ({} : Settings).display (some 12) (.finite true ⟨0x426d1a94a1fff333, by decide⟩) = .ok "-1e+12" := by
    decide +kernel
  have power : ({} : Settings).display (some 12) (.finite true ⟨0x426d1a94a2000000, by decide⟩) = .ok "-1e+12" := by
    decide +kernel
  obtain ⟨shown, shown', x, x', displayed, displayed', -, -, -, followed, spelling⟩ :=
    display_spelling Settings.usualThresholds (show 1 ≤ 12 by decide) (by decide) true true some_rank some_rank'
  obtain rfl : "-1e+12" = shown := Except.ok.inj (carried.symm.trans displayed)
  obtain rfl : "-1e+12" = shown' := Except.ok.inj (power.symm.trans displayed')
  have unkept := followed.mp (forFractions_of_not_mem (by decide))
  exact ⟨Settings.usualThresholds, by decide, by decide, some_rank, some_rank', carried, power, x, x', unkept,
    fun kept => unkept (((spelling rfl).mp rfl).mpr kept)⟩

/-- What is rounded down to a power of ten is not spelled as that power is. -/
theorem display_spelling_kept_point :
    ({} : Settings).display (some 12) (.finite false ⟨0x426d1a94a2000ccd, by decide⟩) = .ok "1.e+12" ∧
      ({} : Settings).display (some 12) (.finite false ⟨0x426d1a94a2000000, by decide⟩) = .ok "1e+12" ∧
      readNumber? "1.e+12" = some 1000000000000 ∧ readNumber? "1e+12" = some 1000000000000 ∧ "1.e+12" ≠ "1e+12" ∧
      ¬PointsFollowed "1.e+12".toList := by
  refine ⟨by decide +kernel, by decide +kernel, by decide +kernel, by decide +kernel, by decide, fun followed => ?_⟩
  exact followed ['1'] ['e', '+', '1', '2'] rfl rfl

end Reckoner

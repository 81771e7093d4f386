import Reckoner.Proofs.DisplayedNumber

namespace Reckoner

/-- The magnitudes around one are equally far from it, except that above a power of two they may stand twice as far
apart. -/
theorem spacing_around (before : Nat) : quantaAt (before + 2) + quantaAt before = 2 * quantaAt (before + 1) ∨
    (before + 1) % ranksPerBinade = 0 ∧ 2 * quantaAt (before + 1) ≤ quantaAt (before + 2) + quantaAt before ∧
      quantaAt (before + 2) + 2 * quantaAt before ≤ 3 * quantaAt (before + 1) := by
  obtain ⟨scale, significand, split, inside, normal⟩ := exists_scale (before + 1)
  by_cases within : scale = 0 ∨ ranksPerBinade < significand
  · left
    obtain ⟨less, rfl⟩ : ∃ less, significand = less + 1 := by
      refine ⟨significand - 1, ?_⟩
      rcases within with rfl | large
      · omega
      · omega
    have order : before = scale * ranksPerBinade + less := by omega
    have behind : quantaAt before = less * 2 ^ scale := by
      rw [order]
      exact quantaAt_scale (by omega) (by omega)
    have here : quantaAt (before + 1) = (less + 1) * 2 ^ scale := by
      rw [split]
      exact quantaAt_scale (by omega) (by omega)
    have ahead : quantaAt (before + 2) = (less + 2) * 2 ^ scale := by
      rw [order, Nat.add_assoc]
      exact quantaAt_scale (by omega) (by omega)
    rw [behind, here, ahead]
    ring
  · right
    obtain ⟨less, rfl⟩ : ∃ less, scale = less + 1 := ⟨scale - 1, by omega⟩
    obtain rfl : significand = ranksPerBinade := by omega
    have order : before = less * ranksPerBinade + (2 * ranksPerBinade - 1) := by
      unfold ranksPerBinade at *
      omega
    have next : before + 2 = (less + 1) * ranksPerBinade + (ranksPerBinade + 1) := by
      unfold ranksPerBinade at *
      omega
    have behind : quantaAt before = (2 * ranksPerBinade - 1) * 2 ^ less := by
      rw [order]
      exact quantaAt_scale (by omega) (Or.inr (by decide))
    have here : quantaAt (before + 1) = ranksPerBinade * 2 ^ (less + 1) := by
      rw [split]
      exact quantaAt_scale (by omega) (Or.inr (by omega))
    have ahead : quantaAt (before + 2) = (ranksPerBinade + 1) * 2 ^ (less + 1) := by
      rw [next]
      exact quantaAt_scale (by decide) (Or.inr (by decide))
    rw [behind, here, ahead, Nat.pow_succ, split]
    generalize 2 ^ less = spacing
    unfold ranksPerBinade
    omega

section Spacing

variable {before : Nat}

theorem valueAt_spacing (before : Nat) : valueAt (before + 2) + valueAt before = 2 * valueAt (before + 1) ∨
    (before + 1) % ranksPerBinade = 0 ∧ 2 * valueAt (before + 1) ≤ valueAt (before + 2) + valueAt before ∧
      valueAt (before + 2) + 2 * valueAt before ≤ 3 * valueAt (before + 1) := by
  have positive := quantum_pos
  simp only [valueAt, ← add_mul, ← mul_assoc]
  rcases spacing_around before with even | ⟨power, wider, twice⟩
  · left
    have cast : (quantaAt (before + 2) + quantaAt before : ℚ) = 2 * quantaAt (before + 1) := by exact_mod_cast even
    rw [cast]
  · right
    have castWider : (2 * quantaAt (before + 1) : ℚ) ≤ quantaAt (before + 2) + quantaAt before := by
      exact_mod_cast wider
    have castTwice : (quantaAt (before + 2) + 2 * quantaAt before : ℚ) ≤ 3 * quantaAt (before + 1) := by
      exact_mod_cast twice
    exact ⟨power, mul_le_mul_of_nonneg_right castWider positive.le, mul_le_mul_of_nonneg_right castTwice positive.le⟩

variable {m : Magnitude} {d e : Decimal}

/-- Above a magnitude there is no less room than below it. -/
theorem rank_of_nearer_above (rank : m.rank = before + 1) (reads : d.rank = m.rank) (above : m.value ≤ e.value)
    (nearer : |e.value - m.value| ≤ |d.value - m.value|) : e.rank = m.rank := by
  rw [abs_of_nonneg (sub_nonneg.mpr above)] at nearer
  rcases le_or_gt m.value d.value with sameSide | otherSide
  · rw [abs_of_nonneg (sub_nonneg.mpr sameSide)] at nearer
    exact rank_of_between reads (Or.inr ⟨above, by linarith⟩)
  · rw [abs_of_neg (sub_neg.mpr otherSide)] at nearer
    have ranks := d.ranksNearest_rank
    rw [reads] at ranks
    have value : m.value = valueAt (before + 1) := by rw [Magnitude.value_eq, rank]
    have halfBehind : halfwayAt before = (valueAt before + valueAt (before + 1)) / 2 := rfl
    have halfAhead : halfwayAt m.rank = (valueAt (before + 1) + valueAt (before + 2)) / 2 := by rw [rank, halfwayAt]
    have wider : 2 * valueAt (before + 1) ≤ valueAt (before + 2) + valueAt before :=
      (valueAt_spacing before).elim (fun even => even.ge) fun power => power.2.1
    have previous : valueAt before < valueAt (before + 1) := valueAt_strictMono (Nat.lt_succ_self before)
    refine e.ranksNearest_rank.eq ⟨?_, ?_⟩
    · rcases ranks.below before rank with strict | ⟨tie, even⟩
      · exact Or.inl (by linarith)
      · exact (lt_or_eq_of_le (by linarith : e.value ≤ halfwayAt m.rank)).imp_right fun same => ⟨same, even⟩
    · intro before' rank'
      obtain rfl : before' = before := by omega
      exact Or.inl (by linarith)

/-- Below a power of two there is half as much room as above it, so that one magnitude more is within reach. -/
theorem rank_of_nearer_below (rank : m.rank = before + 1) (reads : d.rank = m.rank) (below : e.value < m.value)
    (nearer : |e.value - m.value| ≤ |d.value - m.value|) :
    e.rank = m.rank ∨ m.rank % ranksPerBinade = 0 ∧ e.rank + 1 = m.rank := by
  rw [abs_of_neg (sub_neg.mpr below)] at nearer
  rcases lt_or_ge d.value m.value with sameSide | otherSide
  · left
    rw [abs_of_neg (sub_neg.mpr sameSide)] at nearer
    exact rank_of_between reads (Or.inl ⟨by linarith, below.le⟩)
  · rw [abs_of_nonneg (sub_nonneg.mpr otherSide)] at nearer
    have ranks := d.ranksNearest_rank
    rw [reads] at ranks
    have value : m.value = valueAt (before + 1) := by rw [Magnitude.value_eq, rank]
    have halfBehind : halfwayAt before = (valueAt before + valueAt (before + 1)) / 2 := rfl
    have halfAhead : halfwayAt m.rank = (valueAt (before + 1) + valueAt (before + 2)) / 2 := by rw [rank, halfwayAt]
    have next : valueAt (before + 1) < valueAt (before + 2) := valueAt_strictMono (Nat.lt_succ_self (before + 1))
    rcases valueAt_spacing before with even | ⟨power, -, twice⟩
    · left
      refine e.ranksNearest_rank.eq ⟨Or.inl (by linarith), ?_⟩
      intro before' rank'
      obtain rfl : before' = before := by omega
      rcases ranks.above with strict | ⟨tie, evenRank⟩
      · exact Or.inl (by linarith)
      · exact (lt_or_eq_of_le (by linarith : halfwayAt before' ≤ e.value)).imp_right fun same => ⟨same, evenRank⟩
    · have most : e.rank ≤ m.rank := e.ranksNearest_rank.le below.le (ranksNearest_valueAt m.rank)
      have reach : d.value ≤ halfwayAt m.rank := ranks.above.elim le_of_lt fun tie => tie.1.le
      have least : before ≤ e.rank := (ranksNearest_valueAt before).le (by linarith) e.ranksNearest_rank
      rw [← rank] at power
      omega

/-- What is no farther from a magnitude than a number that is read as it is read as it too, unless the magnitude is a
power of two. Below a power of two it may be read as the magnitude before. -/
theorem rank_of_nearer (some_rank : m.rank ≠ 0) (reads : d.rank = m.rank)
    (nearer : |e.value - m.value| ≤ |d.value - m.value|) :
    e.rank = m.rank ∨ m.rank % ranksPerBinade = 0 ∧ e.rank + 1 = m.rank := by
  obtain ⟨before, rank⟩ := Nat.exists_eq_succ_of_ne_zero some_rank
  rcases le_or_gt m.value e.value with above | below
  · exact Or.inl (rank_of_nearer_above rank reads above nearer)
  · exact rank_of_nearer_below rank reads below nearer

end Spacing

namespace Magnitude

variable {m : Magnitude} {digits : Nat}

/-- A threshold that is no power of two has the rounded value and the number shown on the same side. -/
theorem rank_rounded_lt_iff (some_rank : m.rank ≠ 0) (some_digit : 1 ≤ digits) {threshold : Nat}
    (noPower : threshold % ranksPerBinade ≠ 0) :
    (m.rounded digits).rank < threshold ↔ (m.significant digits).rank < threshold := by
  by_cases fits : m.shortest.digits.length ≤ digits
  · have shown : m.significant digits = m.shortest := if_pos fits
    have few : HasDigits digits m.shortest.value := ((isTrimmed_shortest some_rank).hasDigits_iff some_digit).mpr fits
    have nearer := (closest_rounded some_rank some_digit).closest _ few trivial
    rw [shown, rank_shortest some_rank]
    rcases rank_of_nearer some_rank (rank_shortest some_rank) nearer with same | ⟨power, before⟩
    · rw [same]
    · have apart : threshold ≠ m.rank := fun equal => noPower (equal ▸ power)
      omega
  · have shown : m.significant digits = (m.rounded digits).trim := if_neg fits
    rw [shown, Decimal.rank_congr (Decimal.value_trim _)]

end Magnitude

theorem Binary64.ofRank_lt_finite (rank : Nat) (m : Magnitude) :
    (ofRank false rank).lt (.finite false m) = decide (rank < m.rank) := by
  have bound := m.rank_lt
  rw [ofRank]
  split
  · simp [lt, signedRank?]
  · have beyond : ¬rank < m.rank := by omega
    simp [lt, signedRank?, beyond]
    omega

namespace Settings

variable {settings : Settings} {digits : Nat} {negative : Bool} {m low high : Magnitude}

/-- The thresholds that settings begin with. -/
structure UsualThresholds (settings : Settings) : Prop where
  lower : settings.sciLower = Decimal.nearest false ⟨1, -10⟩
  upper : settings.sciUpper = Decimal.nearest false ⟨1, 12⟩

theorem usualThresholds : ({} : Settings).UsualThresholds where
  lower := by decide +kernel
  upper := by decide +kernel

/-- Neither of the usual thresholds is a power of two. -/
theorem UsualThresholds.exists_magnitudes (usual : settings.UsualThresholds) : ∃ low high : Magnitude,
    settings.sciLower = .finite false low ∧ settings.sciUpper = .finite false high ∧
      low.rank % ranksPerBinade ≠ 0 ∧ high.rank % ranksPerBinade ≠ 0 := by
  refine ⟨⟨0x3ddb7cdfd9d7bdbb, by decide⟩, ⟨0x426d1a94a2000000, by decide⟩, usual.lower.trans ?_, usual.upper.trans ?_,
    by decide, by decide⟩
  · decide +kernel
  · decide +kernel

theorem isScientific_iff (lower : settings.sciLower = .finite false low) (upper : settings.sciUpper = .finite false high)
    (some_digit : 1 ≤ digits) (few : digits ≤ 17) : settings.isScientific (.finite negative m) digits = true ↔
      (m.rounded digits).rank < low.rank ∨ ¬(m.rounded digits).rank < high.rank := by
  have asked : min (max digits 1) 800 = digits := by omega
  have rounded : (Binary64.finite negative m).roundedMagnitude digits = .ofRank false (m.rounded digits).rank := by
    rw [Binary64.roundedMagnitude, asked, Decimal.nearest]
  have number : (Binary64.finite false high).isNaN = false := rfl
  simp only [isScientific, rounded, lower, upper, number, Binary64.isNaN_ofRank, Binary64.ofRank_lt_finite,
    Bool.not_false, Bool.true_and, Bool.or_eq_true, decide_eq_true_eq, Bool.not_eq_true', decide_eq_false_iff_not]

/-- With the usual thresholds the number shown chooses the layout. -/
theorem UsualThresholds.isScientific_iff_shown (usual : settings.UsualThresholds) (some_digit : 1 ≤ digits)
    (few : digits ≤ 17) (some_rank : m.rank ≠ 0) : settings.isScientific (.finite negative m) digits = true ↔
      ((m.significant digits).nearest false).lt settings.sciLower = true ∨
        ((m.significant digits).nearest false).lt settings.sciUpper = false := by
  obtain ⟨low, high, lower, upper, lowNoPower, highNoPower⟩ := usual.exists_magnitudes
  rw [isScientific_iff lower upper some_digit few, Magnitude.rank_rounded_lt_iff some_rank some_digit lowNoPower,
    Magnitude.rank_rounded_lt_iff some_rank some_digit highNoPower, lower, upper, Decimal.nearest,
    Binary64.ofRank_lt_finite, Binary64.ofRank_lt_finite, decide_eq_true_iff, decide_eq_false_iff_not]

end Settings

/-- No digit and no point is the mark of an exponent. -/
theorem not_mem_positionalText (d : Decimal) : 'e' ∉ positionalText d := by
  intro member
  rcases cases_of_mem_positionalText member with point | digit
  · exact absurd point (by decide)
  · exact absurd digit (by decide)

theorem mem_scientificText (droppedZeros : Bool) (d : Decimal) : 'e' ∈ scientificText droppedZeros d := by
  rw [Decimal.scientificText_eq]
  exact List.mem_append_right _ List.mem_cons_self

theorem mem_signedText {negative : Bool} {text : List Char} : 'e' ∈ (signedText negative text).toList ↔ 'e' ∈ text := by
  cases negative <;> simp

theorem Settings.mem_unsignedText {settings : Settings} {digits : Nat} {m : Magnitude} :
    'e' ∈ settings.unsignedText digits m ↔ settings.isScientific (.finite false m) digits = true := by
  unfold unsignedText
  split
  · rename_i scientific
    exact iff_of_true (mem_scientificText _ _) scientific
  · rename_i places
    exact iff_of_false (not_mem_positionalText _) places

/-- With the usual thresholds a display has an exponent if and only if the double nearest to what it shows lies outside
of them: it is never the number before rounding that decides. -/
theorem display_exponent_iff {settings : Settings} (usual : settings.UsualThresholds) {digits : Nat}
    (some_digit : 1 ≤ digits) (few : digits ≤ 17) (negative : Bool) {m : Magnitude} (some_rank : m.rank ≠ 0) :
    ∃ shown number nearest, settings.display (some digits) (.finite negative m) = .ok shown ∧
      readNumber? shown = some number ∧ NearestDouble |number| nearest ∧
      ('e' ∈ shown.toList ↔ nearest.lt settings.sciLower = true ∨ nearest.lt settings.sciUpper = false) := by
  have magnitude : |signed negative (m.significant digits).value| = (m.significant digits).value := by
    have nonneg := (m.significant digits).value_nonneg
    cases negative <;> simp [signed, abs_of_nonneg nonneg]
  refine ⟨_, _, (m.significant digits).nearest false, Settings.display_eq some_digit few some_rank,
    readNumber?_signedText negative Settings.readUnsigned?_unsignedText, ?_, ?_⟩
  · rw [magnitude]
    exact (m.significant digits).nearestDouble
  · rw [mem_signedText, Settings.mem_unsignedText]
    exact usual.isScientific_iff_shown some_digit few some_rank

/-- A value below the upper threshold that is rounded up to it is shown with an exponent. -/
theorem display_exponent_iff_carried :
    ({} : Settings).UsualThresholds ∧ 1 ≤ 12 ∧ 12 ≤ 17 ∧ (⟨0x426d1a94a1fff333, by decide⟩ : Magnitude).rank ≠ 0 ∧
      ({} : Settings).display (some 12) (.finite false ⟨0x426d1a94a1fff333, by decide⟩) = .ok "1e+12" ∧
      ∃ nearest, NearestDouble 1000000000000 nearest ∧
        (nearest.lt ({} : Settings).sciLower = true ∨ nearest.lt ({} : Settings).sciUpper = false) := by
  have some_rank : (⟨0x426d1a94a1fff333, by decide⟩ : Magnitude).rank ≠ 0 := by decide
  have carried : ({} : Settings).display (some 12) (.finite false ⟨0x426d1a94a1fff333, by decide⟩) = .ok "1e+12" := by
    decide +kernel
  have decimal : readNumber? "1e+12" = some 1000000000000 := by decide +kernel
  obtain ⟨shown, number, nearest, displayed, read, nearestDouble, exponent⟩ :=
    display_exponent_iff Settings.usualThresholds (show 1 ≤ 12 by decide) (by decide) false some_rank
  obtain rfl : "1e+12" = shown := Except.ok.inj (carried.symm.trans displayed)
  obtain rfl : 1000000000000 = number := Option.some.inj (decimal.symm.trans read)
  rw [abs_of_pos (by norm_num)] at nearestDouble
  exact ⟨Settings.usualThresholds, by decide, by decide, some_rank, carried, nearest, nearestDouble,
    exponent.mp (by decide)⟩

end Reckoner

import Reckoner.Proofs.BitPatterns
import Reckoner.Proofs.DisplayedNumber

namespace Reckoner

section Distances

variable {x y v : ℚ}

/-- A number that is no nearer to the larger of two lies below their middle. -/
theorem middle_of_nearer_left (less : y < x) (nearer : |y - v| ≤ |x - v|) : 2 * v ≤ x + y := by
  rcases abs_cases (y - v) with ⟨left, sign⟩ | ⟨left, sign⟩ <;>
    rcases abs_cases (x - v) with ⟨right, sign'⟩ | ⟨right, sign'⟩ <;> linarith

theorem middle_of_nearer_right (less : y < x) (nearer : |x - v| ≤ |y - v|) : x + y ≤ 2 * v := by
  rcases abs_cases (y - v) with ⟨left, sign⟩ | ⟨left, sign⟩ <;>
    rcases abs_cases (x - v) with ⟨right, sign'⟩ | ⟨right, sign'⟩ <;> linarith

end Distances

section Order

variable {m m' : Magnitude} {digits : Nat} {x y : ℚ}

/-- Numbers that are read as different magnitudes stand in their order. -/
theorem ReadsBack.lt {count count' : Nat} (few : HasDigits count x) (few' : HasDigits count' y)
    (here : ReadsBack m x) (there : ReadsBack m' y) (less : m.value < m'.value) : x < y := by
  obtain ⟨d, -, rfl⟩ := few
  obtain ⟨e, -, rfl⟩ := few'
  rw [readsBack_value_iff] at here there
  have ranks : m.rank < m'.rank := valueAt_strictMono.lt_iff_lt.mp less
  by_contra beyond
  have ordered : e.rank ≤ d.rank := e.ranksNearest_rank.le (not_lt.mp beyond) d.ranksNearest_rank
  omega

/-- A number that is read as a magnitude is not nearer to another one. -/
theorem ReadsBack.nearest (reads : ReadsBack m x) (other : Magnitude) : |x - m.value| ≤ |x - other.value| := by
  cases reads with
  | finite _ nearest _ => exact nearest other

/-- The larger of two magnitudes is shown no smaller, also when one of them is rounded and the other is not. -/
theorem IsShown.le (here : IsShown m digits x) (there : IsShown m' digits y) (ordered : m.value ≤ m'.value) : x ≤ y := by
  rcases ordered.eq_or_lt with same | less
  · obtain rfl := Magnitude.value_injective same
    exact (here.unique there).le
  by_contra beyond
  have greater : y < x := not_le.mp beyond
  cases here with
  | shortest fits shortest =>
    cases there with
    | shortest _ shortest' =>
      exact beyond (shortest.holds.lt shortest.hasDigits shortest'.hasDigits shortest'.holds less).le
    | rounded _ rounded' =>
      -- The rounded number would be nearer than the shortest one, which then lies above both magnitudes.
      have middle := middle_of_nearer_left greater (rounded'.closest x (shortest.hasDigits.mono fits) trivial)
      have nearest := shortest.holds.nearest m'
      rw [abs_of_nonneg (by linarith), abs_of_nonneg (by linarith)] at nearest
      linarith
  | rounded _ rounded =>
    cases there with
    | shortest fits' shortest' =>
      have middle := middle_of_nearer_right greater (rounded.closest y (shortest'.hasDigits.mono fits') trivial)
      have nearest := shortest'.holds.nearest m
      rw [abs_sub_comm, abs_of_nonneg (by linarith), abs_sub_comm, abs_of_nonneg (by linarith)] at nearest
      linarith
    | rounded _ rounded' =>
      have low := middle_of_nearer_right greater (rounded.closest y rounded'.hasDigits trivial)
      have high := middle_of_nearer_left greater (rounded'.closest x rounded.hasDigits trivial)
      linarith

namespace Magnitude

theorem shownNumber_nonneg (m : Magnitude) (digits : Nat) : 0 ≤ m.shownNumber digits := by
  rw [shownNumber]
  split
  · exact le_rfl
  · exact Decimal.value_nonneg _

theorem shownNumber_le (some_digit : 1 ≤ digits) (ordered : m.quanta ≤ m'.quanta) :
    m.shownNumber digits ≤ m'.shownNumber digits := by
  by_cases zero : m.rank = 0
  · rw [shownNumber, if_pos zero]
    exact m'.shownNumber_nonneg digits
  · have ranks : m.rank ≤ m'.rank := quantaAt_strictMono.le_iff_le.mp ordered
    have some_rank : m'.rank ≠ 0 := by omega
    rw [shownNumber, if_neg zero, shownNumber, if_neg some_rank]
    exact (isShown_significant zero some_digit).le (isShown_significant some_rank some_digit)
      (valueAt_strictMono.monotone ranks)

theorem shownNumber_of_quanta_eq_zero (none : m.quanta = 0) : m.shownNumber digits = 0 := by
  have zero : m.rank = 0 := by
    by_contra some_rank
    exact absurd none (quanta_pos some_rank).ne'
  rw [shownNumber, if_pos zero]

/-- Below zero the order of the magnitudes is turned round, before and after rounding. -/
theorem signed_shownNumber_le (some_digit : 1 ≤ digits) {negative negative' : Bool}
    (ordered : Binary64.signedQuanta negative m ≤ Binary64.signedQuanta negative' m') :
    signed negative (m.shownNumber digits) ≤ signed negative' (m'.shownNumber digits) := by
  have here := m.shownNumber_nonneg digits
  have there := m'.shownNumber_nonneg digits
  cases negative <;> cases negative' <;>
    simp only [signed, Binary64.signedQuanta, Bool.false_eq_true, if_true, if_false] at ordered ⊢
  · exact shownNumber_le some_digit (by omega)
  · rw [shownNumber_of_quanta_eq_zero (by omega : m.quanta = 0), shownNumber_of_quanta_eq_zero (by omega : m'.quanta = 0),
      neg_zero]
  · linarith
  · exact neg_le_neg (shownNumber_le some_digit (by omega))

end Magnitude

end Order

/-- Displays keep the order of the values, whatever is rounded and whichever layouts the thresholds choose. Zero of either
sign is shown as zero. -/
theorem display_keeps_order (settings : Settings) {digits : Nat} (some_digit : 1 ≤ digits) (few : digits ≤ 17)
    {negative negative' : Bool} {m m' : Magnitude}
    (ordered : Binary64.signedQuanta negative m ≤ Binary64.signedQuanta negative' m') :
    ∃ shown shown' x x', settings.display (some digits) (.finite negative m) = .ok shown ∧
      settings.display (some digits) (.finite negative' m') = .ok shown' ∧ readNumber? shown = some x ∧
      readNumber? shown' = some x' ∧ x ≤ x' ∧ (m.rank = 0 → shown = "0") ∧ (m'.rank = 0 → shown' = "0") := by
  obtain ⟨shown, displayed, read⟩ := settings.exists_display some_digit few negative m
  obtain ⟨shown', displayed', read'⟩ := settings.exists_display some_digit few negative' m'
  refine ⟨shown, shown', _, _, displayed, displayed', read, read', Magnitude.signed_shownNumber_le some_digit ordered,
    fun zero => ?_, fun zero => ?_⟩
  · exact Except.ok.inj (displayed.symm.trans (Settings.display_zero some_digit few zero))
  · exact Except.ok.inj (displayed'.symm.trans (Settings.display_zero some_digit few zero))

/-- The smaller value is rounded, and the larger one has digits enough. -/
theorem display_keeps_order_rounded :
    1 ≤ 13 ∧ 13 ≤ 17 ∧ Binary64.signedQuanta false ⟨0x426d1a94a2000ccd, by decide⟩ ≤
        Binary64.signedQuanta false ⟨0x426d1a94a2002000, by decide⟩ ∧
      ({} : Settings).display (some 13) (.finite false ⟨0x426d1a94a2000ccd, by decide⟩) = .ok "1.e+12" ∧
      ({} : Settings).display (some 13) (.finite false ⟨0x426d1a94a2002000, by decide⟩) = .ok "1.000000000001e+12" ∧
      ∃ x x', readNumber? "1.e+12" = some x ∧ readNumber? "1.000000000001e+12" = some x' ∧ x ≤ x' := by
  have ordered : Binary64.signedQuanta false ⟨0x426d1a94a2000ccd, by decide⟩ ≤
      Binary64.signedQuanta false ⟨0x426d1a94a2002000, by decide⟩ := by
    decide +kernel
  have rounded : ({} : Settings).display (some 13) (.finite false ⟨0x426d1a94a2000ccd, by decide⟩) = .ok "1.e+12" := by
    decide +kernel
  have whole : ({} : Settings).display (some 13) (.finite false ⟨0x426d1a94a2002000, by decide⟩) =
      .ok "1.000000000001e+12" := by
    decide +kernel
  obtain ⟨shown, shown', x, x', displayed, displayed', read, read', order, -, -⟩ :=
    display_keeps_order {} (show 1 ≤ 13 by decide) (by decide) ordered
  obtain rfl : "1.e+12" = shown := Except.ok.inj (rounded.symm.trans displayed)
  obtain rfl : "1.000000000001e+12" = shown' := Except.ok.inj (whole.symm.trans displayed')
  exact ⟨by decide, by decide, ordered, rounded, whole, x, x', read, read', order⟩

end Reckoner

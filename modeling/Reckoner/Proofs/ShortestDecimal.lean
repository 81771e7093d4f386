import Reckoner.Proofs.SignificantDigits

namespace Reckoner

/-- A number is read as the magnitude. -/
def ReadsBack (m : Magnitude) (x : ℚ) : Prop := NearestDouble x (.finite false m)

/-- What is closest to a magnitude among the numbers that are read as it, when fewer digits are enough for none. -/
structure IsShortest (m : Magnitude) (count : Nat) (x : ℚ) : Prop extends Closest (ReadsBack m) m.value count x where
  fewest : ∀ fewer < count, ∀ y, HasDigits fewer y → ¬ReadsBack m y

/-- The number to show of a magnitude: the shortest one that is read as it, and when there are not digits enough for any
such number the value rounded to as many digits as there are. -/
inductive IsShown (m : Magnitude) (digits : Nat) (x : ℚ) : Prop
  | shortest {count : Nat} (fits : count ≤ digits) (shortest : IsShortest m count x)
  | rounded (long : ∀ y, HasDigits digits y → ¬ReadsBack m y) (rounded : Closest (fun _ => True) m.value digits x)

section Reading

variable {m : Magnitude} {d e : Decimal} {x y : ℚ} {count digits : Nat}

theorem readsBack_value_iff : ReadsBack m d.value ↔ d.rank = m.rank := by
  have nearest : d.nearest false = .ofRank false d.rank := rfl
  constructor
  · intro reads
    have same := d.nearestDouble.unique reads
    rw [nearest, Binary64.ofRank] at same
    split at same
    · cases same
      rfl
    · cases same
  · intro same
    have finite : d.nearest false = .finite false m := by rw [nearest, Binary64.ofRank, same, dif_pos m.rank_lt]
    rw [ReadsBack, ← finite]
    exact d.nearestDouble

theorem readsBack_multiple_iff (multiple : Nat) (place : Int) :
    ReadsBack m (multiple * 10 ^ place) ↔ (⟨multiple, place⟩ : Decimal).rank = m.rank :=
  readsBack_value_iff (d := ⟨multiple, place⟩)

theorem readsBack_self (m : Magnitude) : ReadsBack m m.value := by
  have nearest := nearestDouble_ofRank (ranksNearest_valueAt m.rank)
  rw [Binary64.ofRank, dif_pos m.rank_lt] at nearest
  exact nearest

/-- Reading keeps the order, so that what lies between a magnitude and a number that is read as it is read as it too. -/
theorem rank_of_between (reads : d.rank = m.rank)
    (between : d.value ≤ e.value ∧ e.value ≤ m.value ∨ m.value ≤ e.value ∧ e.value ≤ d.value) : e.rank = m.rank := by
  have self := ranksNearest_valueAt m.rank
  rcases between with ⟨low, high⟩ | ⟨low, high⟩
  · have least : d.rank ≤ e.rank := d.ranksNearest_rank.le low e.ranksNearest_rank
    have most : e.rank ≤ m.rank := e.ranksNearest_rank.le high self
    omega
  · have least : m.rank ≤ e.rank := self.le low e.ranksNearest_rank
    have most : e.rank ≤ d.rank := e.ranksNearest_rank.le high d.ranksNearest_rank
    omega

/-- With a number below the leading power of ten that power is read as the magnitude. -/
theorem ReadsBack.rises (some_rank : m.rank ≠ 0) (digits : HasDigits count y) (reads : ReadsBack m y)
    (under : y < 10 ^ Int.log 10 m.value) : ReadsBack m (10 ^ Int.log 10 m.value) := by
  obtain ⟨d, -, rfl⟩ := digits
  have one : (10 : ℚ) ^ Int.log 10 m.value = (⟨1, Int.log 10 m.value⟩ : Decimal).value := by simp [Decimal.value]
  rw [one] at under ⊢
  refine readsBack_value_iff.mpr (rank_of_between (readsBack_value_iff.mp reads) (Or.inl ⟨under.le, ?_⟩))
  rw [← one]
  exact ten_zpow_log_le (m.value_pos some_rank)

theorem not_readsBack_zero (some_rank : m.rank ≠ 0) : ¬ReadsBack m 0 := by
  have zero : (0 : ℚ) = (⟨0, 0⟩ : Decimal).value := by simp [Decimal.value]
  have least : (0 : ℚ) = valueAt 0 := by simp [valueAt, quantaAt]
  have nearest := (⟨0, 0⟩ : Decimal).ranksNearest_rank
  rw [zero, readsBack_value_iff]
  rw [← zero, least] at nearest
  rw [nearest.eq (ranksNearest_valueAt 0)]
  exact some_rank.symm

/-- No number has two numbers to show. -/
theorem IsShortest.unique {more : Nat} (here : IsShortest m count x) (there : IsShortest m more y) : x = y := by
  rcases Nat.lt_trichotomy count more with less | rfl | greater
  · exact absurd here.holds (there.fewest count less x here.hasDigits)
  · exact here.toClosest.unique (readsBack_self m) there.toClosest
  · exact absurd there.holds (here.fewest more greater y there.hasDigits)

theorem IsShown.unique (here : IsShown m digits x) (there : IsShown m digits y) : x = y := by
  cases here with
  | shortest fits shortest =>
    cases there with
    | shortest _ shortestToo => exact shortest.unique shortestToo
    | rounded long _ => exact absurd shortest.holds (long x (shortest.hasDigits.mono fits))
  | rounded long rounded =>
    cases there with
    | shortest fits shortest => exact absurd shortest.holds (long y (shortest.hasDigits.mono fits))
    | rounded _ roundedToo => exact rounded.unique trivial roundedToo

end Reading

namespace Decimal

variable {d e : Decimal} {count : Nat}

/-- The coefficient does not end in a zero. -/
def IsTrimmed (d : Decimal) : Prop := d.coefficient % 10 ≠ 0

theorem isTrimmed_trim (nonzero : d.coefficient ≠ 0) : d.trim.IsTrimmed := by
  fun_induction trim d with
  | case1 d zeros ih => exact ih (by dsimp only; omega)
  | case2 d done => exact fun zero => done ⟨nonzero, zero⟩

theorem length_digits_le_iff (some_digit : 0 < count) : d.digits.length ≤ count ↔ d.coefficient < 10 ^ count :=
  Nat.length_toDigits_le_iff (by decide) some_digit

/-- The finer of two ways to write a number has the other's digits and zeros behind them. -/
theorem coefficient_eq {zeros : Nat} (same : e.value = d.value) (exponent : e.exponent + zeros = d.exponent) :
    e.coefficient = d.coefficient * 10 ^ zeros := by
  rw [value, value, ← exponent, zpow_add₀ (by norm_num), zpow_natCast, mul_comm ((10 : ℚ) ^ e.exponent),
    ← mul_assoc] at same
  exact_mod_cast mul_right_cancel₀ (ten_zpow_pos e.exponent).ne' same

/-- Without zeros at its end a number has the coarsest exponent that it can be written with. -/
theorem IsTrimmed.exists_zeros (trimmed : d.IsTrimmed) (same : e.value = d.value) :
    ∃ zeros : Nat, e.exponent + zeros = d.exponent ∧ e.coefficient = d.coefficient * 10 ^ zeros := by
  rcases Int.le_total e.exponent d.exponent with finer | coarser
  · obtain ⟨zeros, exponent⟩ := Int.le.dest finer
    exact ⟨zeros, exponent, coefficient_eq same exponent⟩
  · obtain ⟨zeros, exponent⟩ := Int.le.dest coarser
    have scaled := coefficient_eq same.symm exponent
    cases zeros with
    | zero => exact ⟨0, by omega, by omega⟩
    | succ more =>
      refine absurd ?_ trimmed
      rw [scaled, Nat.pow_succ, ← Nat.mul_assoc]
      exact Nat.mul_mod_left _ _

/-- There is one way to write a number without zeros at its end. -/
theorem IsTrimmed.eq (trimmed : d.IsTrimmed) (trimmed' : e.IsTrimmed) (same : e.value = d.value) : e = d := by
  obtain ⟨zeros, exponent, coefficient⟩ := trimmed.exists_zeros same
  obtain ⟨zeros', exponent', -⟩ := trimmed'.exists_zeros same.symm
  obtain rfl : zeros = 0 := by omega
  rw [Nat.pow_zero, Nat.mul_one] at coefficient
  have place : e.exponent = d.exponent := by omega
  cases d
  cases e
  rw [Decimal.mk.injEq]
  exact ⟨coefficient, place⟩

/-- Without zeros at its end no number can do with fewer digits than its coefficient has. -/
theorem IsTrimmed.hasDigits_iff (trimmed : d.IsTrimmed) (some_digit : 0 < count) :
    HasDigits count d.value ↔ d.digits.length ≤ count := by
  rw [length_digits_le_iff some_digit]
  refine ⟨fun digits => ?_, fun bound => ⟨d, bound, rfl⟩⟩
  obtain ⟨e, bound, same⟩ := digits
  obtain ⟨zeros, -, coefficient⟩ := trimmed.exists_zeros same
  have least : d.coefficient ≤ d.coefficient * 10 ^ zeros := Nat.le_mul_of_pos_right _ (Nat.pow_pos (by decide))
  omega

theorem coefficient_ne_zero (nonzero : d.value ≠ 0) : d.coefficient ≠ 0 := by
  intro zero
  rw [value, zero, Nat.cast_zero, zero_mul] at nonzero
  exact nonzero rfl

end Decimal

/-- Of two candidates the first one that passes is found. -/
theorem findSome?_pair {α β : Type} (passes : α → Prop) [DecidablePred passes] (result : α → β) (first second : α) :
    ([first, second].findSome? fun candidate => if passes candidate then some (result candidate) else none) =
      if passes first then some (result first) else if passes second then some (result second) else none := by
  by_cases found : passes first
  · simp [found]
  · by_cases foundNext : passes second <;> simp [found, foundNext]

namespace Magnitude

variable {m : Magnitude} {place : Int} {other : Nat}

/-- The whole number of steps of a power of ten that a magnitude reaches. -/
def stepsBelow (m : Magnitude) (place : Int) : Nat := (m.ratioAt place).1 / (m.ratioAt place).2

/-- Of the two numbers of steps next to a magnitude the one that is not the nearest. -/
def farSteps (m : Magnitude) (place : Int) : Nat :=
  if m.nearSteps place = m.stepsBelow place then m.stepsBelow place + 1 else m.stepsBelow place

theorem roundedAt_eq (m : Magnitude) (place : Int) : m.roundedAt place = ⟨m.nearSteps place, place⟩ := by
  unfold roundedAt nearSteps
  obtain ⟨⟨numerator, denominator⟩, ratio⟩ : ∃ ratio, m.ratioAt place = ratio := ⟨_, rfl⟩
  rw [ratio]

theorem readableAt?_eq (m : Magnitude) (place : Int) : m.readableAt? place =
    if (⟨m.nearSteps place, place⟩ : Decimal).rank = m.rank then some ⟨m.nearSteps place, place⟩
    else if (⟨m.farSteps place, place⟩ : Decimal).rank = m.rank then some ⟨m.farSteps place, place⟩ else none := by
  unfold readableAt? farSteps nearSteps stepsBelow
  obtain ⟨⟨numerator, denominator⟩, ratio⟩ : ∃ ratio, m.ratioAt place = ratio := ⟨_, rfl⟩
  rw [ratio]
  exact findSome?_pair (fun steps => (⟨steps, place⟩ : Decimal).rank = m.rank)
    (fun steps => (⟨steps, place⟩ : Decimal)) (nearestEven numerator denominator) _

theorem neighbours (m : Magnitude) (place : Int) :
    m.nearSteps place = m.stepsBelow place ∧ m.farSteps place = m.stepsBelow place + 1 ∨
      m.nearSteps place = m.stepsBelow place + 1 ∧ m.farSteps place = m.stepsBelow place := by
  have next : m.nearSteps place = m.stepsBelow place ∨ m.nearSteps place = m.stepsBelow place + 1 := by
    unfold nearSteps stepsBelow nearestEven
    obtain ⟨floor, isFloor⟩ : ∃ floor, floor = (m.ratioAt place).1 / (m.ratioAt place).2 := ⟨_, rfl⟩
    dsimp only
    rw [← isFloor]
    split
    · exact Or.inl rfl
    · split
      · exact Or.inr rfl
      · omega
  rcases next with same | above
  · exact Or.inl ⟨same, if_pos same⟩
  · exact Or.inr ⟨above, if_neg (by omega)⟩

theorem stepsBelow_le (m : Magnitude) (place : Int) : m.stepsBelow place * 10 ^ place ≤ m.value := by
  rw [← le_div_iff₀ (ten_zpow_pos place), ← ratioAt_eq]
  exact Nat.cast_div_le

theorem lt_stepsBelow (m : Magnitude) (place : Int) : m.value < (m.stepsBelow place + 1 : Nat) * 10 ^ place := by
  have parts : (0 : ℚ) < (m.ratioAt place).2 := Nat.cast_pos.mpr (m.ratioAt_pos place)
  rw [← div_lt_iff₀ (ten_zpow_pos place), ← ratioAt_eq, div_lt_iff₀ parts, mul_comm]
  exact_mod_cast Nat.lt_mul_div_succ (m.ratioAt place).1 (m.ratioAt_pos place)

theorem steps_le {fewer more : Nat} (place : Int) (ordered : fewer ≤ more) :
    (fewer : ℚ) * 10 ^ place ≤ more * 10 ^ place :=
  mul_le_mul_of_nonneg_right (Nat.cast_le.mpr ordered) (ten_zpow_pos place).le

/-- With any number of steps the one next to the magnitude on that side is read as it. -/
theorem readsBack_neighbour (reads : ReadsBack m (other * 10 ^ place)) :
    other ≤ m.stepsBelow place ∧ ReadsBack m (m.stepsBelow place * 10 ^ place) ∨
      m.stepsBelow place + 1 ≤ other ∧ ReadsBack m ((m.stepsBelow place + 1 : Nat) * 10 ^ place) := by
  rw [readsBack_multiple_iff] at reads ⊢
  rw [readsBack_multiple_iff]
  rcases Nat.lt_or_ge (m.stepsBelow place) other with above | below
  · exact Or.inr ⟨above, rank_of_between reads (Or.inr ⟨(m.lt_stepsBelow place).le, steps_le place above⟩)⟩
  · exact Or.inl ⟨below, rank_of_between reads (Or.inl ⟨steps_le place below, m.stepsBelow_le place⟩)⟩

/-- When the nearest number of steps is not read as the magnitude, all that are lie on the other side of it, and the
first of them is the closest. -/
theorem farSteps_closest (unread : ¬ReadsBack m (m.nearSteps place * 10 ^ place))
    (reads : ReadsBack m (other * 10 ^ place)) : ReadsBack m (m.farSteps place * 10 ^ place) ∧
      (other ≠ m.farSteps place → |m.farSteps place * 10 ^ place - m.value| < |other * 10 ^ place - m.value|) := by
  have low := m.stepsBelow_le place
  have high := m.lt_stepsBelow place
  have power := ten_zpow_pos place
  rcases m.neighbours place with ⟨near, far⟩ | ⟨near, far⟩ <;> rw [near] at unread <;> rw [far]
  · obtain ⟨above, next⟩ := (readsBack_neighbour reads).resolve_left fun below => unread below.2
    refine ⟨next, fun different => ?_⟩
    have further : ((m.stepsBelow place + 1 : Nat) : ℚ) * 10 ^ place < other * 10 ^ place :=
      mul_lt_mul_of_pos_right (Nat.cast_lt.mpr (by omega)) power
    rw [abs_of_nonneg (by linarith), abs_of_nonneg (by linarith)]
    linarith
  · obtain ⟨below, previous⟩ := (readsBack_neighbour reads).resolve_right fun above => unread above.2
    refine ⟨previous, fun different => ?_⟩
    have further : (other : ℚ) * 10 ^ place < m.stepsBelow place * 10 ^ place :=
      mul_lt_mul_of_pos_right (Nat.cast_lt.mpr (by omega)) power
    rw [abs_sub_comm, abs_of_nonneg (by linarith), abs_sub_comm, abs_of_nonneg (by linarith)]
    linarith

theorem not_readsBack_of_readableAt? (unread : m.readableAt? place = none) (other : Nat) :
    ¬ReadsBack m (other * 10 ^ place) := by
  rw [readableAt?_eq] at unread
  split at unread
  · cases unread
  · rename_i nearUnread
    split at unread
    · cases unread
    · rename_i farUnread
      rw [← readsBack_multiple_iff] at nearUnread farUnread
      exact fun reads => farUnread (farSteps_closest nearUnread reads).1

/-- What is found at a place is the closest of its multiples that are read as the magnitude. -/
theorem closest_of_readableAt? {d : Decimal} (found : m.readableAt? place = some d) :
    ∃ steps : Nat, d = ⟨steps, place⟩ ∧ steps ≤ m.stepsBelow place + 1 ∧ ReadsBack m (steps * 10 ^ place) ∧
      ∀ other : Nat, other ≠ steps → ReadsBack m (other * 10 ^ place) →
        |steps * 10 ^ place - m.value| ≤ |other * 10 ^ place - m.value| ∧
          (|steps * 10 ^ place - m.value| = |other * 10 ^ place - m.value| → steps % 2 = 0) := by
  have next := m.neighbours place
  rw [readableAt?_eq] at found
  split at found
  · rename_i reads
    exact ⟨_, (Option.some.inj found).symm, by omega, (readsBack_multiple_iff _ _).mpr reads,
      fun other different _ => closest_nearSteps different⟩
  · rename_i unread
    split at found
    · rename_i reads
      rw [← readsBack_multiple_iff] at unread
      refine ⟨_, (Option.some.inj found).symm, by omega, (readsBack_multiple_iff _ _).mpr reads,
        fun other different readsToo => ?_⟩
      have closer := (farSteps_closest unread readsToo).2 different
      exact ⟨closer.le, fun same => absurd same closer.ne⟩
    · cases found

/-- The search ends at the first place where something is found. -/
theorem exists_found {fuel : Nat} (finest : (m.roundedAt (place - fuel)).rank = m.rank) :
    ∃ finer : Nat, m.readableAt? (place - finer) = some (m.shortestFrom fuel place) ∧
      ∀ coarser < finer, m.readableAt? (place - coarser) = none := by
  induction fuel generalizing place with
  | zero =>
    have here : place - (0 : Nat) = place := by omega
    rw [here, roundedAt_eq] at finest
    refine ⟨0, ?_, fun coarser less => absurd less (Nat.not_lt_zero coarser)⟩
    rw [here, shortestFrom, readableAt?_eq, if_pos finest, roundedAt_eq]
  | succ fuel ih =>
    rw [shortestFrom]
    cases found : m.readableAt? place with
    | some d =>
      refine ⟨0, ?_, fun coarser less => absurd less (Nat.not_lt_zero coarser)⟩
      have here : place - (0 : Nat) = place := by omega
      rw [here, found, Option.getD_some]
    | none =>
      have next : place - 1 - fuel = place - (fuel + 1 : Nat) := by omega
      obtain ⟨finer, found', unread⟩ := ih (next ▸ finest)
      refine ⟨finer + 1, ?_, fun coarser less => ?_⟩
      · have same : place - (finer + 1 : Nat) = place - 1 - finer := by omega
        rw [same, found', Option.getD_none]
      · cases coarser with
        | zero =>
          have here : place - (0 : Nat) = place := by omega
          rw [here, found]
        | succ coarser =>
          have same : place - (coarser + 1 : Nat) = place - 1 - coarser := by omega
          rw [same]
          exact unread coarser (by omega)

/-- Fewer digits would have been found at a coarser place, or the power of ten at the leading place instead. -/
theorem not_readsBack_of_fewer (some_rank : m.rank ≠ 0) {finer fewer : Nat} {y : ℚ}
    (unread : ∀ coarser < finer, m.readableAt? (m.leading - coarser) = none) (less : fewer ≤ finer)
    (digits : HasDigits fewer y) : ¬ReadsBack m y := by
  intro reads
  cases fewer with
  | zero =>
    obtain ⟨d, none, rfl⟩ := digits
    have zero : d.value = 0 := by
      rw [Decimal.value, Nat.lt_one_iff.mp none, Nat.cast_zero, zero_mul]
    exact not_readsBack_zero some_rank (zero ▸ reads)
  | succ fewer =>
    have coarser : m.leading + 1 - (fewer + 1 : Nat) = m.leading - fewer := by omega
    have unreadHere := not_readsBack_of_readableAt? (unread fewer less)
    rcases digits.multiple_or_lt m.leading with ⟨other, rfl⟩ | under
    · rw [coarser] at reads
      exact unreadHere other reads
    · rw [← log_value some_rank] at under
      have power := reads.rises some_rank digits under
      have onGrid : (10 : ℚ) ^ m.leading = (10 ^ fewer : Nat) * 10 ^ (m.leading - fewer) := by
        have exponent : m.leading = fewer + (m.leading - fewer) := by omega
        rw [Nat.cast_pow, Nat.cast_ofNat, ← zpow_natCast, ← zpow_add₀ (by norm_num), ← exponent]
      rw [log_value some_rank, onGrid] at power
      exact unreadHere _ power

/-- The search for a shortest decimal finds one. -/
theorem exists_isShortest (some_rank : m.rank ≠ 0) : ∃ count, IsShortest m count m.shortest.value := by
  have finest : (m.roundedAt (m.leading - (16 : Nat))).rank = m.rank := rank_rounded_seventeen some_rank
  obtain ⟨finer, found, unread⟩ := exists_found finest
  obtain ⟨steps, decimal, bound, reads, closest⟩ := closest_of_readableAt? found
  have place : m.leading - finer = lastPlace m.value (finer + 1) := by
    rw [lastPlace, log_value some_rank]
    omega
  have few : m.stepsBelow (lastPlace m.value (finer + 1)) < 10 ^ (finer + 1) :=
    Nat.div_lt_of_lt_mul (m.ratioAt_lastPlace_lt (finer + 1))
  have value : m.shortest.value = steps * 10 ^ lastPlace m.value (finer + 1) := by
    rw [shortest, Decimal.value_trim, decimal, place, Decimal.value]
  rw [place] at reads closest bound
  refine ⟨finer + 1, ?_, fun fewer less y digits =>
    not_readsBack_of_fewer some_rank unread (Nat.le_of_lt_succ less) digits⟩
  rw [value]
  refine closest_of_multiples (value_pos some_rank) (Nat.succ_pos finer) (by omega)
    (fun y digits readsToo under => readsToo.rises some_rank digits under) reads (fun other readsToo => ?_)
    fun other different readsToo => (closest other different readsToo).2
  by_cases equal : other = steps
  · rw [equal]
  · exact (closest other equal readsToo).1

/-- A rounded value is nearer than zero is. -/
theorem value_rounded_pos (some_rank : m.rank ≠ 0) {digits : Nat} (some_digit : 0 < digits) :
    0 < (m.rounded digits).value := by
  have power := ten_zpow_pos (Int.log 10 m.value)
  have leads := ten_zpow_log_le (value_pos some_rank)
  have one : HasDigits digits (10 ^ Int.log 10 m.value) := by
    have digit := hasDigits_of_le (Int.log 10 m.value) some_digit (Nat.one_le_pow digits 10 (by decide))
    rwa [Nat.cast_one, one_mul] at digit
  have near := (closest_rounded some_rank some_digit).closest _ one trivial
  rw [abs_sub_comm (10 ^ Int.log 10 m.value), abs_of_nonneg (sub_nonneg.mpr leads)] at near
  linarith [neg_abs_le ((m.rounded digits).value - m.value)]

theorem isTrimmed_shortest (some_rank : m.rank ≠ 0) : m.shortest.IsTrimmed := by
  obtain ⟨count, shortest⟩ := exists_isShortest some_rank
  refine Decimal.isTrimmed_trim (Decimal.coefficient_ne_zero fun zero => ?_)
  rw [Magnitude.shortest, Decimal.value_trim, zero] at shortest
  exact not_readsBack_zero some_rank shortest.holds

theorem isTrimmed_significant (some_rank : m.rank ≠ 0) {digits : Nat} (some_digit : 0 < digits) :
    (m.significant digits).IsTrimmed := by
  simp only [significant]
  split
  · exact isTrimmed_shortest some_rank
  · exact Decimal.isTrimmed_trim (Decimal.coefficient_ne_zero (value_rounded_pos some_rank some_digit).ne')

/-- There are digits enough for the shortest decimal when some number of so few digits is read as the magnitude. -/
theorem length_shortest_le_iff (some_rank : m.rank ≠ 0) {digits : Nat} (some_digit : 0 < digits) :
    m.shortest.digits.length ≤ digits ↔ ∃ y, HasDigits digits y ∧ ReadsBack m y := by
  obtain ⟨count, shortest⟩ := exists_isShortest some_rank
  rw [← (isTrimmed_shortest some_rank).hasDigits_iff some_digit]
  refine ⟨fun fits => ⟨_, fits, shortest.holds⟩, fun ⟨y, few, reads⟩ => shortest.hasDigits.mono ?_⟩
  by_contra long
  exact shortest.fewest digits (by omega) y few reads

theorem isShown_significant (some_rank : m.rank ≠ 0) {digits : Nat} (some_digit : 0 < digits) :
    IsShown m digits (m.significant digits).value := by
  simp only [significant]
  split
  · rename_i fits
    obtain ⟨count, shortest⟩ := exists_isShortest some_rank
    refine .shortest ?_ shortest
    have few := ((isTrimmed_shortest some_rank).hasDigits_iff some_digit).mpr fits
    by_contra long
    exact shortest.fewest digits (by omega) _ few shortest.holds
  · rename_i long
    rw [length_shortest_le_iff some_rank some_digit] at long
    rw [Decimal.value_trim]
    exact .rounded (fun y few reads => long ⟨y, few, reads⟩) (closest_rounded some_rank some_digit)

end Magnitude

end Reckoner

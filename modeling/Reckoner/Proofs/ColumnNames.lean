import Mathlib.Data.List.Nodup
import Mathlib.Data.List.Perm.Subperm
import Reckoner.Loading
import Std.Data.String.ToNat

namespace Reckoner

theorem numbered_injective (base : String) : Function.Injective fun number : Nat => s!"{base}.{number}" := by
  intro number other same
  have texts := congrArg String.toList same
  simp only [String.toList_append] at texts
  have digits := String.toList_inj.mp (List.append_cancel_left texts)
  exact Nat.repr_injective digits

theorem mem_of_freshName {taken : List String} {base : String} {fuel number : Nat}
    (occupied : freshName taken base fuel number ∈ taken) (k : Nat) (within : k ≤ fuel) :
    s!"{base}.{number + k}" ∈ taken := by
  induction fuel generalizing number k with
  | zero =>
    obtain rfl := Nat.le_zero.mp within
    exact occupied
  | succ fuel ih =>
    rw [freshName] at occupied
    split at occupied
    · rename_i here
      cases k with
      | zero => exact List.contains_iff_mem.mp here
      | succ k =>
        have later := ih occupied k (Nat.le_of_succ_le_succ within)
        rwa [Nat.add_assoc, Nat.add_comm 1] at later
    · rename_i free
      exact absurd (List.contains_iff_mem.mpr occupied) free

/-- Among as many numbers and one more there is one that makes a name that is not taken. -/
theorem freshName_not_mem (taken : List String) (base : String) (number : Nat) :
    freshName taken base taken.length number ∉ taken := by
  intro occupied
  have distinct : ((List.range (taken.length + 1)).map fun k => s!"{base}.{number + k}").Nodup :=
    List.nodup_range.map fun k other same => Nat.add_left_cancel (numbered_injective base same)
  have inside : ((List.range (taken.length + 1)).map fun k => s!"{base}.{number + k}") ⊆ taken := by
    intro name member
    obtain ⟨k, bound, rfl⟩ := List.mem_map.mp member
    exact mem_of_freshName occupied k (Nat.le_of_lt_succ (List.mem_range.mp bound))
  have fewer := (distinct.subperm inside).length_le
  rw [List.length_map, List.length_range] at fewer
  omega

theorem freshName_ne_empty (taken : List String) (base : String) (fuel number : Nat) :
    freshName taken base fuel number ≠ "" := by
  have numbered (k : Nat) : s!"{base}.{k}" ≠ "" := by
    intro empty
    have texts := congrArg String.toList empty
    simp [String.toList_append] at texts
  induction fuel generalizing number with
  | zero => exact numbered number
  | succ fuel ih =>
    rw [freshName]
    split
    · exact ih (number + 1)
    · exact numbered number

namespace Naming

variable {naming : Naming} {name : String} {place other first : Nat} {places : List Nat}

/-- What it does to settle a name: one that was not given yet stays, and another makes way for a name that no column
has. -/
theorem settle_cases (naming : Naming) (place : Nat) :
    (naming.counts.lookup (naming.names.getD place "") = none ∧
      naming.settle place = ⟨naming.names, (naming.names.getD place "", 1) :: naming.counts⟩) ∨
    ∃ number fresh, naming.counts.lookup (naming.names.getD place "") = some number ∧ fresh ∉ naming.names ∧
      fresh ≠ "" ∧ naming.settle place = ⟨naming.names.set place fresh,
        (fresh, 1) :: (naming.names.getD place "", number + 1) :: naming.counts⟩ := by
  cases given : naming.counts.lookup (naming.names.getD place "") with
  | none => exact Or.inl ⟨rfl, by simp only [settle, given]⟩
  | some number =>
    have fresh := freshName_not_mem naming.names (naming.names.getD place "") number
    have filled := freshName_ne_empty naming.names (naming.names.getD place "") naming.names.length number
    exact Or.inr ⟨number, _, rfl, fresh, filled, by simp only [settle, given]⟩

theorem length_settle (naming : Naming) (place : Nat) :
    (naming.settle place).names.length = naming.names.length := by
  rcases naming.settle_cases place with ⟨-, settled⟩ | ⟨number, fresh, -, -, -, settled⟩
  · rw [settled]
  · rw [settled, List.length_set]

theorem getD_settle_of_ne (apart : other ≠ place) :
    (naming.settle place).names.getD other "" = naming.names.getD other "" := by
  rcases naming.settle_cases place with ⟨-, settled⟩ | ⟨number, fresh, -, -, -, settled⟩
  · rw [settled]
  · simp only [settled, List.getD_eq_getElem?_getD, List.getElem?_set_ne apart.symm]

theorem getD_settle_self (within : place < naming.names.length) :
    (naming.settle place).names.getD place "" = naming.names.getD place "" ∨
      (naming.settle place).names.getD place "" ∉ naming.names := by
  rcases naming.settle_cases place with ⟨-, settled⟩ | ⟨number, fresh, -, free, -, settled⟩
  · exact Or.inl (by rw [settled])
  · refine Or.inr ?_
    rwa [settled, List.getD_eq_getElem?_getD, List.getElem?_set_self within, Option.getD_some]

/-- No further column gets a name that a column has. -/
theorem getD_settle_ne (within : place < naming.names.length) (taken : name ∈ naming.names)
    (differs : naming.names.getD other "" ≠ name) : (naming.settle place).names.getD other "" ≠ name := by
  by_cases here : other = place
  · subst here
    rcases naming.getD_settle_self within with same | free
    · rwa [same]
    · rintro rfl
      exact free taken
  · rwa [getD_settle_of_ne here]

/-- A name that was given is not given again. -/
theorem getD_settle_of_given (within : place < naming.names.length) (taken : name ∈ naming.names)
    (given : (naming.counts.lookup name).isSome) : (naming.settle place).names.getD place "" ≠ name := by
  by_cases same : naming.names.getD place "" = name
  · rcases naming.settle_cases place with ⟨none, -⟩ | ⟨number, fresh, -, free, -, settled⟩
    · rw [same] at none
      rw [none] at given
      cases given
    · rw [settled, List.getD_eq_getElem?_getD, List.getElem?_set_self within, Option.getD_some]
      rintro rfl
      exact free taken
  · exact getD_settle_ne within taken same

theorem lookup_settle_of_ne (taken : name ∈ naming.names) (differs : naming.names.getD place "" ≠ name) :
    (naming.settle place).counts.lookup name = naming.counts.lookup name := by
  rcases naming.settle_cases place with ⟨-, settled⟩ | ⟨number, fresh, -, free, -, settled⟩
  · rw [settled, List.lookup_cons, beq_false_of_ne differs.symm]
  · have apart : name ≠ fresh := by
      rintro rfl
      exact free taken
    rw [settled, List.lookup_cons, beq_false_of_ne apart, List.lookup_cons, beq_false_of_ne differs.symm]

theorem isSome_lookup_settle (given : naming.names.getD place "" = name ∨ (naming.counts.lookup name).isSome) :
    ((naming.settle place).counts.lookup name).isSome := by
  have kept (counts : List (String × Nat)) (given : (counts.lookup name).isSome) (other : String) (number : Nat) :
      (((other, number) :: counts).lookup name).isSome := by
    rw [List.lookup_cons]
    split
    · rfl
    · exact given
  have own (counts : List (String × Nat)) (number : Nat)
      (given : naming.names.getD place "" = name ∨ (counts.lookup name).isSome) :
      (((naming.names.getD place "", number) :: counts).lookup name).isSome := by
    rcases given with rfl | given
    · rw [List.lookup_cons_self]
      rfl
    · exact kept counts given _ number
  rcases naming.settle_cases place with ⟨-, settled⟩ | ⟨number, fresh, -, -, -, settled⟩
  · rw [settled]
    exact own _ 1 given
  · rw [settled]
    exact kept _ (own _ (number + 1) given) fresh 1

/-- A column has a name. -/
structure Has (naming : Naming) (first : Nat) (name : String) : Prop where
  within : first < naming.names.length
  named : naming.names.getD first "" = name

theorem Has.mem (has : naming.Has first name) : name ∈ naming.names := by
  have named := has.named
  rw [List.getD_eq_getElem?_getD, List.getElem?_eq_getElem has.within, Option.getD_some] at named
  exact named ▸ List.getElem_mem has.within

theorem Has.settle (has : naming.Has first name) (apart : place ≠ first) : (naming.settle place).Has first name := by
  refine ⟨?_, ?_⟩
  · rw [length_settle]
    exact has.within
  · rw [getD_settle_of_ne apart.symm]
    exact has.named

theorem Has.names_settle_self (has : naming.Has first name) (none : naming.counts.lookup name = none) :
    (naming.settle first).names = naming.names := by
  rcases naming.settle_cases first with ⟨-, settled⟩ | ⟨number, fresh, given, -⟩
  · rw [settled]
  · rw [has.named, none] at given
    cases given

/-- While other names are settled, a name that was not given yet stays so. -/
theorem Has.settle_before (has : naming.Has first name) (none : naming.counts.lookup name = none)
    (others : ∀ place ∈ places,
      place < naming.names.length ∧ place ≠ first ∧ naming.names.getD place "" ≠ name) :
    (places.foldl Naming.settle naming).Has first name ∧
      (places.foldl Naming.settle naming).names.length = naming.names.length ∧
      (places.foldl Naming.settle naming).counts.lookup name = Option.none ∧
      ∀ other, naming.names.getD other "" ≠ name → (places.foldl Naming.settle naming).names.getD other "" ≠ name := by
  induction places generalizing naming with
  | nil => exact ⟨has, rfl, none, fun _ differs => differs⟩
  | cons place places ih =>
    obtain ⟨within, apart, differs⟩ := others place List.mem_cons_self
    have later : ∀ next ∈ places, next < (naming.settle place).names.length ∧ next ≠ first ∧
        (naming.settle place).names.getD next "" ≠ name := by
      intro next member
      obtain ⟨nextWithin, nextApart, nextDiffers⟩ := others next (List.mem_cons_of_mem _ member)
      exact ⟨length_settle naming place ▸ nextWithin, nextApart, getD_settle_ne within has.mem nextDiffers⟩
    obtain ⟨still, length, stillNone, all⟩ :=
      ih (has.settle apart) ((lookup_settle_of_ne has.mem differs).trans none) later
    exact ⟨still, length.trans (length_settle naming place), stillNone,
      fun other differs => all other (getD_settle_ne within has.mem differs)⟩

/-- Once a name has been given, no column that is settled gets it. -/
theorem Has.settle_after (has : naming.Has first name) (given : (naming.counts.lookup name).isSome)
    (others : ∀ place ∈ places, place < naming.names.length ∧ place ≠ first) :
    (places.foldl Naming.settle naming).Has first name ∧
      ∀ other, other ∈ places ∨ naming.names.getD other "" ≠ name →
        (places.foldl Naming.settle naming).names.getD other "" ≠ name := by
  induction places generalizing naming with
  | nil => exact ⟨has, fun other differs => differs.resolve_left List.not_mem_nil⟩
  | cons place places ih =>
    obtain ⟨within, apart⟩ := others place List.mem_cons_self
    have later : ∀ next ∈ places, next < (naming.settle place).names.length ∧ next ≠ first := by
      intro next member
      obtain ⟨nextWithin, nextApart⟩ := others next (List.mem_cons_of_mem _ member)
      exact ⟨length_settle naming place ▸ nextWithin, nextApart⟩
    obtain ⟨still, all⟩ := ih (has.settle apart) (isSome_lookup_settle (Or.inr given)) later
    refine ⟨still, fun other which => all other ?_⟩
    rcases which with member | differs
    · rcases List.mem_cons.mp member with rfl | member
      · exact Or.inr (getD_settle_of_given within has.mem given)
      · exact Or.inl member
    · exact Or.inr (getD_settle_ne within has.mem differs)

/-- When all names are settled, the one that was first keeps its name and no other column that was settled has it. -/
theorem Has.settle_all {before behind : List Nat} (has : naming.Has first name)
    (none : naming.counts.lookup name = none)
    (front : ∀ place ∈ before,
      place < naming.names.length ∧ place ≠ first ∧ naming.names.getD place "" ≠ name)
    (back : ∀ place ∈ behind, place < naming.names.length ∧ place ≠ first) :
    ((before ++ first :: behind).foldl Naming.settle naming).Has first name ∧
      ∀ other, other ∈ before ∨ other ∈ behind →
        ((before ++ first :: behind).foldl Naming.settle naming).names.getD other "" ≠ name := by
  obtain ⟨still, length, stillNone, apart⟩ := has.settle_before none front
  have same := still.names_settle_self stillNone
  have settled : ((before.foldl Naming.settle naming).settle first).Has first name :=
    ⟨same ▸ still.within, same ▸ still.named⟩
  have given := isSome_lookup_settle (Or.inl still.named)
  rw [List.foldl_append, List.foldl_cons]
  obtain ⟨last, differs⟩ := settled.settle_after given fun place member => by
    rw [same, length]
    exact back place member
  refine ⟨last, fun other member => differs other ?_⟩
  rcases member with member | member
  · exact Or.inr (same ▸ apart other (front other member).2.2)
  · exact Or.inl member

theorem settle_filled (filled : "" ∉ naming.names) : "" ∉ (naming.settle place).names := by
  rcases naming.settle_cases place with ⟨-, settled⟩ | ⟨number, fresh, -, -, freshFilled, settled⟩
  · rwa [settled]
  · rw [settled]
    intro member
    rcases List.mem_or_eq_of_mem_set member with earlier | empty
    · exact filled earlier
    · exact freshFilled empty.symm

end Naming

theorem idxOf?_eq_some_iff_getD {names : List String} {name : String} {first : Nat} :
    names.idxOf? name = some first ↔
      first < names.length ∧ names.getD first "" = name ∧ ∀ other < first, names.getD other "" ≠ name := by
  rw [List.idxOf?_eq_some_iff]
  constructor
  · rintro ⟨within, named, others⟩
    refine ⟨within, ?_, fun other before => ?_⟩
    · rwa [List.getD_eq_getElem?_getD, List.getElem?_eq_getElem within]
    · rw [List.getD_eq_getElem?_getD, List.getElem?_eq_getElem (Nat.lt_trans before within)]
      exact others other before
  · rintro ⟨within, named, others⟩
    rw [List.getD_eq_getElem?_getD, List.getElem?_eq_getElem within, Option.getD_some] at named
    refine ⟨within, named, fun other before => ?_⟩
    have differs := others other before
    rwa [List.getD_eq_getElem?_getD, List.getElem?_eq_getElem (Nat.lt_trans before within), Option.getD_some] at differs

/-- Among the places in the order in which their names are settled, given ones before a given one stand before it. -/
theorem exists_order {count first : Nat} (isGiven : Nat → Bool) (within : first < count)
    (given : isGiven first = true) : ∃ before behind,
      (List.range count).filter isGiven ++ (List.range count).filter (fun place => !isGiven place) =
        before ++ first :: behind ∧
      (∀ place ∈ before, place < first ∧ isGiven place = true) ∧
      (∀ place ∈ behind, place < count ∧ place ≠ first) ∧
      ∀ place < first, place ∈ before ∨ place ∈ behind := by
  have member : first ∈ (List.range count).filter isGiven := List.mem_filter.mpr ⟨List.mem_range.mpr within, given⟩
  obtain ⟨before, later, split⟩ := List.append_of_mem member
  have sorted : ((List.range count).filter isGiven).Pairwise (· < ·) := List.pairwise_lt_range.filter _
  have inside (place : Nat) (isPart : place ∈ before ∨ place ∈ first :: later) : place < count ∧ isGiven place = true := by
    have member := List.mem_filter.mp (split ▸ List.mem_append.mpr isPart)
    exact ⟨List.mem_range.mp member.1, member.2⟩
  rw [split, List.pairwise_append, List.pairwise_cons] at sorted
  obtain ⟨-, ⟨above, -⟩, below⟩ := sorted
  refine ⟨before, later ++ (List.range count).filter fun place => !isGiven place, by rw [split]; simp, ?_, ?_, ?_⟩
  · exact fun place member => ⟨below place member first List.mem_cons_self, (inside place (Or.inl member)).2⟩
  · intro place member
    rcases List.mem_append.mp member with member | member
    · exact ⟨(inside place (Or.inr (List.mem_cons_of_mem _ member))).1, Nat.ne_of_gt (above place member)⟩
    · obtain ⟨inRange, notGiven⟩ := List.mem_filter.mp member
      refine ⟨List.mem_range.mp inRange, ?_⟩
      rintro rfl
      rw [given] at notGiven
      cases notGiven
  · intro place earlier
    have inRange : place ∈ List.range count := List.mem_range.mpr (Nat.lt_trans earlier within)
    by_cases placeGiven : isGiven place = true
    · have member : place ∈ before ++ first :: later := split ▸ List.mem_filter.mpr ⟨inRange, placeGiven⟩
      rcases List.mem_append.mp member with front | member
      · exact Or.inl front
      · rcases List.mem_cons.mp member with rfl | member
        · exact absurd earlier (Nat.lt_irrefl _)
        · exact Or.inr (List.mem_append_left _ member)
    · exact Or.inr (List.mem_append_right _ (List.mem_filter.mpr ⟨inRange, by simpa using placeGiven⟩))

/-- A name in a header names the column where it stands first. -/
theorem idxOf?_columnNames {header : List String} {name : String} (filled : name ≠ "") (occurs : name ∈ header) :
    (columnNames header).idxOf? name = header.idxOf? name := by
  obtain ⟨first, found⟩ := Option.isSome_iff_exists.mp (List.isSome_idxOf?.mpr occurs)
  rw [found]
  obtain ⟨within, named, others⟩ := idxOf?_eq_some_iff_getD.mp found
  have given : (header.getD first "" != "") = true := by rw [named]; simpa using filled
  obtain ⟨before, behind, order, front, back, all⟩ :=
    exists_order (fun place => header.getD place "" != "") within given
  obtain ⟨names, spelled⟩ : ∃ names : List String, names = (List.range header.length).map fun place =>
    if (header.getD place "" != "") = true then header.getD place "" else s!"Unnamed: {place}" := ⟨_, rfl⟩
  have length : names.length = header.length := by rw [spelled, List.length_map, List.length_range]
  have kept (place : Nat) (bound : place < header.length) (given : (header.getD place "" != "") = true) :
      names.getD place "" = header.getD place "" := by
    rw [spelled, List.getD_eq_getElem?_getD, List.getElem?_map, List.getElem?_range bound, Option.map_some,
      Option.getD_some, if_pos given]
  have result : columnNames header = ((before ++ first :: behind).foldl Naming.settle ⟨names, []⟩).names := by
    rw [← order, spelled]
    rfl
  have has : Naming.Has ⟨names, []⟩ first name := ⟨length ▸ within, (kept first within given).trans named⟩
  obtain ⟨last, differs⟩ := has.settle_all rfl
    (fun place member => by
      obtain ⟨earlier, placeGiven⟩ := front place member
      have bound := Nat.lt_trans earlier within
      rw [length, kept place bound placeGiven]
      exact ⟨bound, Nat.ne_of_lt earlier, others place earlier⟩)
    (fun place member => by
      rw [length]
      exact back place member)
  rw [result, idxOf?_eq_some_iff_getD]
  exact ⟨last.within, last.named, fun other earlier => differs other (all other earlier)⟩

/-- No column is without a name. -/
theorem empty_not_mem_columnNames (header : List String) : "" ∉ columnNames header := by
  have all (places : List Nat) (naming : Naming) (filled : "" ∉ naming.names) :
      "" ∉ (places.foldl Naming.settle naming).names := by
    induction places generalizing naming with
    | nil => exact filled
    | cons place places ih => exact ih _ (Naming.settle_filled filled)
  refine all _ _ fun member => ?_
  obtain ⟨place, -, empty⟩ := List.mem_map.mp member
  split at empty
  · rename_i given
    simp only [empty, bne_self_eq_false, Bool.false_eq_true] at given
  · have texts := congrArg String.toList empty
    simp [String.toList_append] at texts

end Reckoner

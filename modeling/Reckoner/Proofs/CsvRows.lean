import Reckoner.Proofs.CsvFields

namespace Reckoner

theorem lt_doubledPast {needed capacity : Nat} (positive : 0 < capacity) : needed < doubledPast needed capacity := by
  fun_induction doubledPast needed capacity with
  | case1 capacity enough => omega
  | case2 capacity short ih => exact ih (by omega)

/-- Some room has been made, so that doubling makes more. -/
structure CsvRoom.IsMade (room : CsvRoom) : Prop where
  bytes : 0 < room.bytes
  fields : 0 < room.fields
  records : 0 < room.records

namespace CsvHolding

variable {held : CsvHolding} {size : Nat}

theorem fits_makeRoom (made : held.room.IsMade) (positive : 0 < size) : (held.makeRoom size).Fits size := by
  have bytes : held.bytes + 2 * size < doubledPast (held.bytes + 2 * size) held.room.bytes :=
    lt_doubledPast made.bytes
  have fields : held.fields + size < doubledPast (held.fields + size) held.room.fields := lt_doubledPast made.fields
  have records : held.recordCount + 1 + size < doubledPast (held.recordCount + 1 + size) held.room.records :=
    lt_doubledPast made.records
  rw [makeRoom, if_neg (by omega)]
  constructor <;> dsimp only <;> omega

theorem isMade_makeRoom (made : held.room.IsMade) : (held.makeRoom size).room.IsMade := by
  rw [makeRoom]
  split
  · exact made
  · exact ⟨Nat.zero_lt_of_lt (lt_doubledPast made.bytes), Nat.zero_lt_of_lt (lt_doubledPast made.fields),
      Nat.zero_lt_of_lt (lt_doubledPast made.records)⟩

@[simp]
theorem records_makeRoom : (held.makeRoom size).records = held.records := by
  rw [makeRoom]
  split <;> rfl

@[simp]
theorem recordCount_makeRoom : (held.makeRoom size).recordCount = held.recordCount := by
  rw [makeRoom]
  split <;> rfl

/-- What is held once a record is held as well. -/
def withRecord (held : CsvHolding) (record : CsvRecord) : CsvHolding :=
  { held with
    records := record :: held.records
    lineCount := held.lineCount + 1
    recordCount := held.recordCount + 1 }

/-- A record that is as long as all before it is taken in as it stands. -/
theorem addRecord_of_length {record : CsvRecord} {width : Nat} (long : record.length = width)
    (before : ∀ other ∈ held.records, other.length = width) (unstarted : held.records = [] → held.recordCount = 0)
    (room : held.recordCount + 1 < held.room.records) :
    held.addRecord record = .ok (held.withRecord record) := by
  have notMissing : (held.records.head?.map List.length).getD 0 - record.length = 0 := by
    cases earlier : held.records with
    | nil => exact Nat.zero_sub _
    | cons last others =>
      have same := before last (earlier ▸ List.mem_cons_self)
      simp only [List.head?_cons, Option.map_some, Option.getD_some]
      omega
  have notLonger : ¬(1 < held.recordCount ∧ (held.records.head?.map List.length).getD 0 < record.length) := by
    cases earlier : held.records with
    | nil =>
      have none := unstarted earlier
      omega
    | cons last others =>
      have same := before last (earlier ▸ List.mem_cons_self)
      simp only [List.head?_cons, Option.map_some, Option.getD_some]
      omega
  have notFull : ¬held.room.records ≤ held.recordCount + 1 := by omega
  simp only [addRecord, notMissing, if_neg notLonger, addMissing, makeRoom, if_true, if_neg notFull,
    List.replicate_zero, List.append_nil, Nat.add_zero, withRecord]

end CsvHolding

/-- A line of a table with columns: as many fields as columns, two or more, and each of them one that is read back. -/
structure IsRow (width : Nat) (record : CsvRecord) : Prop where
  length : record.length = width
  several : 2 ≤ width
  kept : ∀ field ∈ record, IsKept field

/-- A line of a table is never taken for a blank one: a comma stands in it. -/
theorem recordStart_csvLine {width : Nat} {record : CsvRecord} (isRow : IsRow width record) (lineCount : Nat)
    (rest : List Char) :
    recordStart false lineCount (csvLine record ++ rest) (csvLine record ++ rest) =
      some (lineCount, ⟨csvLine record ++ rest, csvLine record ++ rest⟩) := by
  obtain ⟨length, several, kept⟩ := isRow
  have filled : record ≠ [] := by
    rintro rfl
    rw [← length] at several
    cases several
  obtain ⟨first, more, propers, values, source⟩ := exists_line filled kept
  have visible : ∃ c ∈ first.source ++ more.flatMap fun field => ',' :: field.source, isSpace c = false := by
    cases more with
    | nil =>
      rw [← values] at length
      subst length
      exact absurd several (by simp)
    | cons next more => exact ⟨',', by simp, by decide⟩
  have proper : TableLine.IsProper (.record first more ['\n']) := ⟨propers, visible⟩
  rw [← source, List.append_assoc, TableLine.recordStart_source proper rfl, ite_self]

namespace CsvReading

variable {width : Nat} {done left : List CsvRecord} {reading : CsvReading}

/-- Between two lines of a table, with those that have been read and those that are left. -/
structure Between (width : Nat) (done left : List CsvRecord) (reading : CsvReading) : Prop where
  spot : reading.spot = ⟨left.flatMap csvLine, left.flatMap csvLine⟩
  notBegun : reading.begun = false
  finished : reading.finished = true → left = []
  records : reading.held.records = done.reverse
  widths : ∀ record ∈ done, record.length = width
  unstarted : done = [] → reading.held.recordCount = 0
  made : reading.held.room.IsMade

theorem byteSize_csvLine_pos (record : CsvRecord) : 0 < byteSize (csvLine record) := by
  rw [csvLine, byteSize_append]
  exact Nat.lt_of_lt_of_le (by decide) (Nat.le_add_left _ _)

/-- One step: the next line is read, whole and as it was written. -/
theorem Between.exists_next {row : CsvRecord} (between : reading.Between width done (row :: left))
    (isRow : IsRow width row) (fits : reading.held.Fits (byteSize ((row :: left).flatMap csvLine))) :
    ∃ after, reading.next = .ok after ∧ after.Between width (done ++ [row]) left ∧
      after.held.Fits (byteSize (left.flatMap csvLine)) := by
  rw [List.flatMap_cons] at fits
  have filled : row ≠ [] := by
    intro empty
    have none : width = 0 := by rw [← isRow.length, empty, List.length_nil]
    exact absurd isRow.several (by omega)
  obtain ⟨taken, within, read⟩ := readRecord_csvLine filled isRow.kept [] (csvLine row ++ left.flatMap csvLine) fits
  have takenRecords : taken.records = done.reverse := within.records.trans between.records
  have takenCount : taken.recordCount = reading.held.recordCount := within.recordCount
  have takenRoom : taken.room = reading.held.room := within.room
  have positive := byteSize_csvLine_pos row
  have room : taken.recordCount + 1 + byteSize (left.flatMap csvLine) < taken.room.records := by
    have enough := fits.records
    rw [byteSize_append] at enough
    rw [takenCount, takenRoom]
    omega
  have added := CsvHolding.addRecord_of_length isRow.length
    (fun other member => between.widths other (List.mem_reverse.mp (takenRecords ▸ member)))
    (fun empty => takenCount.trans (between.unstarted (List.reverse_eq_nil_iff.mp (takenRecords.symm.trans empty))))
    (by omega)
  have ended : reading.next =
      .ok ⟨taken.withRecord row, ⟨left.flatMap csvLine, left.flatMap csvLine⟩, false, false⟩ := by
    rw [next, between.notBegun, between.spot, List.flatMap_cons]
    simp only [Bool.false_eq_true, if_false, recordStart_csvLine isRow]
    rw [show ({ reading.held with lineCount := reading.held.lineCount } : CsvHolding) = reading.held from rfl, read]
    simp only [Except.bind, after, List.reverse_nil, List.nil_append, added]
  refine ⟨_, ended, ?_, ?_⟩
  · exact {
      spot := rfl
      notBegun := rfl
      finished := nofun
      records := by simp [CsvHolding.withRecord, takenRecords]
      widths := by
        intro record member
        rcases List.mem_append.mp member with earlier | last
        · exact between.widths record earlier
        · rw [List.mem_singleton.mp last, isRow.length]
      unstarted := by simp
      made := by
        show taken.room.IsMade
        exact takenRoom ▸ between.made }
  · obtain ⟨bytes, fields, records⟩ := within.fits
    exact ⟨bytes, fields, room⟩

/-- As many lines are read as are asked for, or all that are left. -/
theorem Between.exists_readMany (count : Nat) (between : reading.Between width done left)
    (rows : ∀ row ∈ left, IsRow width row) (fits : left ≠ [] → reading.held.Fits (byteSize (left.flatMap csvLine))) :
    ∃ after, readMany count reading = .ok after ∧ after.Between width (done ++ left.take count) (left.drop count) := by
  induction count generalizing reading done left with
  | zero => exact ⟨reading, rfl, by simpa using between⟩
  | succ count ih =>
    by_cases finished : reading.finished = true
    · have none := between.finished finished
      subst none
      exact ⟨reading, by rw [readMany, if_pos finished], by simpa using between⟩
    · cases left with
      | nil =>
        have ended : reading.next = .ok { reading with finished := true } := by
          rw [next, between.notBegun, between.spot]
          rfl
        have still : ({ reading with finished := true } : CsvReading).Between width done [] :=
          { between with finished := fun _ => rfl }
        obtain ⟨after, read, reached⟩ := ih still nofun nofun
        refine ⟨after, ?_, by simpa using reached⟩
        rw [readMany, if_neg finished, ended]
        exact read
      | cons row left =>
        obtain ⟨next, read, reached, room⟩ :=
          between.exists_next (rows row List.mem_cons_self) (fits (List.cons_ne_nil _ _))
        obtain ⟨after, readMore, reachedMore⟩ :=
          ih reached (fun other member => rows other (List.mem_cons_of_mem _ member)) fun _ => room
        refine ⟨after, ?_, by simpa using reachedMore⟩
        rw [readMany, if_neg finished, read]
        exact readMore

theorem byteSize_flatMap_csvLine_pos (some : left ≠ []) : 0 < byteSize (left.flatMap csvLine) := by
  cases left with
  | nil => exact absurd rfl some
  | cons row left =>
    rw [List.flatMap_cons, byteSize_append]
    exact Nat.lt_of_lt_of_le (byteSize_csvLine_pos row) (Nat.le_add_right _ _)

/-- A stretch of reading begins with room for all lines that are left. -/
theorem between_begin {held : CsvHolding} (left : List CsvRecord) (records : held.records = done.reverse)
    (widths : ∀ record ∈ done, record.length = width) (unstarted : done = [] → held.recordCount = 0)
    (made : held.room.IsMade) :
    (begin held (left.flatMap csvLine)).Between width done left ∧
      (left ≠ [] → (begin held (left.flatMap csvLine)).held.Fits (byteSize (left.flatMap csvLine))) := by
  refine ⟨{
    spot := rfl
    notBegun := rfl
    finished := nofun
    records := CsvHolding.records_makeRoom.trans records
    widths := widths
    unstarted := fun empty => CsvHolding.recordCount_makeRoom.trans (unstarted empty)
    made := CsvHolding.isMade_makeRoom made }, fun some => ?_⟩
  exact CsvHolding.fits_makeRoom made (byteSize_flatMap_csvLine_pos some)

theorem Between.resume (held : CsvHolding) (between : reading.Between width done left)
    (records : held.records = reading.held.records) (unstarted : done = [] → held.recordCount = 0)
    (made : held.room = reading.held.room) :
    (reading.resume held).Between width done left ∧
      (left ≠ [] → (reading.resume held).held.Fits (byteSize (left.flatMap csvLine))) := by
  obtain ⟨fresh, fits⟩ := between_begin left (records.trans between.records) between.widths unstarted
    (made ▸ between.made)
  rw [CsvReading.resume, between.spot]
  exact ⟨{ fresh with notBegun := between.notBegun, finished := between.finished }, fits⟩

/-- Stretches of lines, each with the room of its own, take in all lines. -/
theorem Between.exists_readStretches {count fuel : Nat} (positive : 0 < count) (enough : left.length ≤ fuel)
    (begun : done ≠ []) (between : reading.Between width done left) (rows : ∀ row ∈ left, IsRow width row) :
    ∃ last, reading.readStretches count fuel = .ok last ∧ last.held.records = (done ++ left).reverse := by
  induction fuel generalizing reading done left with
  | zero =>
    have none : left = [] := List.length_eq_zero_iff.mp (Nat.le_zero.mp enough)
    subst none
    exact ⟨reading, rfl, by rw [between.records, List.append_nil]⟩
  | succ fuel ih =>
    by_cases finished : reading.finished = true
    · have none := between.finished finished
      subst none
      exact ⟨reading, by rw [readStretches, if_pos finished], by rw [between.records, List.append_nil]⟩
    · obtain ⟨resumed, fits⟩ := between.resume reading.held.passOn rfl (fun empty => absurd empty begun) rfl
      obtain ⟨after, read, reached⟩ := resumed.exists_readMany count rows fits
      have fewer : (left.drop count).length ≤ fuel := by
        rw [List.length_drop]
        omega
      have still : done ++ left.take count ≠ [] := fun empty => begun (List.append_eq_nil_iff.mp empty).1
      obtain ⟨last, readMore, all⟩ :=
        ih fewer still reached fun row member => rows row (List.mem_of_mem_drop member)
      refine ⟨last, ?_, ?_⟩
      · rw [readStretches, if_neg finished, read]
        exact readMore
      · rw [all, List.append_assoc, List.take_append_drop]

end CsvReading

theorem recordsPerStretch_pos (width : Nat) : 0 < recordsPerStretch width := Nat.pow_pos (by decide)

theorem length_le_flatMap_csvLine (rows : List CsvRecord) : rows.length ≤ (rows.flatMap csvLine).length := by
  induction rows with
  | nil => exact Nat.le_refl _
  | cons row rows ih =>
    rw [List.flatMap_cons, List.length_append, List.length_cons, csvLine, List.length_append]
    simp only [List.length_singleton]
    omega

/-- The lines of a table are read back as the records that they were written for. -/
theorem csvRecords_flatMap_csvLine {width : Nat} {header : CsvRecord} {rows : List CsvRecord}
    (isRow : ∀ row ∈ header :: rows, IsRow width row)
    (unmarked : ((header :: rows).flatMap csvLine).head? ≠ some '\ufeff') :
    csvRecords (String.ofList ((header :: rows).flatMap csvLine)) = .ok (header :: rows) := by
  have made : ({} : CsvHolding).room.IsMade := ⟨by decide, by decide, by decide⟩
  have widths : ∀ record ∈ ([] : List CsvRecord), record.length = width := nofun
  obtain ⟨started, fits⟩ := CsvReading.between_begin (header :: rows) rfl widths (fun _ => rfl) made
  have start : CsvReading.start ((header :: rows).flatMap csvLine) =
      CsvReading.begin {} ((header :: rows).flatMap csvLine) := by
    rw [CsvReading.start]
    intro rest spelled
    exact unmarked (by rw [spelled, List.head?_cons])
  obtain ⟨first, readFirst, afterFirst⟩ := started.exists_readMany 2 isRow fits
  have begun : [] ++ (header :: rows).take 2 ≠ [] := by simp
  obtain ⟨resumed, fitsAgain⟩ := afterFirst.resume first.held rfl (fun empty => absurd empty begun) rfl
  have inRest : ∀ row ∈ (header :: rows).drop 2, IsRow width row :=
    fun row member => isRow row (List.mem_of_mem_drop member)
  obtain ⟨count, chosen⟩ : ∃ count, count = recordsPerStretch (first.held.records.headD []).length := ⟨_, rfl⟩
  have positive : 0 < count := chosen ▸ recordsPerStretch_pos _
  obtain ⟨second, readSecond, afterSecond⟩ :=
    resumed.exists_readMany (count + 1 - first.held.recordCount) inRest fitsAgain
  have enough : (((header :: rows).drop 2).drop (count + 1 - first.held.recordCount)).length ≤
      (String.ofList ((header :: rows).flatMap csvLine)).length := by
    have all := length_le_flatMap_csvLine (header :: rows)
    rw [String.length_ofList]
    simp only [List.length_drop]
    omega
  have stillBegun :
      [] ++ (header :: rows).take 2 ++ ((header :: rows).drop 2).take (count + 1 - first.held.recordCount) ≠ [] :=
    fun empty => begun (List.append_eq_nil_iff.mp empty).1
  obtain ⟨last, readLast, complete⟩ := afterSecond.exists_readStretches positive enough stillBegun
    fun row member => inRest row (List.mem_of_mem_drop member)
  rw [List.nil_append, List.append_assoc, List.take_append_drop, List.take_append_drop] at complete
  simp only [csvRecords, String.toList_ofList, start, readFirst, bind, Except.bind, pure, Except.pure]
  rw [← chosen, readSecond]
  simp only [readLast, complete, List.reverse_reverse]

end Reckoner

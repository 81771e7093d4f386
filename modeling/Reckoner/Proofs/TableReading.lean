import Reckoner.Proofs.CsvRows
import Reckoner.Proofs.LineReading

namespace Reckoner

/-- Records as they are held: empty fields are added so that none is shorter than the one before. -/
def widened (width : Nat) : List CsvRecord → List CsvRecord
  | [] => []
  | record :: more =>
    (record ++ List.replicate (width - record.length) []) :: widened (max width record.length) more

namespace CsvHolding

variable {held after : CsvHolding} {record : CsvRecord}

/-- How many fields the last record has. -/
def width (held : CsvHolding) : Nat := (held.records.head?.map List.length).getD 0

theorem records_addRecord (added : held.addRecord record = .ok after) :
    after.records = (record ++ List.replicate (held.width - record.length) []) :: held.records := by
  rw [addRecord] at added
  split at added
  · cases added
  · dsimp only at added
    split at added
    · cases added
    · cases added
      simp [addMissing, width]

/-- All records there will be, the latest first, when some are still to be held. -/
def withMore (held : CsvHolding) (records : List CsvRecord) : List CsvRecord :=
  (widened held.width records).reverse ++ held.records

theorem withMore_addRecord (added : held.addRecord record = .ok after) (more : List CsvRecord) :
    after.withMore more = held.withMore (record :: more) := by
  have records := records_addRecord added
  have longer : after.width = max held.width record.length := by
    rw [width, records, List.head?_cons, Option.map_some, Option.getD_some, List.length_append, List.length_replicate]
    omega
  rw [withMore, withMore, widened, records, longer, List.reverse_cons, List.append_assoc, List.singleton_append]

theorem withMore_congr (same : after.records = held.records) (more : List CsvRecord) :
    after.withMore more = held.withMore more := by
  rw [withMore, withMore, width, width, same]

end CsvHolding

/-- A record of a table has been found: its fields are those of its line, and the reading stopped behind it. -/
structure CsvFound.Finds (line : TableLine) (rest : List TableLine) (held : CsvHolding) (found : CsvFound) : Prop where
  record : line.record? = some found.fields
  records : found.held.records = held.records
  stop : ∃ last, found.ending = (stopAt line.ending (tableText rest) last).1 ∧
    found.spot = (stopAt line.ending (tableText rest) last).2

section Finds

variable {line : TableLine} {rest : List TableLine} {held : CsvHolding} {found : CsvFound} {place : List Char}

/-- The first line that is not blank is found as a record. -/
theorem finds_of_readRecord (table : IsTable (line :: rest)) (notBlank : line.isBlank = false)
    (read : readRecord .fieldStart [] [] held place (tableText (line :: rest)) = .ok found) :
    found.Finds line rest held := by
  cases table with
  | cons proper ends noFeed table =>
    rw [tableText_cons, List.append_assoc] at read
    cases line with
    | blank => cases notBlank
    | unclosed fields body =>
      rcases ends with member | ⟨-, ended⟩
      · simp [TableLine.ending] at member
      · rw [ended, TableLine.ending, List.append_nil, List.append_nil] at read
        exact absurd read (readRecord_unclosed proper [] held place found)
    | record first more ending =>
      obtain ⟨last, whole⟩ := readRecord_record proper.1 ends [] place
      obtain ⟨after, added, rfl⟩ := map_eq_ok ((whole held).symm.trans read)
      exact ⟨rfl, CsvHolding.records_of_addFields added, last, rfl, rfl⟩

/-- So is the first line when its comma has been read. -/
theorem finds_of_begun {text : List Char} (table : IsTable (line :: rest))
    (comma : ',' :: text = tableText (line :: rest))
    (read : readRecord .fieldStart [] [[]] held place text = .ok found) : found.Finds line rest held := by
  have front := table.head_source (comma ▸ rfl)
  cases table with
  | cons proper ends noFeed table =>
    rw [tableText_cons, List.append_assoc] at comma
    cases line with
    | blank spaces ending =>
      have space := proper ',' (List.mem_of_head? front)
      cases space
    | unclosed fields body =>
      cases fields with
      | nil => cases front
      | cons field fields =>
        have source := TableLine.source_unclosed_cons field fields body
        obtain rfl := FieldSpelling.eq_of_comma (proper field List.mem_cons_self) (source ▸ front)
        rcases ends with member | ⟨-, ended⟩
        · simp [TableLine.ending] at member
        · rw [source, ended, TableLine.ending, List.append_nil, List.append_nil] at comma
          rw [List.tail_eq_of_cons_eq comma] at read
          exact absurd read
            (readRecord_unclosed (fun other member => proper other (List.mem_cons_of_mem _ member)) _ held place found)
    | record first more ending =>
      obtain rfl := FieldSpelling.eq_of_comma (proper.1 first List.mem_cons_self) front
      cases more with
      | nil => cases front
      | cons next more =>
        rw [TableLine.source_record_cons, FieldSpelling.source, List.nil_append, List.cons_append] at comma
        rw [List.tail_eq_of_cons_eq comma] at read
        obtain ⟨last, whole⟩ := readRecord_record
          (fun field member => proper.1 field (List.mem_cons_of_mem _ member)) ends [[]] place
        obtain ⟨after, added, rfl⟩ := map_eq_ok ((whole held).symm.trans read)
        exact ⟨rfl, CsvHolding.records_of_addFields added, last, rfl, rfl⟩

end Finds

namespace CsvReading

/-- A reading between two lines: so many are left, and a comma at the beginning of the next one may have been read. The
reading goes back to the beginning of what is left, unless a carriage return alone stands before it. -/
structure Stands (before : TableLine) (left : List TableLine) (reading : CsvReading) : Prop where
  table : IsTable left
  upright : (before :: left).IsChain TableLine.KeepsPlace
  text : (if reading.begun then [','] else []) ++ reading.spot.text = tableText left
  line : reading.finished = false → before.ending = ['\r'] ∨ reading.spot.line = reading.spot.text
  finished : reading.finished = true → tableRecords left = []

variable {before line : TableLine} {left rest : List TableLine} {reading next : CsvReading}

/-- Behind a record the reading stands at the next line. -/
theorem stands_after {held : CsvHolding} {found : CsvFound} (finds : found.Finds line rest held)
    (table : IsTable (line :: rest)) (upright : (line :: rest).IsChain TableLine.KeepsPlace)
    (taken : after found = .ok next) :
    next.Stands line rest ∧
      next.held.withMore (tableRecords rest) = held.withMore (tableRecords (line :: rest)) := by
  obtain ⟨record, records, last, ending, spot⟩ := finds
  have more : tableRecords (line :: rest) = found.fields :: tableRecords rest := List.filterMap_cons_some record
  rw [more, ← CsvHolding.withMore_congr records]
  cases table with
  | cons proper ends noFeed table =>
    rw [after] at taken
    cases added : found.held.addRecord found.fields with
    | error error =>
      rw [added] at taken
      cases taken
    | ok held =>
      have kept := CsvHolding.withMore_addRecord added (tableRecords rest)
      have unfinished : false = true → tableRecords rest = [] := fun finished => absurd finished Bool.false_ne_true
      simp only [added, ending, spot] at taken
      rcases ends with member | ⟨none, ended⟩
      · simp only [List.mem_cons, List.not_mem_nil, or_false] at member
        rcases member with feed | isReturn | pair
        · simp only [feed, stopAt] at taken
          cases taken
          exact ⟨⟨table, upright, rfl, fun _ => Or.inr rfl, unfinished⟩, kept⟩
        · have stop : stopAt ['\r'] (tableText rest) last = (.carriageReturn, ⟨tableText rest, last⟩) := rfl
          have noFeed := noFeed isReturn
          simp only [isReturn, stop] at taken
          split at taken
          · contradiction
          · -- a line feed here would belong to the carriage return
            rename_i text
            simp [text] at noFeed
          · -- a comma has begun the next record, so it is no longer in the text that is left
            rename_i behind _ text
            obtain ⟨further, fieldAdded, rfl⟩ := map_eq_ok taken
            refine ⟨⟨table, upright, text.symm, fun _ => Or.inl isReturn, unfinished⟩, ?_⟩
            rw [← kept]
            exact CsvHolding.withMore_congr (CsvHolding.records_of_addField fieldAdded) _
          · cases taken
            exact ⟨⟨table, upright, rfl, fun _ => Or.inl isReturn, unfinished⟩, kept⟩
          · rename_i text
            cases taken
            exact ⟨⟨table, upright, rfl, fun _ => Or.inl isReturn, fun _ => table.records_eq_nil text⟩, kept⟩
          · contradiction
        · simp only [pair, stopAt] at taken
          cases taken
          exact ⟨⟨table, upright, rfl, fun _ => Or.inr rfl, unfinished⟩, kept⟩
      · simp only [none, stopAt] at taken
        cases taken
        have going : true = false → line.ending = ['\r'] ∨ last = tableText rest := Bool.noConfusion
        exact ⟨⟨table, upright, rfl, going, fun _ => table.records_eq_nil ended⟩, kept⟩

/-- One step: the next record is read, or there is none. -/
theorem Stands.exists_next (stands : reading.Stands before left) (unfinished : reading.finished = false)
    (taken : reading.next = .ok next) : ∃ line rest, next.Stands line rest ∧
      next.held.withMore (tableRecords rest) = reading.held.withMore (tableRecords left) ∧
      (tableRecords rest).length = (tableRecords left).length - 1 := by
  have fewer {line : TableLine} {rest : List TableLine} {held : CsvHolding} {found : CsvFound}
      (finds : found.Finds line rest held) : (tableRecords rest).length = (tableRecords (line :: rest)).length - 1 := by
    rw [tableRecords, tableRecords, List.filterMap_cons_some finds.record, List.length_cons, Nat.add_sub_cancel]
  have text := stands.text
  rw [CsvReading.next] at taken
  cases begun : reading.begun with
  | true =>
    rw [begun] at taken text
    obtain ⟨found, read, went⟩ := bind_eq_ok taken
    have table := stands.table
    have upright := stands.upright
    cases left with
    | nil => cases text
    | cons line rest =>
      have finds := finds_of_begun table text read
      obtain ⟨reached, kept⟩ := stands_after finds table (List.isChain_cons_cons.mp upright).2 went
      exact ⟨line, rest, reached, kept, fewer finds⟩
  | false =>
    have text : reading.spot.text = tableText left := by simpa [begun] using text
    have spot := stands.line unfinished
    rw [text] at spot
    rw [begun, text] at taken
    rcases stands.table.exists_recordStart stands.upright spot reading.held.lineCount with
      ⟨none, nothing⟩ | ⟨line, rest, count, last, start, notBlank, table, upright, same⟩
    · simp only [Bool.false_eq_true, if_false, none] at taken
      cases taken
      have finished : true = false → before.ending = ['\r'] ∨ reading.spot.line = reading.spot.text := Bool.noConfusion
      refine ⟨before, left, ⟨stands.table, stands.upright, text, finished, fun _ => nothing⟩, rfl, ?_⟩
      rw [nothing, List.length_nil]
    · simp only [Bool.false_eq_true, if_false, start] at taken
      obtain ⟨found, read, went⟩ := bind_eq_ok taken
      have finds := finds_of_readRecord table notBlank read
      obtain ⟨reached, kept⟩ := stands_after finds table upright went
      rw [same]
      exact ⟨line, rest, reached, kept, fewer finds⟩

/-- As many records are read as are asked for, or all that are left. -/
theorem Stands.exists_readMany {count : Nat} (stands : reading.Stands before left)
    (taken : readMany count reading = .ok next) : ∃ line rest, next.Stands line rest ∧
      next.held.withMore (tableRecords rest) = reading.held.withMore (tableRecords left) ∧
      (tableRecords rest).length = (tableRecords left).length - count := by
  induction count generalizing reading before left with
  | zero =>
    cases taken
    exact ⟨before, left, stands, rfl, rfl⟩
  | succ count ih =>
    rw [readMany] at taken
    cases finished : reading.finished with
    | true =>
      rw [finished] at taken
      cases taken
      refine ⟨before, left, stands, rfl, ?_⟩
      rw [stands.finished finished, List.length_nil, Nat.zero_sub]
    | false =>
      rw [finished] at taken
      simp only [Bool.false_eq_true, if_false] at taken
      cases went : reading.next with
      | error error =>
        rw [went] at taken
        cases taken
      | ok first =>
        rw [went] at taken
        obtain ⟨line, rest, reached, kept, fewer⟩ := stands.exists_next finished went
        obtain ⟨last, behind, arrived, keptMore, fewerMore⟩ := ih reached taken
        exact ⟨last, behind, arrived, keptMore.trans kept, by omega⟩

theorem Stands.resume {held : CsvHolding} (stands : reading.Stands before left) :
    (reading.resume held).Stands before left :=
  ⟨stands.table, stands.upright, stands.text, fun _ => Or.inr rfl, stands.finished⟩

/-- Stretches of records take in all of them. Every stretch that does not finish the text takes in a record at least, so
there are no more stretches than records. -/
theorem Stands.readStretches {count fuel : Nat} (positive : 0 < count) (stands : reading.Stands before left)
    (enough : (tableRecords left).length ≤ fuel) (taken : reading.readStretches count fuel = .ok next) :
    next.held.records = reading.held.withMore (tableRecords left) := by
  induction fuel generalizing reading before left with
  | zero =>
    cases taken
    rw [List.length_eq_zero_iff.mp (Nat.le_zero.mp enough)]
    rfl
  | succ fuel ih =>
    rw [CsvReading.readStretches] at taken
    cases finished : reading.finished with
    | true =>
      rw [finished] at taken
      cases taken
      rw [stands.finished finished]
      rfl
    | false =>
      rw [finished] at taken
      simp only [Bool.false_eq_true, if_false] at taken
      cases went : readMany count (reading.resume reading.held.passOn) with
      | error error =>
        rw [went] at taken
        cases taken
      | ok after =>
        rw [went] at taken
        obtain ⟨line, rest, reached, kept, fewer⟩ := stands.resume.exists_readMany went
        have same : (reading.resume reading.held.passOn).held.records = reading.held.records :=
          CsvHolding.records_makeRoom
        rw [ih reached (by omega) taken, kept, CsvHolding.withMore_congr same]

end CsvReading

theorem length_tableRecords_le {lines : List TableLine} (table : IsTable lines) :
    (tableRecords lines).length ≤ (tableText lines).length := by
  induction table with
  | nil => exact Nat.le_refl _
  | @cons line rest proper ends noFeed table ih =>
    have filled : (line.record?.toList).length ≤ line.source.length := by
      cases line with
      | blank => exact Nat.zero_le _
      | unclosed => exact Nat.zero_le _
      | record first more ending =>
        obtain ⟨c, member, -⟩ := proper.2
        exact List.length_pos_of_mem member
    have records : (tableRecords (line :: rest)).length = line.record?.toList.length + (tableRecords rest).length := by
      cases found : line.record? <;> simp [tableRecords, found, Nat.add_comm]
    rw [records, tableText_cons, List.length_append, List.length_append]
    omega

/-- A mark of byte order at the beginning is no part of the text. -/
def withoutMark : List Char → List Char
  | '\ufeff' :: rest => rest
  | text => text

theorem length_withoutMark_le (text : List Char) : (withoutMark text).length ≤ text.length := by
  fun_cases withoutMark text with
  | case1 rest => exact Nat.le_succ _
  | case2 => exact Nat.le_refl _

namespace CsvReading

theorem start_eq (text : List Char) : start text =
    { begin {} text with spot := ⟨withoutMark text, withoutMark text⟩ } := by
  fun_cases withoutMark text with
  | case1 rest => rfl
  | case2 =>
    rw [start]
    · rfl
    · assumption

theorem stands_start {text : List Char} {lines : List TableLine} (table : IsTable lines)
    (spelled : tableText lines = withoutMark text) (upright : lines.IsChain TableLine.KeepsPlace) :
    (start text).Stands (.blank [] ['\n']) lines ∧ (start text).held.records = [] := by
  rw [start_eq]
  have unfinished : false = true → tableRecords lines = [] := fun finished => absurd finished Bool.false_ne_true
  refine ⟨⟨table, ?_, spelled.symm, fun _ => Or.inr rfl, unfinished⟩, CsvHolding.records_makeRoom⟩
  cases lines with
  | nil => exact .singleton _
  | cons line rest => exact .cons_cons (fun isReturn => absurd isReturn (by decide)) upright

end CsvReading

/-- The records of a table are read, with empty fields at the end of those that are shorter than the one before. -/
theorem csvRecords_eq {text : String} {records : List CsvRecord} {lines : List TableLine}
    (read : csvRecords text = .ok records) (table : IsTable lines) (spelled : tableText lines = withoutMark text.toList)
    (upright : lines.IsChain TableLine.KeepsPlace) : records = widened 0 (tableRecords lines) := by
  obtain ⟨started, none⟩ := CsvReading.stands_start table spelled upright
  obtain ⟨first, readFirst, read⟩ := bind_eq_ok read
  obtain ⟨second, readSecond, read⟩ := bind_eq_ok read
  obtain ⟨last, readLast, all⟩ := bind_eq_ok read
  obtain ⟨_, afterFirst, stands, kept, fewer⟩ := started.exists_readMany readFirst
  obtain ⟨_, afterSecond, standsAgain, keptAgain, fewerAgain⟩ := stands.resume.exists_readMany readSecond
  have short : (tableRecords afterSecond).length ≤ text.length := by
    have bound := length_tableRecords_le table
    have whole := length_withoutMark_le text.toList
    rw [spelled] at bound
    rw [String.length_toList] at whole
    omega
  have complete := standsAgain.readStretches (recordsPerStretch_pos _) short readLast
  have same : (first.resume first.held).held.records = first.held.records := CsvHolding.records_makeRoom
  rw [keptAgain, CsvHolding.withMore_congr same, kept, CsvHolding.withMore, CsvHolding.width, none, List.append_nil]
    at complete
  rw [← Except.ok.inj all, complete, List.reverse_reverse]
  rfl

end Reckoner

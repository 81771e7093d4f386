import Reckoner.Proofs.ColumnNames
import Reckoner.Proofs.SavedTable
import Reckoner.Proofs.TableReading

namespace Reckoner

/-- How many columns stand in front of those that the header names: as many as the first record after the header has
more fields than it. -/
def surplus (header : CsvRecord) (data : List CsvRecord) : Nat := (data.head?.map List.length).getD 0 - header.length

theorem getD_append_replicate (record : CsvRecord) (missing place : Nat) :
    (record ++ List.replicate missing []).getD place [] = record.getD place [] := by
  simp only [List.getD_eq_getElem?_getD, List.getElem?_append, List.getElem?_replicate]
  split
  · rfl
  · rename_i beyond
    rw [List.getElem?_eq_none (Nat.le_of_not_lt beyond)]
    split <;> rfl

/-- The fields that are added are empty, as fields are that records do not have. -/
theorem map_widened {α : Type} (use : List Char → α) (width : Nat) (records : List CsvRecord) (place : Nat) :
    ((widened width records).map fun record => use (record.getD place [])) =
      records.map fun record => use (record.getD place []) := by
  induction records generalizing width with
  | nil => rfl
  | cons record records ih =>
    rw [widened, List.map_cons, List.map_cons, ih, getD_append_replicate]

theorem surplus_widened (header : CsvRecord) (data : List CsvRecord) :
    ((widened header.length data).head?.map List.length).getD 0 - header.length = surplus header data := by
  cases data with
  | nil => rfl
  | cons record data =>
    simp only [widened, surplus, List.head?_cons, Option.map_some, Option.getD_some, List.length_append,
      List.length_replicate]
    omega

/-- The fields of a column stand where its name first stands in the header, behind the columns in front. -/
theorem columnFields_widened {column path : String} {records : List CsvRecord} {expressions : List String}
    (found : columnFields column path (widened 0 records) = .ok expressions) :
    ∃ header data, records = header :: data ∧ ∀ place, (header.map fieldText).idxOf? column = some place →
      expressions = data.map fun record => fieldText (record.getD (surplus header data + place) []) := by
  cases records with
  | nil => cases found
  | cons header data =>
    refine ⟨header, data, rfl, fun place first => ?_⟩
    have whole : header ++ List.replicate (0 - header.length) [] = header := by
      rw [Nat.zero_sub, List.replicate_zero, List.append_nil]
    rw [widened, whole, Nat.zero_max, columnFields] at found
    have occurs : column ∈ header.map fieldText := List.isSome_idxOf?.mp (by rw [first]; rfl)
    have filled : column ≠ "" := by
      rintro rfl
      rw [List.idxOf?_eq_none_iff.mpr (empty_not_mem_columnNames _)] at found
      cases found
    rw [idxOf?_columnNames filled occurs, first] at found
    simp only [surplus_widened, map_widened] at found
    exact (Except.ok.inj found).symm

/-- Expressions come from a table only when its bytes are text and its records can be read. -/
theorem exists_csvRecords {folder : Folder} {path column : String} {expressions : List String}
    (isTable : isTablePath path = true) (accepted : folder.expressions path column = .ok expressions) :
    ∃ text records, folder.readTable path = .ok text.toUTF8 ∧ csvRecords text = .ok records ∧
      columnFields column path records = .ok expressions := by
  rw [Folder.expressions, if_pos isTable] at accepted
  obtain ⟨bytes, stored, accepted⟩ := bind_eq_ok accepted
  obtain ⟨text, decoded, accepted⟩ := bind_eq_ok accepted
  obtain ⟨records, read, found⟩ := bind_eq_ok accepted
  have filled : text ≠ "" := by
    rintro rfl
    have none : records = [] := (Except.ok.inj (mapError_eq_ok read)).symm
    rw [none] at found
    cases found
  have spelled := toUTF8_of_decodeUtf8 (mapError_eq_ok decoded) filled
  exact ⟨text, records, spelled ▸ stored, mapError_eq_ok read, found⟩

/-- The expressions of a table that is accepted are the fields in their column, one for each record after the header,
and empty ones where a record is too short. Every text has lines. They are read as they stand when no carriage return
alone leads the reading astray, and all columns are shifted by those in front. -/
theorem expressions_in_column {folder : Folder} {path column : String} {expressions : List String}
    (isTable : isTablePath path = true) (accepted : folder.expressions path column = .ok expressions) :
    ∃ text : String, folder.readTable path = .ok text.toUTF8 ∧
      (∃ lines, tableText lines = withoutMark text.toList ∧ IsTable lines) ∧
      ∀ lines, tableText lines = withoutMark text.toList → IsTable lines → lines.IsChain TableLine.KeepsPlace →
        ∃ header data, tableRecords lines = header :: data ∧
          ∀ place, (header.map fieldText).idxOf? column = some place →
            expressions = data.map fun record => fieldText (record.getD (surplus header data + place) []) := by
  obtain ⟨text, records, stored, read, found⟩ := exists_csvRecords isTable accepted
  refine ⟨text, stored, exists_table _, fun lines spelled table upright => ?_⟩
  rw [csvRecords_eq read table spelled upright] at found
  exact columnFields_widened found

/-- A comma between quotes, blank lines, a short record and line ends of every kind leave the second column where it
is. -/
theorem expressions_in_column_second :
    ((⟨[], standardFolders⟩ : Folder).write ⟨false, 0, ["sums.csv"]⟩
        "note,expression,note\r\nx,\x22max(1,2)\x22\r\n \n\n3\r,4").expressions "sums.csv" "expression" =
      .ok ["max(1,2)", "", "4"] ∧
    ∃ lines header data, tableText lines = "note,expression,note\r\nx,\x22max(1,2)\x22\r\n \n\n3\r,4".toList ∧
      IsTable lines ∧ tableRecords lines = header :: data ∧ surplus header data = 0 ∧
      ["max(1,2)", "", "4"] = data.map fun record => fieldText (record.getD (surplus header data + 1) []) := by
  have isTable : isTablePath "sums.csv" = true := by decide +kernel
  have savable : (⟨[], standardFolders⟩ : Folder).savePlace "sums.csv" = .ok ⟨false, 0, ["sums.csv"]⟩ := by
    decide +kernel
  have read : csvRecords "note,expression,note\r\nx,\x22max(1,2)\x22\r\n \n\n3\r,4" =
      .ok [["note".toList, "expression".toList, "note".toList], [['x'], "max(1,2)".toList, []], [['3'], [], []],
        [[], ['4'], []]] := by
    decide +kernel
  have accepted : ((⟨[], standardFolders⟩ : Folder).write ⟨false, 0, ["sums.csv"]⟩
      "note,expression,note\r\nx,\x22max(1,2)\x22\r\n \n\n3\r,4").expressions "sums.csv" "expression" =
        .ok ["max(1,2)", "", "4"] := by
    rw [Folder.expressions_write_of_records isTable savable read]
    rfl
  obtain ⟨text, stored, -, all⟩ := expressions_in_column isTable accepted
  rw [Folder.readTable_write savable] at stored
  obtain rfl : _ = text := String.toByteArray_inj.mp (Except.ok.inj stored)
  have table : IsTable [.record (.bare "note".toList) [.bare "expression".toList, .bare "note".toList] ['\r', '\n'],
      .record (.bare ['x']) [.quoted "max(1,2)".toList []] ['\r', '\n'], .blank [' '] ['\n'], .blank [] ['\n'],
      .record (.bare ['3']) [] ['\r'], .record (.bare []) [.bare ['4']] []] := by decide
  obtain ⟨header, data, records, column⟩ := all _ (by decide) table (by decide)
  have second := column 1
  rw [← (List.cons.inj records).1, ← (List.cons.inj records).2] at second
  exact ⟨accepted, _, _, _, by decide, table, rfl, by decide, second (by decide)⟩

/-- A record with a comma too many shifts its table: what comes from the first column stands in the second one. -/
theorem expressions_shifted :
    (⟨[], standardFolders⟩ : Folder).savePlace "sums.csv" = .ok ⟨false, 0, ["sums.csv"]⟩ ∧
    ((⟨[], standardFolders⟩ : Folder).write ⟨false, 0, ["sums.csv"]⟩ "expression,b\n1+1,2,3\n").expressions
      "sums.csv" "expression" = .ok ["2"] ∧
    ∃ lines header data, tableText lines = "expression,b\n1+1,2,3\n".toList ∧ IsTable lines ∧
      tableRecords lines = header :: data ∧ (header.map fieldText).idxOf? "expression" = some 0 ∧
      (data.map fun record => fieldText (record.getD 0 [])) = ["1+1"] := by
  have savable : (⟨[], standardFolders⟩ : Folder).savePlace "sums.csv" = .ok ⟨false, 0, ["sums.csv"]⟩ := by
    decide +kernel
  have read : csvRecords "expression,b\n1+1,2,3\n" =
      .ok [["expression".toList, ['b']], ["1+1".toList, ['2'], ['3']]] := by
    decide +kernel
  have table : IsTable [.record (.bare "expression".toList) [.bare ['b']] ['\n'],
      .record (.bare "1+1".toList) [.bare ['2'], .bare ['3']] ['\n']] := by decide
  refine ⟨savable, ?_, _, _, _, ?_, table, rfl, by decide, by decide⟩
  · rw [Folder.expressions_write_of_records (by decide +kernel) savable read]
    rfl
  · decide

end Reckoner

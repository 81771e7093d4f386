import Reckoner.CommandLine
import Reckoner.Elementary.Rounded
import Reckoner.Proofs.CsvRows
import Reckoner.Proofs.OneLine

namespace Reckoner

namespace Folder

variable {folder : Folder} {place : Place} {path text : String}

/-- This folder once a file has been written at a place. -/
def write (folder : Folder) (place : Place) (text : String) : Folder :=
  { folder with files := (place.text, text.toUTF8) :: folder.files }

theorem entryAt?_write_self : Folder.entryAt? (folder.write place text) place = some (.file text.toUTF8) := by
  simp [entryAt?, file?, write]

theorem known_of_entryAt? {found : Place} {name : String}
    (isFolder : folder.entryAt? (place.child name) = some (.folder found)) :
    folder.file? (place.child name).text = none ∧ folder.others.contains (place.child name).text = true := by
  cases stored : folder.file? (place.child name).text with
  | some bytes => simp [entryAt?, stored] at isFolder
  | none =>
    have named : (place.child name).names.isEmpty = false := by simp [Place.child]
    cases known : folder.others.contains (place.child name).text with
    | true => exact ⟨rfl, rfl⟩
    | false =>
      simp only [entryAt?, stored, named, known, Bool.or_false, Bool.false_eq_true, if_false] at isFolder
      split at isFolder <;> cases isFolder

/-- A folder stays where it was when a file is written at a place that no folder stands at. -/
theorem entryAt?_write_of_folder {other found : Place} {name : String}
    (isFolder : folder.entryAt? (other.child name) = some (.folder found))
    (free : ∀ found, folder.entryAt? place ≠ some (.folder found)) :
    Folder.entryAt? (folder.write place text) (other.child name) = some (.folder found) := by
  obtain ⟨notStored, known⟩ := known_of_entryAt? isFolder
  have apart : place.text ≠ (other.child name).text := by
    intro same
    apply free place
    rw [entryAt?, same, notStored, known, Bool.or_true]
    rfl
  have unchanged : (folder.write place text).file? (other.child name).text = folder.file? (other.child name).text := by
    rw [file?, file?, write, List.find?_cons_of_neg]
    simpa using apart
  rw [entryAt?, unchanged]
  exact isFolder

/-- What leads to a folder still leads there when a file has been written. -/
theorem walk_write {names : List String} {start reached : Place}
    (walked : folder.walk path (.folder start) names = .ok (.folder reached))
    (free : ∀ found, folder.entryAt? place ≠ some (.folder found)) :
    (folder.write place text).walk path (.folder start) names = .ok (.folder reached) := by
  induction names generalizing start with
  | nil => exact walked
  | cons name names ih =>
    rw [walk] at walked ⊢
    by_cases dots : (name = "." || name = "..") = true
    · rw [if_pos dots] at walked ⊢
      exact ih walked
    · rw [if_neg dots] at walked ⊢
      by_cases long : longestName < name.utf8ByteSize
      · rw [if_pos long] at walked
        cases walked
      · rw [if_neg long] at walked ⊢
        cases stands : folder.entryAt? (start.child name) with
        | none =>
          rw [stands] at walked
          cases walked
        | some entry =>
          rw [stands] at walked
          cases entry with
          | file bytes => cases names <;> cases walked
          | folder found =>
            rw [entryAt?_write_of_folder stands free]
            exact ih walked

theorem walk_append {names more : List String} {entry reached : Entry}
    (walked : folder.walk path entry names = .ok reached) :
    folder.walk path entry (names ++ more) = folder.walk path reached more := by
  fun_induction folder.walk path entry names with
  | case1 entry =>
    cases walked
    rfl
  | case2 => cases walked
  | case3 start name names dots ih =>
    rw [List.cons_append, walk, if_pos dots]
    exact ih walked
  | case4 => cases walked
  | case5 start name names dots long entry stands ih =>
    rw [List.cons_append, walk, if_neg dots, if_neg long, stands]
    exact ih walked
  | case6 => cases walked

/-- A path by which a file can be written: a last name in a folder that the names before it lead to, and at which no
folder stands. -/
structure Targets (folder : Folder) (path : String) (names : List String) (parent : Place) (last : String) : Prop where
  accepted : acceptPath path = .ok ()
  spelled : pathNames path = names ++ [last]
  open_ : path.endsWith "/" = false
  walked : folder.walk path (.folder (Place.startOf path)) names = .ok (.folder parent)
  named : (last = "." || last = "..") = false
  short : ¬longestName < last.utf8ByteSize
  free : ∀ found, folder.entryAt? (parent.child last) ≠ some (.folder found)

theorem exists_targets (found : folder.target path = .ok place) :
    ∃ names parent last, folder.Targets path names parent last ∧ place = parent.child last := by
  rw [target] at found
  cases accepted : acceptPath path with
  | error error =>
    rw [accepted] at found
    cases found
  | ok _ =>
    rw [accepted] at found
    cases walked : folder.walk path (.folder (Place.startOf path)) (pathNames path).dropLast with
    | error error => simp [walked, bind, Except.bind] at found
    | ok entry =>
      cases entry with
      | file bytes => simp [walked, bind, Except.bind] at found
      | folder parent =>
        simp only [bind, Except.bind, walked] at found
        obtain ⟨last, atEnd⟩ : ∃ last, last = (pathNames path).getLastD "." := ⟨_, rfl⟩
        rw [← atEnd] at found
        split at found
        · cases found
        · rename_i notFolder
          simp only [Bool.or_eq_true, not_or, Bool.not_eq_true] at notFolder
          obtain ⟨named, open_⟩ := notFolder
          split at found
          · cases found
          · rename_i short
            split at found
            · cases found
            · rename_i free
              cases found
              have spelled : pathNames path = (pathNames path).dropLast ++ [last] := by
                cases names : pathNames path using List.reverseRecOn with
                | nil =>
                  rw [names] at atEnd
                  simp [atEnd] at named
                | append_singleton names name _ => simp [names] at atEnd ⊢; exact atEnd.symm
              exact ⟨_, parent, last, ⟨accepted, spelled, open_, walked, by simpa using named, short, free⟩, rfl⟩

/-- A file that has been written is read. -/
theorem read_write (found : folder.target path = .ok place) :
    (folder.write place text).read path = .ok text.toUTF8 := by
  obtain ⟨names, parent, last, targets, rfl⟩ := exists_targets found
  have reached : (folder.write (parent.child last) text).find path = .ok (.file text.toUTF8) := by
    rw [find, targets.accepted, targets.spelled, targets.open_]
    simp only [bind, Except.bind, Bool.false_eq_true, if_false, List.append_nil]
    rw [walk_append (walk_write targets.walked targets.free), walk, targets.named, if_neg targets.short,
      entryAt?_write_self]
    rfl
  rw [read, reached]

end Folder

theorem fieldText_of_not_mem {text : String} (noNul : '\x00' ∉ text.toList) : fieldText text.toList = text := by
  have whole : text.toList.takeWhile (fun c => c != '\x00') = text.toList := by
    refine List.takeWhile_eq_self_iff.mpr fun c member => ?_
    simp only [bne_iff_ne, ne_eq]
    rintro rfl
    exact noNul member
  rw [fieldText, whole, String.ofList_toList]

/-- An expression that a table keeps: every character of it is read back. -/
def IsKeptExpression (expression : String) : Prop :=
  IsKept expression.toList ∧ '\x00' ∉ expression.toList

instance (expression : String) : Decidable (IsKeptExpression expression) := inferInstanceAs (Decidable (_ ∧ _))

theorem Row.fields_ofExpression [ElementaryFunctions] (strict : Bool) (expression : String) :
    ∃ result reason : String, OneLine result ∧ OneLine reason ∧
      (Row.ofExpression strict (some expression)).fields = [expression.toList, result.toList, reason.toList] := by
  have nothing : OneLine "" := by decide
  cases evaluated : evaluate strict (.text expression) with
  | ok value =>
    have number : value.isNaN = false := Binary64.isNaN_of_isFinite (isFinite_of_evaluate evaluated)
    refine ⟨value.text, "", value.oneLine_text, nothing, ?_⟩
    simp [Row.ofExpression, evaluated, Row.fields, Row.hasFailed, number]
  | error failure =>
    refine ⟨"", failure.reason, nothing, oneLine_reason evaluated, ?_⟩
    simp [Row.ofExpression, evaluated, Row.fields, Row.hasFailed, Binary64.isNaN]

/-- The line of an expression in a table. Its value and the reason stand on one line. -/
theorem Row.isRow_fields [ElementaryFunctions] {strict : Bool} {expression : String} (kept : IsKept expression.toList) :
    IsRow 3 (Row.ofExpression strict (some expression)).fields := by
  obtain ⟨result, reason, resultLine, reasonLine, fields⟩ := Row.fields_ofExpression strict expression
  rw [fields]
  refine ⟨rfl, by decide, fun field member => ?_⟩
  simp only [List.mem_cons, List.not_mem_nil, or_false] at member
  rcases member with rfl | rfl | rfl
  · exact kept
  · exact isKept_of_oneLine resultLine.2
  · exact isKept_of_oneLine reasonLine.2

/-- The columns of a table when the settings leave their names as they are. -/
def ordinaryColumns : List String := ["expression", "result", "error"]

theorem columnNames_ordinaryColumns : columnNames ordinaryColumns = ordinaryColumns := by decide

namespace Settings

variable {settings : Settings}

theorem table_of_ordinaryColumns [ElementaryFunctions] (ordinary : settings.columns = ordinaryColumns)
    (asked : Option Bool) (expressions : List String) :
    settings.table asked (expressions.map some) =
      .ok ⟨ordinaryColumns,
        expressions.map fun expression => Row.ofExpression (settings.strictness asked) (some expression)⟩ := by
  simp only [columns, ordinaryColumns, List.cons.injEq, and_true] at ordinary
  obtain ⟨expression, result, error⟩ := ordinary
  simp [table, keptRow, columns, ordinaryColumns, expression, result, error]

end Settings

/-- The rows have no field beyond the columns, so the first column of the names is the first field of each row. -/
theorem columnFields_of_rows [ElementaryFunctions] {strict : Bool} {expressions : List String} (path : String)
    (noNul : ∀ expression ∈ expressions, '\x00' ∉ expression.toList) :
    columnFields "expression" path (ordinaryColumns.map String.toList ::
      expressions.map fun expression => (Row.ofExpression strict (some expression)).fields) = .ok expressions := by
  have header : (ordinaryColumns.map String.toList).map fieldText = ordinaryColumns := by decide
  have found : ordinaryColumns.idxOf? "expression" = some 0 := by decide
  have width (expression : String) : (Row.ofExpression strict (some expression)).fields.length = 3 := by
    simp [Row.fields]
  have first (expression : String) :
      (Row.ofExpression strict (some expression)).fields.getD 0 [] = expression.toList := by
    obtain ⟨result, reason, -, -, fields⟩ := Row.fields_ofExpression strict expression
    rw [fields]
    rfl
  have noIndex : ((expressions.map fun expression => (Row.ofExpression strict (some expression)).fields).head?.map
      List.length).getD 0 - (ordinaryColumns.map String.toList).length = 0 := by
    cases expressions with
    | nil => rfl
    | cons expression more => simp [width, ordinaryColumns]
  have read (expression : String) (member : expression ∈ expressions) :
      fieldText ((Row.ofExpression strict (some expression)).fields.getD 0 []) = expression := by
    rw [first, fieldText_of_not_mem (noNul expression member)]
  simp only [columnFields, header, columnNames_ordinaryColumns, found, noIndex, Nat.zero_add, List.map_map]
  exact congrArg Except.ok ((List.map_congr_left read).trans (List.map_id _))

theorem Folder.readTable_write {folder : Folder} {path text : String} {place : Place}
    (savable : folder.savePlace path = .ok place) : (folder.write place text).readTable path = .ok text.toUTF8 := by
  rw [savePlace] at savable
  rw [readTable]
  cases scheme : schemeError? path with
  | some error =>
    rw [scheme] at savable
    cases savable
  | none =>
    rw [scheme] at savable
    have found : folder.target (expandHome path) = .ok place := by
      dsimp only at savable
      split at savable
      · cases target : folder.target (expandHome path) with
        | ok found =>
          rw [target] at savable
          cases savable
          rfl
        | error error =>
          rw [target] at savable
          cases savable
      · cases savable
      · cases savable
    dsimp only
    rw [read_write found]
    rfl

/-- A file that is a table holds the records of the text that was written to it. -/
theorem Folder.expressions_write_of_records {folder : Folder} {path column text : String} {place : Place}
    {records : List CsvRecord} (isTable : isTablePath path = true) (savable : folder.savePlace path = .ok place)
    (read : csvRecords text = .ok records) :
    (folder.write place text).expressions path column = columnFields column path records := by
  rw [expressions, if_pos isTable, readTable_write savable]
  simp only [bind, Except.bind, decodeUtf8_toUTF8, Except.mapError, read]

/-- What a table holds comes back from it: the expressions of a saved table are read again in their order, each as it
was, when every carriage return in one has a comma, a quote or a line feed beside it and none holds a NUL. -/
theorem expressions_write [ElementaryFunctions] {settings : Settings}
    (ordinary : settings.columns = ordinaryColumns) (asked : Option Bool) {folder : Folder} {path : String} {place : Place} (isTable : isTablePath path = true)
    (savable : folder.savePlace path = .ok place) {expressions : List String}
    (kept : ∀ expression ∈ expressions, IsKeptExpression expression) :
    ∃ table, settings.table asked (expressions.map some) = .ok table ∧
      (folder.write place table.text).expressions path (settings.columnFor none) = .ok expressions := by
  refine ⟨_, settings.table_of_ordinaryColumns ordinary asked expressions, ?_⟩
  have column : settings.columnFor none = "expression" := by
    simp only [Settings.columns, ordinaryColumns, List.cons.injEq] at ordinary
    exact ordinary.1
  have lines : ∀ row ∈ ordinaryColumns.map String.toList ::
      expressions.map fun expression => (Row.ofExpression (settings.strictness asked) (some expression)).fields,
      IsRow 3 row := by
    intro row member
    rcases List.mem_cons.mp member with rfl | member
    · refine ⟨rfl, by decide, fun field member => isKept_of_oneLine ?_⟩
      revert field
      decide
    · obtain ⟨expression, inside, rfl⟩ := List.mem_map.mp member
      exact Row.isRow_fields (kept expression inside).1
  have header : csvLine (ordinaryColumns.map String.toList) = "expression,result,error\n".toList := by decide
  have records := csvRecords_flatMap_csvLine lines (by
    rw [List.flatMap_cons, header]
    exact fun marked => absurd (Option.some.inj marked) (by decide))
  have text :
      Table.text ⟨ordinaryColumns, expressions.map fun expression =>
        Row.ofExpression (settings.strictness asked) (some expression)⟩ =
      String.ofList ((ordinaryColumns.map String.toList :: expressions.map fun expression =>
        (Row.ofExpression (settings.strictness asked) (some expression)).fields).flatMap csvLine) := by
    simp only [Table.text, List.map_map, Function.comp_def]
  rw [column, text, Folder.expressions_write_of_records isTable savable records]
  exact columnFields_of_rows path fun expression member => (kept expression member).2

theorem expressions_write_marks :
    ∃ table, Settings.table {} (some true) ([" 1+1", "", "\"2,\r\n3", "(4"].map some) = .ok table ∧
      ((⟨[], standardFolders⟩ : Folder).write ⟨false, 0, ["sums.CSV"]⟩ table.text).expressions "sums.CSV"
        (Settings.columnFor {} none) = .ok [" 1+1", "", "\"2,\r\n3", "(4"] := by
  have savable : (⟨[], standardFolders⟩ : Folder).savePlace "sums.CSV" = .ok ⟨false, 0, ["sums.CSV"]⟩ := by
    decide +kernel
  exact expressions_write rfl (some true) (by decide +kernel) savable (by decide)

/-- A carriage return alone ends a record: one expression is saved and two are read. -/
theorem expressions_write_lone_return :
    (⟨[], standardFolders⟩ : Folder).savePlace "sums.csv" = .ok ⟨false, 0, ["sums.csv"]⟩ ∧
    ∃ table, Settings.table {} none (["1\r2"].map some) = .ok table ∧
      ((⟨[], standardFolders⟩ : Folder).write ⟨false, 0, ["sums.csv"]⟩ table.text).expressions "sums.csv"
        (Settings.columnFor {} none) = .ok ["1", "2"] := by
  have savable : (⟨[], standardFolders⟩ : Folder).savePlace "sums.csv" = .ok ⟨false, 0, ["sums.csv"]⟩ := by
    decide +kernel
  refine ⟨savable, _, Settings.table_of_ordinaryColumns rfl none ["1\r2"], ?_⟩
  have read : csvRecords (Table.text ⟨ordinaryColumns, ["1\r2"].map fun expression =>
      Row.ofExpression (Settings.strictness {} none) (some expression)⟩) =
      .ok [ordinaryColumns.map String.toList, [['1'], [], []],
        [['2'], [], "Stack has 2 elements after evaluation, expected 1".toList]] := by
    decide +kernel
  rw [Folder.expressions_write_of_records (by decide +kernel) savable read]
  rfl

end Reckoner

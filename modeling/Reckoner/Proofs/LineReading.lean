import Reckoner.Proofs.Results
import Reckoner.Proofs.TableLines

namespace Reckoner

section Spot

variable {place text tail rest : List Char}

/-- A record starts at any character that ends no line. Before blanks the reading goes back to the line feed. -/
theorem recordStart_cons (indented : Bool) (lineCount : Nat) {line rest : List Char} {c : Char} (noFeed : c ≠ '\n')
    (noReturn : c ≠ '\r') :
    recordStart indented lineCount line (c :: rest) =
      if c = ' ' ∨ c = '\t' then recordStart true lineCount line rest
      else some (lineCount, ⟨if indented then line else c :: rest, line⟩) := by
  rw [recordStart] <;> simp_all

/-- A record starts with its first field, unless the whole of it is blank. Before spaces the reading goes back. -/
theorem recordStart_field (indented : Bool) (lineCount : Nat) (inside : ∀ c ∈ text, endsField c = false)
    (comma : ∀ c ∈ tail.head?, c = ',') (visible : ∃ c ∈ text ++ tail, isSpace c = false) :
    recordStart indented lineCount place (text ++ tail ++ rest) =
      some (lineCount, ⟨if indented || (text ++ tail).head?.any isSpace then place else text ++ tail ++ rest, place⟩) := by
  induction text generalizing indented with
  | nil =>
    cases tail with
    | nil => simp at visible
    | cons c tail =>
      obtain rfl := comma c rfl
      rw [List.nil_append, List.cons_append, recordStart_cons indented lineCount (by decide) (by decide)]
      simp [isSpace]
  | cons c text ih =>
    have ordinary := inside c List.mem_cons_self
    simp only [endsField, isLineEnd, Bool.or_eq_false_iff, beq_eq_false_iff_ne] at ordinary
    rw [List.cons_append, List.cons_append, recordStart_cons indented lineCount ordinary.2.1 ordinary.2.2]
    by_cases space : isSpace c = true
    · have more : ∃ c ∈ text ++ tail, isSpace c = false := by
        obtain ⟨d, member, notSpace⟩ := visible
        refine ⟨d, (List.mem_cons.mp member).resolve_left ?_, notSpace⟩
        rintro rfl
        rw [space] at notSpace
        cases notSpace
      rw [if_pos (isSpace_iff.mp space), ih true (fun d member => inside d (List.mem_cons_of_mem _ member)) more]
      simp [space]
    · rw [if_neg fun isSpace => space (isSpace_iff.mpr isSpace)]
      simp [space]

theorem recordStart_spaces (indented : Bool) (lineCount : Nat) {spaces : List Char}
    (isSpaces : ∀ c ∈ spaces, isSpace c = true) :
    ∃ after, recordStart indented lineCount place (spaces ++ rest) = recordStart after lineCount place rest := by
  induction spaces generalizing indented with
  | nil => exact ⟨indented, rfl⟩
  | cons c spaces ih =>
    obtain ⟨after, passed⟩ := ih true fun d member => isSpaces d (List.mem_cons_of_mem _ member)
    have space := isSpace_iff.mp (isSpaces c List.mem_cons_self)
    refine ⟨after, ?_⟩
    rw [List.cons_append, recordStart_cons, if_pos space, passed]
    · rcases space with rfl | rfl <;> decide
    · rcases space with rfl | rfl <;> decide

theorem recordStart_quote (lineCount : Nat) {text : List Char} :
    recordStart false lineCount place ('\x22' :: text) = some (lineCount, ⟨'\x22' :: text, place⟩) := by
  rw [recordStart_cons false lineCount (by decide) (by decide)]
  simp

theorem recordStart_spelled (lineCount : Nat) {field : FieldSpelling} (proper : field.IsProper)
    (comma : ∀ c ∈ tail.head?, c = ',') (visible : ∃ c ∈ field.source ++ tail, isSpace c = false) :
    recordStart false lineCount place (field.source ++ tail ++ rest) =
      some (lineCount,
        ⟨if (field.source ++ tail).head?.any isSpace then place else field.source ++ tail ++ rest, place⟩) := by
  cases field with
  | bare text => exact recordStart_field false lineCount proper.inside comma visible
  | quoted body behind => exact recordStart_quote lineCount

/-- The next record starts at the first line that is not blank. Before spaces the reading goes back. -/
theorem TableLine.recordStart_source {line : TableLine} (proper : line.IsProper) (notBlank : line.isBlank = false)
    (lineCount : Nat) (place rest : List Char) :
    recordStart false lineCount place (line.source ++ rest) =
      some (lineCount, ⟨if line.isIndented then place else line.source ++ rest, place⟩) := by
  cases line with
  | blank spaces ending => cases notBlank
  | record first more ending =>
    have comma : ∀ c ∈ (more.flatMap fun field => ',' :: field.source).head?, c = ',' := by
      cases more with
      | nil => nofun
      | cons field more => simp
    obtain ⟨propers, visible⟩ := proper
    exact recordStart_spelled lineCount (propers first List.mem_cons_self) comma visible
  | unclosed fields body =>
    cases fields with
    | nil => exact recordStart_quote lineCount
    | cons field fields =>
      have comma : ∀ c ∈ (',' :: TableLine.source (.unclosed fields body)).head?, c = ',' := by simp
      have visible : ∃ c ∈ field.source ++ ',' :: TableLine.source (.unclosed fields body), isSpace c = false :=
        ⟨',', by simp, by decide⟩
      simp only [TableLine.isIndented, TableLine.isBlank, Bool.not_false, Bool.true_and,
        TableLine.source_unclosed_cons]
      exact recordStart_spelled lineCount (proper field List.mem_cons_self) comma visible

/-- The end of a blank line. After a carriage return alone the reading still goes back to where it did. -/
theorem recordStart_ending (indented : Bool) (lineCount : Nat) {ending : List Char} (ends : EndsLine ending rest)
    (noFeed : ending = ['\r'] → rest.head? ≠ some '\n') (noComma : ending = ['\r'] → rest.head? ≠ some ',') :
    recordStart indented lineCount place (ending ++ rest) =
      if ending = [] then none
      else recordStart false (lineCount + 1) (if ending = ['\r'] then place else rest) rest := by
  rcases ends with member | ⟨rfl, rfl⟩
  · simp only [List.mem_cons, List.not_mem_nil, or_false] at member
    rcases member with rfl | rfl | rfl
    · rfl
    · have feed := noFeed rfl
      have comma := noComma rfl
      cases rest with
      | nil => rfl
      | cons c rest =>
        rw [List.cons_append, List.nil_append, recordStart] <;> simp_all
    · rfl
  · rfl

end Spot

/-- Whether the reading is not led astray between two lines. It is when a carriage return alone stands before a record
that begins with a space, or between a blank line and a comma. -/
def TableLine.KeepsPlace (line next : TableLine) : Prop :=
  line.ending = ['\r'] →
    next.isIndented = false ∧ (line.isBlank = true → next.source.head? ≠ some ',')

instance (line next : TableLine) : Decidable (line.KeepsPlace next) := inferInstanceAs (Decidable (_ → _))

namespace IsTable

variable {line next : TableLine} {rest left : List TableLine}

theorem head_source (table : IsTable (next :: rest)) (comma : (tableText (next :: rest)).head? = some ',') :
    next.source.head? = some ',' := by
  cases table with
  | cons proper ends noFeed table =>
    rw [tableText_cons] at comma
    cases source : next.source with
    | cons c more =>
      rw [source] at comma
      exact comma
    | nil =>
      rw [source, List.nil_append] at comma
      rcases ends with member | ⟨ending, ended⟩
      · simp only [List.mem_cons, List.not_mem_nil, or_false] at member
        rcases member with ending | ending | ending <;> simp [ending] at comma
      · simp [ending, ended] at comma

/-- There is no record where there is no text. -/
theorem records_eq_nil (table : IsTable left) (ended : tableText left = []) : tableRecords left = [] := by
  induction table with
  | nil => rfl
  | @cons line rest proper ends noFeed table ih =>
    simp only [tableText_cons, List.append_eq_nil_iff] at ended
    obtain ⟨⟨source, -⟩, ended⟩ := ended
    cases line with
    | blank spaces ending => exact ih ended
    | record first more ending =>
      obtain ⟨c, member, -⟩ := proper.2
      rw [show first.source ++ (more.flatMap fun field => ',' :: field.source) = [] from source] at member
      cases member
    | unclosed fields body => exact absurd source (List.append_ne_nil_of_right_ne_nil _ (List.cons_ne_nil _ _))

/-- A blank line is passed over. -/
theorem recordStart_blank {spaces ending : List Char} (table : IsTable (.blank spaces ending :: rest))
    (upright : (TableLine.blank spaces ending :: rest).IsChain TableLine.KeepsPlace) (lineCount : Nat)
    (place : List Char) :
    recordStart false lineCount place (tableText (.blank spaces ending :: rest)) =
      if ending = [] then none
      else recordStart false (lineCount + 1) (if ending = ['\r'] then place else tableText rest) (tableText rest) := by
  cases table with
  | cons proper ends noFeed table =>
    have noComma : ending = ['\r'] → (tableText rest).head? ≠ some ',' := by
      intro isReturn comma
      cases rest with
      | nil => cases comma
      | cons next more => exact ((List.isChain_cons_cons.mp upright).1 isReturn).2 rfl (table.head_source comma)
    obtain ⟨after, passed⟩ := recordStart_spaces false lineCount proper
    rw [tableText_cons, List.append_assoc]
    exact passed.trans (recordStart_ending after lineCount ends noFeed noComma)

/-- The reading passes over blank lines to the next record. -/
theorem exists_recordStart {before : TableLine} {place : List Char} (table : IsTable left)
    (upright : (before :: left).IsChain TableLine.KeepsPlace)
    (spot : before.ending = ['\r'] ∨ place = tableText left) (lineCount : Nat) :
    (recordStart false lineCount place (tableText left) = none ∧ tableRecords left = []) ∨
      ∃ line rest count last, recordStart false lineCount place (tableText left) =
          some (count, ⟨tableText (line :: rest), last⟩) ∧ line.isBlank = false ∧ IsTable (line :: rest) ∧
        (line :: rest).IsChain TableLine.KeepsPlace ∧ tableRecords left = tableRecords (line :: rest) := by
  induction table generalizing before place lineCount with
  | nil => exact Or.inl ⟨rfl, rfl⟩
  | @cons line rest proper ends noFeed table ih =>
    obtain ⟨keeps, further⟩ := List.isChain_cons_cons.mp upright
    have whole : IsTable (line :: rest) := .cons proper ends noFeed table
    cases blank : line.isBlank with
    | true =>
      cases line with
      | record => cases blank
      | unclosed => cases blank
      | blank spaces ending =>
        have passed := whole.recordStart_blank further lineCount place
        by_cases last : ending = []
        · have ended : tableText rest = [] := by
            rcases ends with member | ⟨-, ended⟩
            · simp [TableLine.ending, last] at member
            · exact ended
          rw [if_pos last] at passed
          exact Or.inl ⟨passed, table.records_eq_nil ended⟩
        · rw [if_neg last] at passed
          rw [passed]
          refine ih further ?_ (lineCount + 1)
          by_cases isReturn : ending = ['\r']
          · exact Or.inl isReturn
          · exact Or.inr (if_neg isReturn)
    | false =>
      have here : (if line.isIndented then place else tableText (line :: rest)) = tableText (line :: rest) := by
        rcases spot with isReturn | rfl
        · simp [(keeps isReturn).1]
        · exact ite_self _
      have start := TableLine.recordStart_source proper blank lineCount place (line.ending ++ tableText rest)
      rw [← List.append_assoc, ← tableText_cons, here] at start
      exact Or.inr ⟨line, rest, lineCount, place, start, blank, whole, further, rfl⟩

end IsTable

namespace CsvHolding

/-- Takes in fields, each up to its end. -/
def addFields (held : CsvHolding) (fields : CsvRecord) : Except CsvError CsvHolding :=
  fields.foldlM (fun held field => (held.addText field).bind addField) held

theorem addFields_cons (held : CsvHolding) (field : List Char) (fields : CsvRecord) :
    held.addFields (field :: fields) =
      ((held.addText field).bind addField).bind fun after => after.addFields fields := rfl

variable {held after : CsvHolding}

theorem records_of_addChar {c : Char} (added : held.addChar c = .ok after) : after.records = held.records := by
  rw [addChar] at added
  split at added
  · cases added
  · cases added
    rfl

theorem records_of_addField (added : held.addField = .ok after) : after.records = held.records := by
  rw [addField] at added
  split at added
  · cases added
  · cases added
    rfl

theorem records_of_addText {text : List Char} (added : held.addText text = .ok after) :
    after.records = held.records := by
  induction text generalizing held with
  | nil =>
    cases added
    rfl
  | cons c text ih =>
    obtain ⟨next, first, more⟩ := bind_eq_ok added
    exact (ih more).trans (records_of_addChar first)

theorem records_of_addFields {fields : CsvRecord} (added : held.addFields fields = .ok after) :
    after.records = held.records := by
  induction fields generalizing held with
  | nil =>
    cases added
    rfl
  | cons field fields ih =>
    obtain ⟨next, first, more⟩ := bind_eq_ok added
    obtain ⟨text, inside, ended⟩ := bind_eq_ok first
    exact (ih more).trans ((records_of_addField ended).trans (records_of_addText inside))

end CsvHolding

/-- How and where the reading of a record stops. -/
def stopAt (ending rest last : List Char) : CsvEnding × CsvSpot :=
  match ending with
  | [] => (.textEnd, ⟨rest, last⟩)
  | '\n' :: _ => (.lineFeed, ⟨rest, rest⟩)
  | _ :: more => (.carriageReturn, ⟨more ++ rest, last⟩)

section Record

variable {ending rest : List Char}

theorem readRecord_ending (ends : EndsLine ending rest) {place : CsvPlace} (outside : place ≠ .inQuotes)
    (field : List Char) (fields : CsvRecord) (held : CsvHolding) (line : List Char) :
    readRecord place field fields held line (ending ++ rest) =
      held.close (field.reverse :: fields) (stopAt ending rest line).1 (stopAt ending rest line).2 := by
  rcases ends with member | ⟨rfl, rfl⟩
  · simp only [List.mem_cons, List.not_mem_nil, or_false] at member
    rcases member with rfl | rfl | rfl
    · simp [readRecord, outside, stopAt]
    · simp [readRecord, outside, stopAt]
    · simp [readRecord, outside, stopAt]
  · simp [readRecord, outside, stopAt]

theorem readRecord_comma {place : CsvPlace} (outside : place ≠ .inQuotes) (field : List Char) (fields : CsvRecord)
    (held : CsvHolding) (line rest : List Char) :
    readRecord place field fields held line (',' :: rest) =
      held.addField.bind fun after => readRecord .fieldStart [] (field.reverse :: fields) after line rest := by
  rw [readRecord, if_neg outside, if_neg (by simp), if_pos rfl]
  cases held.addField <;> rfl

/-- The fields of a record are read as the values that they spell. -/
theorem readRecord_record {first : FieldSpelling} {more : List FieldSpelling}
    (propers : ∀ field ∈ first :: more, field.IsProper) (ends : EndsLine ending rest) (before : CsvRecord)
    (line : List Char) : ∃ last, ∀ held, readRecord .fieldStart [] before held line
      (TableLine.source (.record first more ending) ++ (ending ++ rest)) =
        (held.addFields ((first :: more).map FieldSpelling.value)).map fun after =>
          ⟨before.reverse ++ (first :: more).map FieldSpelling.value, after, (stopAt ending rest last).1,
            (stopAt ending rest last).2⟩ := by
  induction more generalizing first before line with
  | nil =>
    obtain ⟨place, last, outside, read⟩ :=
      readRecord_field (propers first List.mem_cons_self) before line (ending ++ rest)
    refine ⟨last, fun held => ?_⟩
    have source : TableLine.source (.record first [] ending) = first.source := List.append_nil _
    rw [source, read, List.map_singleton, CsvHolding.addFields_cons]
    cases held.addText first.value with
    | error error => rfl
    | ok after =>
      simp only [Except.bind]
      rw [readRecord_ending ends outside, CsvHolding.close, List.reverse_reverse, List.reverse_cons]
      cases after.addField <;> rfl
  | cons next more ih =>
    have source : TableLine.source (.record first (next :: more) ending) ++ (ending ++ rest) =
        first.source ++ ',' :: (TableLine.source (.record next more ending) ++ (ending ++ rest)) := by
      rw [TableLine.source_record_cons, List.append_assoc, List.cons_append]
    obtain ⟨place, between, outside, read⟩ := readRecord_field (propers first List.mem_cons_self) before line
      (',' :: (TableLine.source (.record next more ending) ++ (ending ++ rest)))
    obtain ⟨last, readMore⟩ := ih (fun field member => propers field (List.mem_cons_of_mem _ member))
      (first.value :: before) between
    refine ⟨last, fun held => ?_⟩
    rw [source, read, List.map_cons, CsvHolding.addFields_cons]
    cases held.addText first.value with
    | error error => rfl
    | ok after =>
      simp only [Except.bind]
      rw [readRecord_comma outside, List.reverse_reverse]
      cases after.addField with
      | error error => rfl
      | ok after =>
        simp only [Except.bind]
        rw [readMore, List.reverse_cons, List.append_assoc, List.singleton_append]

/-- There is no record where quotes stay open. -/
theorem readRecord_unclosed {fields : List FieldSpelling} {body : List Char}
    (propers : ∀ field ∈ fields, field.IsProper) (before : CsvRecord) (held : CsvHolding) (line : List Char)
    (found : CsvFound) :
    readRecord .fieldStart [] before held line (TableLine.source (.unclosed fields body)) ≠ .ok found := by
  induction fields generalizing before held line with
  | nil => exact readRecord_open body line held found
  | cons field fields ih =>
    obtain ⟨place, between, outside, read⟩ := readRecord_field (propers field List.mem_cons_self) before line
      (',' :: TableLine.source (.unclosed fields body))
    intro taken
    rw [TableLine.source_unclosed_cons, read] at taken
    obtain ⟨after, -, taken⟩ := bind_eq_ok taken
    rw [readRecord_comma outside] at taken
    obtain ⟨next, -, taken⟩ := bind_eq_ok taken
    exact ih (fun field member => propers field (List.mem_cons_of_mem _ member)) _ next between taken

end Record

/-- Only an empty field has a comma at its beginning, and that one ends it. -/
theorem FieldSpelling.eq_of_comma {field : FieldSpelling} (proper : field.IsProper) {tail : List Char}
    (comma : (field.source ++ tail).head? = some ',') : field = .bare [] := by
  cases field with
  | quoted body behind => simp [source] at comma
  | bare text =>
    cases text with
    | nil => rfl
    | cons c text =>
      obtain rfl : c = ',' := Option.some.inj comma
      have inside := proper.inside ',' List.mem_cons_self
      cases inside

end Reckoner

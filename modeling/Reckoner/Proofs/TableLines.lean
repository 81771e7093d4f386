import Reckoner.Proofs.FieldSpelling
import Reckoner.Proofs.LineFiles

namespace Reckoner

/-- The characters that make a line blank. -/
def isSpace (c : Char) : Bool := c == ' ' || c == '\t'

/-- A line of a table: a blank one, a record, or the fields before quotes that stay open until the text ends. Between
quotes a record goes on beyond line ends. -/
inductive TableLine
  | blank (spaces ending : List Char)
  | record (first : FieldSpelling) (more : List FieldSpelling) (ending : List Char)
  | unclosed (fields : List FieldSpelling) (body : List Char)

namespace TableLine

def source : TableLine → List Char
  | blank spaces _ => spaces
  | record first more _ => first.source ++ more.flatMap fun field => ',' :: field.source
  | unclosed fields body => (fields.flatMap fun field => field.source ++ [',']) ++ '\x22' :: doubleQuotes body

theorem source_record_cons (first next : FieldSpelling) (more : List FieldSpelling) (ending : List Char) :
    source (record first (next :: more) ending) = first.source ++ ',' :: source (record next more ending) := by
  simp [source]

theorem source_unclosed_cons (field : FieldSpelling) (fields : List FieldSpelling) (body : List Char) :
    source (unclosed (field :: fields) body) = field.source ++ ',' :: source (unclosed fields body) := by
  simp [source]

def ending : TableLine → List Char
  | blank _ ending => ending
  | record _ _ ending => ending
  | unclosed _ _ => []

def record? : TableLine → Option CsvRecord
  | record first more _ => some ((first :: more).map FieldSpelling.value)
  | _ => none

def isBlank : TableLine → Bool
  | blank _ _ => true
  | _ => false

/-- Whether a line that is not blank begins with a space. -/
def isIndented (line : TableLine) : Bool := !line.isBlank && line.source.head?.any isSpace

/-- What tells the lines apart: a blank one holds spaces only, and a record has something else. -/
def IsProper : TableLine → Prop
  | blank spaces _ => ∀ c ∈ spaces, isSpace c = true
  | record first more _ =>
    (∀ field ∈ first :: more, field.IsProper) ∧
      ∃ c ∈ first.source ++ more.flatMap fun field => ',' :: field.source, isSpace c = false
  | unclosed fields _ => ∀ field ∈ fields, field.IsProper

instance : DecidablePred IsProper
  | blank spaces _ => decidable_of_iff (spaces.all isSpace) (by simp [IsProper])
  | record first more _ =>
    decidable_of_iff ((∀ field ∈ first :: more, field.IsProper) ∧
        (first.source ++ more.flatMap fun field => ',' :: field.source).any fun c => !isSpace c)
      (by simp only [IsProper, List.any_eq_true, Bool.not_eq_true'])
  | unclosed fields _ => inferInstanceAs (Decidable (∀ field ∈ fields, field.IsProper))

end TableLine

def tableText (lines : List TableLine) : List Char := lines.flatMap fun line => line.source ++ line.ending

@[simp]
theorem tableText_cons (line : TableLine) (rest : List TableLine) :
    tableText (line :: rest) = line.source ++ line.ending ++ tableText rest := List.flatMap_cons

/-- The records in a table, the header among them. -/
def tableRecords (lines : List TableLine) : List CsvRecord := lines.filterMap TableLine.record?

/-- The lines that make a table. A line feed behind a carriage return is no line of its own. -/
inductive IsTable : List TableLine → Prop
  | nil : IsTable []
  | cons {line : TableLine} {rest : List TableLine} : line.IsProper → EndsLine line.ending (tableText rest) →
      (line.ending = ['\r'] → (tableText rest).head? ≠ some '\n') → IsTable rest → IsTable (line :: rest)

instance IsTable.decide : DecidablePred IsTable
  | [] => isTrue .nil
  | line :: rest =>
    have : Decidable (IsTable rest) := IsTable.decide rest
    decidable_of_iff (line.IsProper ∧ EndsLine line.ending (tableText rest) ∧
        (line.ending = ['\r'] → (tableText rest).head? ≠ some '\n') ∧ IsTable rest)
      ⟨fun ⟨proper, ends, noFeed, table⟩ => .cons proper ends noFeed table,
        fun | .cons proper ends noFeed table => ⟨proper, ends, noFeed, table⟩⟩

theorem isSpace_iff {c : Char} : isSpace c = true ↔ c = ' ' ∨ c = '\t' := by simp [isSpace]

/-- A text begins with the fields of a record, up to the end of a line, or quotes stay open in it. -/
theorem exists_fields (text : List Char) :
    (∃ first more rest, text = TableLine.source (.record first more []) ++ rest ∧
      (∀ field ∈ first :: more, field.IsProper) ∧ ∀ c ∈ rest.head?, isLineEnd c = true) ∨
    ∃ fields body, text = TableLine.source (.unclosed fields body) ∧ ∀ field ∈ fields, field.IsProper := by
  rcases exists_field text with ⟨field, rest, rfl, proper, ends⟩ | ⟨body, rfl⟩
  · by_cases comma : rest.head? = some ','
    · obtain ⟨behind, rfl⟩ := List.head?_eq_some_iff.mp comma
      rcases exists_fields behind with ⟨first, more, rest, rfl, propers, stops⟩ | ⟨fields, body, rfl, propers⟩
      · refine Or.inl ⟨field, first :: more, rest, ?_, List.forall_mem_cons.mpr ⟨proper, propers⟩, stops⟩
        rw [TableLine.source_record_cons, List.append_assoc, List.cons_append]
      · refine Or.inr ⟨field :: fields, body, ?_, List.forall_mem_cons.mpr ⟨proper, propers⟩⟩
        rw [TableLine.source_unclosed_cons]
    · refine Or.inl ⟨field, [], rest, by simp [TableLine.source], by simpa using proper, fun c first => ?_⟩
      have stops := ends c first
      simp only [endsField, Bool.or_eq_true, beq_iff_eq] at stops
      refine stops.resolve_left ?_
      rintro rfl
      exact comma first
  · exact Or.inr ⟨[], body, rfl, List.forall_mem_nil _⟩
termination_by text.length
decreasing_by subst_vars; simp; omega

/-- Every text is a table, perhaps with quotes that stay open. -/
theorem exists_table (text : List Char) : ∃ lines, tableText lines = text ∧ IsTable lines := by
  by_cases empty : text = []
  · exact ⟨[], empty.symm, .nil⟩
  · rcases exists_fields text with ⟨first, more, behind, front, propers, stops⟩ | ⟨fields, body, rfl, propers⟩
    · obtain ⟨ending, rest, rfl, ends, apart⟩ := exists_ending stops
      rw [← List.append_assoc] at front
      have shorter : rest.length < text.length := front ▸ ends.length_lt (front ▸ empty)
      obtain ⟨lines, rfl, table⟩ := exists_table rest
      by_cases spaces : ∀ c ∈ TableLine.source (.record first more []), isSpace c = true
      · exact ⟨.blank _ ending :: lines, (tableText_cons _ _).trans front.symm, .cons spaces ends apart table⟩
      · simp only [not_forall, Bool.not_eq_true] at spaces
        obtain ⟨c, member, notSpace⟩ := spaces
        exact ⟨.record first more ending :: lines, (tableText_cons _ _).trans front.symm,
          .cons ⟨propers, c, member, notSpace⟩ ends apart table⟩
    · exact ⟨[.unclosed fields body], by simp [tableText, TableLine.ending],
        .cons propers (Or.inr ⟨rfl, rfl⟩) nofun .nil⟩
termination_by text.length

end Reckoner

import Reckoner.Csv.Reading
import Reckoner.Proofs.ContentLines

namespace Reckoner

/-- The characters that end a field outside quotes. -/
def endsField (c : Char) : Bool := c == ',' || isLineEnd c

/-- Text of a field outside quotes. A quote at its beginning would open quotes or go on with them. -/
structure Outside (text : List Char) : Prop where
  unquoted : text.head? ≠ some '\x22'
  inside : ∀ c ∈ text, endsField c = false

instance (text : List Char) : Decidable (Outside text) :=
  decidable_of_iff (text.head? ≠ some '\x22' ∧ text.all fun c => !endsField c)
    ⟨fun ⟨unquoted, inside⟩ => ⟨unquoted, by simpa using inside⟩,
      fun ⟨unquoted, inside⟩ => ⟨unquoted, by simpa using inside⟩⟩

/-- A field as a table spells it: as it stands, or with its beginning between quotes. -/
inductive FieldSpelling
  | bare (text : List Char)
  | quoted (body tail : List Char)

namespace FieldSpelling

def source : FieldSpelling → List Char
  | bare text => text
  | quoted body tail => '\x22' :: (doubleQuotes body ++ '\x22' :: tail)

def value : FieldSpelling → List Char
  | bare text => text
  | quoted body tail => body ++ tail

def IsProper : FieldSpelling → Prop
  | bare text => Outside text
  | quoted _ tail => Outside tail

instance : DecidablePred IsProper
  | bare text => inferInstanceAs (Decidable (Outside text))
  | quoted _ tail => inferInstanceAs (Decidable (Outside tail))

end FieldSpelling

theorem doubleQuotes_cons_quote (text : List Char) :
    doubleQuotes ('\x22' :: text) = '\x22' :: '\x22' :: doubleQuotes text := rfl

theorem doubleQuotes_cons {c : Char} (notQuote : c ≠ '\x22') (text : List Char) :
    doubleQuotes (c :: text) = c :: doubleQuotes text := by
  rw [doubleQuotes, List.flatMap_cons, if_neg notQuote]
  rfl

section Existence

/-- Quotes are closed by a quote that no other one follows, or they stay open. -/
theorem exists_quoted (text : List Char) :
    (∃ body rest, text = doubleQuotes body ++ '\x22' :: rest ∧ rest.head? ≠ some '\x22') ∨
      ∃ body, text = doubleQuotes body := by
  match text with
  | [] => exact Or.inr ⟨[], rfl⟩
  | c :: text =>
    by_cases quote : c = '\x22'
    · subst quote
      by_cases doubled : text.head? = some '\x22'
      · obtain ⟨more, rfl⟩ := List.head?_eq_some_iff.mp doubled
        rcases exists_quoted more with ⟨body, rest, rfl, closed⟩ | ⟨body, rfl⟩
        · exact Or.inl ⟨'\x22' :: body, rest, rfl, closed⟩
        · exact Or.inr ⟨'\x22' :: body, rfl⟩
      · exact Or.inl ⟨[], text, rfl, doubled⟩
    · rcases exists_quoted text with ⟨body, rest, rfl, closed⟩ | ⟨body, rfl⟩
      · exact Or.inl ⟨c :: body, rest, by rw [doubleQuotes_cons quote, List.cons_append], closed⟩
      · exact Or.inr ⟨c :: body, (doubleQuotes_cons quote body).symm⟩
termination_by text.length
decreasing_by all_goals (subst_vars; simp only [List.length_cons]; omega)

/-- At the beginning of a field stands a field, up to where it ends, or quotes that stay open. -/
theorem exists_field (text : List Char) :
    (∃ field : FieldSpelling, ∃ rest, text = field.source ++ rest ∧ field.IsProper ∧
      ∀ c ∈ rest.head?, endsField c = true) ∨ ∃ body, text = '\x22' :: doubleQuotes body := by
  by_cases opens : text.head? = some '\x22'
  · obtain ⟨more, rfl⟩ := List.head?_eq_some_iff.mp opens
    rcases exists_quoted more with ⟨body, behind, rfl, closed⟩ | ⟨body, rfl⟩
    · obtain ⟨tail, rest, rfl, inside, ends⟩ := exists_span endsField behind
      refine Or.inl ⟨.quoted body tail, rest, by simp [FieldSpelling.source], ⟨?_, inside⟩, ends⟩
      cases tail with
      | nil => nofun
      | cons c tail => exact closed
    · exact Or.inr ⟨body, rfl⟩
  · obtain ⟨field, rest, rfl, inside, ends⟩ := exists_span endsField text
    refine Or.inl ⟨.bare field, rest, rfl, ⟨?_, inside⟩, ends⟩
    cases field with
    | nil => nofun
    | cons c field => exact opens

end Existence

namespace CsvHolding

/-- Takes in the characters of a text. -/
def addText (held : CsvHolding) (text : List Char) : Except CsvError CsvHolding := text.foldlM addChar held

theorem addText_cons (held : CsvHolding) (c : Char) (text : List Char) :
    held.addText (c :: text) = (held.addChar c).bind fun after => after.addText text := rfl

theorem addText_append (held : CsvHolding) (text more : List Char) :
    held.addText (text ++ more) = (held.addText text).bind fun after => after.addText more :=
  List.foldlM_append

end CsvHolding

section Reading

variable {held : CsvHolding} {fields : CsvRecord} {place : CsvPlace} {rest done line : List Char}

/-- Outside quotes a character that does not end the field is taken in as it stands. -/
theorem readRecord_char {c : Char} (outside : place ≠ .inQuotes) (inside : endsField c = false)
    (unquoted : c = '\x22' → place = .bare) :
    readRecord place done fields held line (c :: rest) =
      (held.addChar c).bind fun after => readRecord .bare (c :: done) fields after line rest := by
  simp only [endsField, isLineEnd, Bool.or_eq_false_iff, beq_eq_false_iff_ne] at inside
  obtain ⟨noComma, noFeed, noReturn⟩ := inside
  have notOpened : ¬(c = '\x22' ∧ place = .fieldStart) := by
    rintro ⟨quote, rfl⟩
    cases unquoted quote
  have notDoubled : ¬(c = '\x22' ∧ place = .afterQuote) := by
    rintro ⟨quote, rfl⟩
    cases unquoted quote
  rw [readRecord, if_neg outside, if_neg notOpened, if_neg noComma, if_neg noFeed, if_neg noReturn, if_neg notDoubled]
  cases held.addChar c <;> rfl

theorem readRecord_bare {text : List Char} (inside : ∀ c ∈ text, endsField c = false) :
    readRecord .bare done fields held line (text ++ rest) =
      (held.addText text).bind fun after => readRecord .bare (text.reverse ++ done) fields after line rest := by
  induction text generalizing done held with
  | nil => rfl
  | cons c text ih =>
    rw [List.cons_append, readRecord_char (by decide) (inside c List.mem_cons_self) fun _ => rfl,
      CsvHolding.addText_cons]
    cases held.addChar c with
    | error error => rfl
    | ok after =>
      simp only [Except.bind]
      rw [ih fun d member => inside d (List.mem_cons_of_mem _ member), List.reverse_cons, List.append_assoc]
      rfl

/-- At the beginning of a field or behind its quotes text is taken in as it stands. -/
theorem readRecord_outside {text : List Char} (outside : place ≠ .inQuotes) (isOutside : Outside text)
    (fields : CsvRecord) (line rest : List Char) :
    ∃ last, last ≠ .inQuotes ∧ ∀ done held, readRecord place done fields held line (text ++ rest) =
      (held.addText text).bind fun after => readRecord last (text.reverse ++ done) fields after line rest := by
  obtain ⟨unquoted, inside⟩ := isOutside
  cases text with
  | nil => exact ⟨place, outside, fun _ _ => rfl⟩
  | cons c text =>
    refine ⟨.bare, nofun, fun done held => ?_⟩
    rw [List.cons_append, readRecord_char outside (inside c List.mem_cons_self) fun quote => absurd (by rw [quote]; rfl) unquoted,
      CsvHolding.addText_cons]
    cases held.addChar c with
    | error error => rfl
    | ok after =>
      simp only [Except.bind]
      rw [readRecord_bare fun d member => inside d (List.mem_cons_of_mem _ member), List.reverse_cons, List.append_assoc]
      rfl

/-- Between quotes every character is taken in, and a quote that is doubled is taken in once. -/
theorem readRecord_quoted (fields : CsvRecord) (body line rest : List Char) :
    ∃ last, ∀ done held, readRecord .inQuotes done fields held line (doubleQuotes body ++ rest) =
      (held.addText body).bind fun after => readRecord .inQuotes (body.reverse ++ done) fields after last rest := by
  induction body generalizing line with
  | nil => exact ⟨line, fun _ _ => rfl⟩
  | cons c body ih =>
    obtain ⟨before, shifts⟩ : ∃ before, ∀ done held,
        readRecord .inQuotes done fields held line (doubleQuotes (c :: body) ++ rest) =
          (held.addChar c).bind fun after =>
            readRecord .inQuotes (c :: done) fields after before (doubleQuotes body ++ rest) := by
      by_cases quote : c = '\x22'
      · subst quote
        refine ⟨line, fun done held => ?_⟩
        rw [doubleQuotes_cons_quote, List.cons_append, List.cons_append, readRecord, if_pos rfl, if_pos rfl, readRecord]
        cases held.addChar '\x22' <;> rfl
      · refine ⟨if c = '\n' then doubleQuotes body ++ rest else line, fun done held => ?_⟩
        rw [doubleQuotes_cons quote, List.cons_append, readRecord, if_pos rfl, if_neg quote]
        cases held.addChar c <;> rfl
    obtain ⟨last, read⟩ := ih before
    refine ⟨last, fun done held => ?_⟩
    rw [shifts, CsvHolding.addText_cons]
    cases held.addChar c with
    | error error => rfl
    | ok after =>
      simp only [Except.bind]
      rw [read, List.reverse_cons, List.append_assoc]
      rfl

/-- A field is read as the value that it spells, up to what ends it. -/
theorem readRecord_field {field : FieldSpelling} (proper : field.IsProper) (fields : CsvRecord)
    (line rest : List Char) :
    ∃ place last, place ≠ .inQuotes ∧ ∀ held,
      readRecord .fieldStart [] fields held line (field.source ++ rest) =
        (held.addText field.value).bind fun after => readRecord place field.value.reverse fields after last rest := by
  cases field with
  | bare text =>
    have starts : CsvPlace.fieldStart ≠ .inQuotes := nofun
    obtain ⟨place, outside, read⟩ := readRecord_outside starts proper fields line rest
    refine ⟨place, line, outside, fun held => ?_⟩
    rw [FieldSpelling.source, FieldSpelling.value, read, List.append_nil]
  | quoted body tail =>
    have behind : CsvPlace.afterQuote ≠ .inQuotes := nofun
    obtain ⟨last, readBody⟩ := readRecord_quoted fields body line ('\x22' :: (tail ++ rest))
    obtain ⟨place, outside, readTail⟩ := readRecord_outside behind proper fields last rest
    refine ⟨place, last, outside, fun held => ?_⟩
    have opened : readRecord .fieldStart [] fields held line ((FieldSpelling.quoted body tail).source ++ rest) =
        readRecord .inQuotes [] fields held line (doubleQuotes body ++ '\x22' :: (tail ++ rest)) := by
      rw [FieldSpelling.source, List.cons_append, List.append_assoc, List.cons_append, readRecord]
      rfl
    rw [opened, readBody, FieldSpelling.value, CsvHolding.addText_append]
    cases held.addText body with
    | error error => rfl
    | ok after =>
      simp only [Except.bind, List.append_nil, List.reverse_append]
      exact readTail body.reverse after

/-- There is no record in quotes that stay open. -/
theorem readRecord_open (body line : List Char) (held : CsvHolding) (found : CsvFound) :
    readRecord .fieldStart [] fields held line ('\x22' :: doubleQuotes body) ≠ .ok found := by
  obtain ⟨last, read⟩ := readRecord_quoted fields body line []
  have opened : readRecord .fieldStart [] fields held line ('\x22' :: doubleQuotes body) =
      readRecord .inQuotes [] fields held line (doubleQuotes body ++ []) := by
    rw [List.append_nil, readRecord]
    rfl
  rw [opened, read]
  cases held.addText body <;> nofun

end Reading

end Reckoner

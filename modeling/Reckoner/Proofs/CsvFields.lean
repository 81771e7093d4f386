import Reckoner.Proofs.LineReading

namespace Reckoner

def byteSize (text : List Char) : Nat := (String.ofList text).utf8ByteSize

@[simp]
theorem byteSize_nil : byteSize [] = 0 := rfl

@[simp]
theorem byteSize_append (text more : List Char) : byteSize (text ++ more) = byteSize text + byteSize more := by
  rw [byteSize, String.ofList_append, String.utf8ByteSize_append]
  rfl

@[simp]
theorem byteSize_cons (c : Char) (text : List Char) : byteSize (c :: text) = c.utf8Size + byteSize text := by
  rw [byteSize, String.ofList_cons, String.utf8ByteSize_append, String.utf8ByteSize_singleton]
  rfl

/-- Whether a field is written between quotes. -/
def isMarked (field : List Char) : Bool := field.any fun c => c == ',' || c == '\x22' || c == '\n'

theorem csvField_of_isMarked {field : List Char} (marked : isMarked field = true) :
    csvField field = '\x22' :: doubleQuotes field ++ ['\x22'] := if_pos marked

theorem csvField_of_not_isMarked {field : List Char} (unmarked : ¬isMarked field = true) : csvField field = field :=
  if_neg unmarked

/-- A field that is read back as it was written: a carriage return in it needs quotes around the field, and it does
not bring them by itself. -/
def IsKept (field : List Char) : Prop := '\r' ∈ field → isMarked field = true

instance (field : List Char) : Decidable (IsKept field) := inferInstanceAs (Decidable (_ → _))

theorem isKept_of_oneLine {field : List Char} (noReturn : '\r' ∉ field) : IsKept field :=
  fun member => absurd member noReturn

/-- Without quotes around it, a field that is read back has no character with a meaning of its own. -/
theorem IsKept.plain {field : List Char} (kept : IsKept field) (unmarked : ¬isMarked field = true) :
    ∀ c ∈ field, c ∉ [',', '\x22', '\n', '\r'] := by
  have noReturn : '\r' ∉ field := fun member => unmarked (kept member)
  simp only [isMarked, List.any_eq_true, Bool.or_eq_true, beq_iff_eq, not_exists, not_and, not_or] at unmarked
  intro c member special
  obtain ⟨⟨noComma, noQuote⟩, noFeed⟩ := unmarked c member
  simp only [List.mem_cons, List.not_mem_nil, or_false] at special
  rcases special with comma | quote | feed | isReturn
  · exact noComma comma
  · exact noQuote quote
  · exact noFeed feed
  · exact noReturn (isReturn ▸ member)

namespace CsvHolding

variable {held after later : CsvHolding} {size : Nat}

/-- Room for so many bytes of text more, whatever fields and records they hold. -/
structure Fits (held : CsvHolding) (size : Nat) : Prop where
  bytes : held.bytes + size ≤ held.room.bytes
  fields : held.fields + size ≤ held.room.fields
  records : held.recordCount + size < held.room.records

/-- Some text of a record has been taken in, and there is room for so many bytes more. -/
structure TakesIn (held after : CsvHolding) (size : Nat) : Prop where
  fits : after.Fits size
  records : after.records = held.records
  recordCount : after.recordCount = held.recordCount
  room : after.room = held.room

theorem Fits.less {more : Nat} (fits : held.Fits more) (less : size ≤ more) : held.Fits size := by
  obtain ⟨bytes, fields, records⟩ := fits
  exact ⟨by omega, by omega, by omega⟩

theorem Fits.takesIn (fits : held.Fits size) : held.TakesIn held size := ⟨fits, rfl, rfl, rfl⟩

theorem TakesIn.trans {more : Nat} (first : held.TakesIn after more) (second : after.TakesIn later size) :
    held.TakesIn later size :=
  ⟨second.fits, second.records.trans first.records, second.recordCount.trans first.recordCount,
    second.room.trans first.room⟩

theorem exists_addChar (c : Char) (fits : held.Fits (c.utf8Size + size)) :
    ∃ after, held.addChar c = .ok after ∧ held.TakesIn after size := by
  obtain ⟨bytes, fields, records⟩ := fits
  refine ⟨{ held with bytes := held.bytes + c.utf8Size }, if_neg (by omega), ⟨?_, ?_, ?_⟩, rfl, rfl, rfl⟩
  · show held.bytes + c.utf8Size + size ≤ held.room.bytes
    omega
  · show held.fields + size ≤ held.room.fields
    omega
  · show held.recordCount + size < held.room.records
    omega

theorem exists_addText (text : List Char) (fits : held.Fits (byteSize text + size)) :
    ∃ after, held.addText text = .ok after ∧ held.TakesIn after size := by
  induction text generalizing held with
  | nil => exact ⟨held, rfl, (fits.less (Nat.le_add_left _ _)).takesIn⟩
  | cons c text ih =>
    rw [byteSize_cons, Nat.add_assoc] at fits
    obtain ⟨first, added, takesIn⟩ := exists_addChar c fits
    obtain ⟨after, addedText, within⟩ := ih takesIn.fits
    exact ⟨after, by rw [addText_cons, added]; exact addedText, takesIn.trans within⟩

theorem exists_addField (fits : held.Fits (1 + size)) :
    ∃ after, held.addField = .ok after ∧ held.TakesIn after size := by
  obtain ⟨bytes, fields, records⟩ := fits
  refine ⟨{ held with bytes := min (held.bytes + 1) held.room.bytes, fields := held.fields + 1 }, if_neg (by omega),
    ⟨?_, ?_, ?_⟩, rfl, rfl, rfl⟩
  · show min (held.bytes + 1) held.room.bytes + size ≤ held.room.bytes
    omega
  · show held.fields + 1 + size ≤ held.room.fields
    omega
  · show held.recordCount + size < held.room.records
    omega

end CsvHolding

variable {held : CsvHolding} {fields : CsvRecord} {line rest : List Char}

/-- A field that is read back is spelled as itself. -/
theorem exists_spelling {field : List Char} (kept : IsKept field) :
    ∃ spelling : FieldSpelling, spelling.IsProper ∧ spelling.source = csvField field ∧ spelling.value = field := by
  by_cases marked : isMarked field = true
  · refine ⟨.quoted field [], ⟨nofun, nofun⟩, ?_, List.append_nil field⟩
    rw [csvField_of_isMarked marked, FieldSpelling.source, List.cons_append]
  · refine ⟨.bare field, ⟨?_, fun c member => ?_⟩, (csvField_of_not_isMarked marked).symm, rfl⟩
    · intro quote
      have special := kept.plain marked '\x22' (List.mem_of_head? quote)
      simp at special
    · have ordinary := kept.plain marked c member
      simp only [List.mem_cons, List.not_mem_nil, or_false, not_or] at ordinary
      simp [endsField, isLineEnd, ordinary]

theorem byteSize_le_doubleQuotes (field : List Char) : byteSize field ≤ byteSize (doubleQuotes field) := by
  induction field with
  | nil => exact Nat.le_refl _
  | cons c field ih =>
    by_cases quote : c = '\x22'
    · subst quote
      rw [doubleQuotes_cons_quote]
      simp only [byteSize_cons]
      omega
    · rw [doubleQuotes_cons quote]
      simp only [byteSize_cons]
      omega

theorem byteSize_le_csvField (field : List Char) : byteSize field ≤ byteSize (csvField field) := by
  have doubled := byteSize_le_doubleQuotes field
  by_cases marked : isMarked field = true
  · rw [csvField_of_isMarked marked]
    simp only [byteSize_append, byteSize_cons]
    omega
  · rw [csvField_of_not_isMarked marked]

theorem csvLine_singleton (field : List Char) : csvLine [field] = csvField field ++ ['\n'] := by
  simp [csvLine, List.intercalate]

theorem csvLine_cons_cons (field next : List Char) (more : CsvRecord) :
    csvLine (field :: next :: more) = csvField field ++ ',' :: csvLine (next :: more) := by
  simp [csvLine, List.intercalate]

/-- A line is spelled as a record with its fields. -/
theorem exists_line {record : CsvRecord} (filled : record ≠ []) (kept : ∀ field ∈ record, IsKept field) :
    ∃ first more, (∀ field ∈ first :: more, field.IsProper) ∧ (first :: more).map FieldSpelling.value = record ∧
      TableLine.source (.record first more ['\n']) ++ ['\n'] = csvLine record := by
  induction record with
  | nil => exact absurd rfl filled
  | cons field record ih =>
    obtain ⟨spelling, proper, source, value⟩ := exists_spelling (kept field List.mem_cons_self)
    cases record with
    | nil =>
      refine ⟨spelling, [], by simpa using proper, by simp [value], ?_⟩
      rw [csvLine_singleton, ← source]
      simp [TableLine.source]
    | cons next record =>
      obtain ⟨first, more, propers, values, sources⟩ := ih (List.cons_ne_nil _ _) fun other member =>
        kept other (List.mem_cons_of_mem _ member)
      refine ⟨spelling, first :: more, List.forall_mem_cons.mpr ⟨proper, propers⟩, by rw [List.map_cons, value, values],
        ?_⟩
      rw [csvLine_cons_cons, ← source, ← sources, TableLine.source_record_cons, List.append_assoc, List.cons_append]

/-- The room that fields take in, each with the end of it. -/
def fieldsSize : CsvRecord → Nat
  | [] => 0
  | field :: fields => byteSize field + 1 + fieldsSize fields

theorem fieldsSize_le_csvLine {record : CsvRecord} (filled : record ≠ []) :
    fieldsSize record ≤ byteSize (csvLine record) := by
  induction record with
  | nil => exact absurd rfl filled
  | cons field record ih =>
    have size := byteSize_le_csvField field
    cases record with
    | nil =>
      have feed : '\n'.utf8Size = 1 := rfl
      rw [csvLine_singleton, byteSize_append, byteSize_cons, fieldsSize, fieldsSize]
      omega
    | cons next record =>
      have more := ih (List.cons_ne_nil _ _)
      have comma : ','.utf8Size = 1 := rfl
      rw [csvLine_cons_cons, byteSize_append, byteSize_cons, fieldsSize]
      omega

theorem CsvHolding.exists_addFields (fields : CsvRecord) {size : Nat} (fits : held.Fits (fieldsSize fields + size)) :
    ∃ after, held.addFields fields = .ok after ∧ held.TakesIn after size := by
  induction fields generalizing held with
  | nil => exact ⟨held, rfl, (fits.less (Nat.le_add_left _ _)).takesIn⟩
  | cons field fields ih =>
    have room : held.Fits (byteSize field + (1 + (fieldsSize fields + size))) := by
      refine fits.less ?_
      rw [fieldsSize]
      omega
    obtain ⟨text, addedText, within⟩ := exists_addText field room
    obtain ⟨first, added, inside⟩ := exists_addField within.fits
    obtain ⟨after, addedMore, remaining⟩ := ih inside.fits
    refine ⟨after, ?_, (within.trans inside).trans remaining⟩
    rw [addFields_cons, addedText, Except.bind, added, Except.bind, addedMore]

/-- A line is read back as the fields that it was written for, up to its line feed. -/
theorem readRecord_csvLine {record : CsvRecord} (filled : record ≠ []) (kept : ∀ field ∈ record, IsKept field)
    (before : CsvRecord) (line : List Char) (fits : held.Fits (byteSize (csvLine record ++ rest))) :
    ∃ after, held.TakesIn after (byteSize rest) ∧
      readRecord .fieldStart [] before held line (csvLine record ++ rest) =
        .ok ⟨before.reverse ++ record, after, .lineFeed, ⟨rest, rest⟩⟩ := by
  obtain ⟨first, more, propers, values, source⟩ := exists_line filled kept
  have feed : EndsLine ['\n'] rest := Or.inl (by decide)
  obtain ⟨last, read⟩ := readRecord_record propers feed before line
  have size := fieldsSize_le_csvLine filled
  rw [byteSize_append] at fits
  have room : held.Fits (fieldsSize record + byteSize rest) := fits.less (by omega)
  obtain ⟨after, added, within⟩ := CsvHolding.exists_addFields record room
  refine ⟨after, within, ?_⟩
  rw [← source, List.append_assoc, read, values, added]
  rfl

end Reckoner

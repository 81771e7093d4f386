import Reckoner.Csv.Holding
import Reckoner.Powers

namespace Reckoner

/-- Where in a field the reading stands. -/
inductive CsvPlace
  | fieldStart
  | bare
  | inQuotes
  | afterQuote
deriving DecidableEq

/-- The text still to be read, and the text from the place on to which the reading may go back: the character after
the last line feed. -/
structure CsvSpot where
  text : List Char
  line : List Char

/-- Passes over blank lines and finds where the next record starts, with the count of lines up to there. Before a
record that begins with blanks the reading goes back, beyond the blanks to the last line feed, and takes what stands
there for fields. A comma after the carriage return of a blank line belongs to the blank line. -/
def recordStart (indented : Bool) (lineCount : Nat) (line : List Char) : List Char → Option (Nat × CsvSpot)
  | [] => none
  | '\n' :: rest => recordStart false (lineCount + 1) rest rest
  | '\r' :: '\n' :: rest => recordStart false (lineCount + 1) rest rest
  | '\r' :: ',' :: rest => recordStart false (lineCount + 1) line rest
  | '\r' :: rest => recordStart false (lineCount + 1) line rest
  | c :: rest =>
    if c = ' ' ∨ c = '\t' then recordStart true lineCount line rest
    else some (lineCount, ⟨if indented then line else c :: rest, line⟩)

inductive CsvEnding
  | lineFeed
  | carriageReturn
  | textEnd
deriving DecidableEq

structure CsvFound where
  fields : CsvRecord
  held : CsvHolding
  ending : CsvEnding
  spot : CsvSpot

/-- Ends the last field of a record, and with it the record. The fields stand with the latest first. -/
def CsvHolding.close (held : CsvHolding) (fields : CsvRecord) (ending : CsvEnding) (spot : CsvSpot) :
    Except CsvError CsvFound :=
  held.addField.map fun held => ⟨fields.reverse, held, ending, spot⟩

/-- Reads a record. Only a quote at the start of a field opens quotes. What follows the closing quote belongs to the
field, and a quote there is a quote of the field. The field under way and the fields before it stand with the latest
first. There is no record when quotes stay open. -/
def readRecord (place : CsvPlace) (field : List Char) (fields : CsvRecord) (held : CsvHolding) (line : List Char) :
    List Char → Except CsvError CsvFound
  | [] =>
    if place = .inQuotes then .error (.openQuotes held.lineCount)
    else held.close (field.reverse :: fields) .textEnd ⟨[], line⟩
  | c :: rest =>
    if place = .inQuotes then
      if c = '\x22' then readRecord .afterQuote field fields held line rest
      else match held.addChar c with
        | .ok held => readRecord .inQuotes (c :: field) fields held (if c = '\n' then rest else line) rest
        | .error error => .error error
    else if c = '\x22' ∧ place = .fieldStart then readRecord .inQuotes field fields held line rest
    else if c = ',' then
      match held.addField with
      | .ok held => readRecord .fieldStart [] (field.reverse :: fields) held line rest
      | .error error => .error error
    else if c = '\n' then held.close (field.reverse :: fields) .lineFeed ⟨rest, rest⟩
    else if c = '\r' then held.close (field.reverse :: fields) .carriageReturn ⟨rest, line⟩
    else
      match held.addChar c with
      | .ok held =>
        readRecord (if c = '\x22' ∧ place = .afterQuote then .inQuotes else .bare) (c :: field) fields held line rest
      | .error error => .error error

/-- A reading between two records. A comma right after a carriage return has begun the next record with an empty
field. -/
structure CsvReading where
  held : CsvHolding
  spot : CsvSpot
  begun : Bool
  finished : Bool

namespace CsvReading

/-- Goes on after a record. A line feed after the carriage return belongs to it. -/
def after (found : CsvFound) : Except CsvError CsvReading :=
  match found.held.addRecord found.fields with
  | .error error => .error error
  | .ok held =>
    match found.ending, found.spot.text with
    | .lineFeed, _ => .ok ⟨held, found.spot, false, false⟩
    | .carriageReturn, '\n' :: rest => .ok ⟨held, ⟨rest, rest⟩, false, false⟩
    | .carriageReturn, ',' :: rest => held.addField.map fun held => ⟨held, ⟨rest, found.spot.line⟩, true, false⟩
    | .carriageReturn, _ :: _ => .ok ⟨held, found.spot, false, false⟩
    | .carriageReturn, [] => .ok ⟨held, found.spot, false, true⟩
    | .textEnd, _ => .ok ⟨held, found.spot, false, true⟩

/-- Reads a record, unless only blank lines are left. -/
def next (reading : CsvReading) : Except CsvError CsvReading :=
  if reading.begun then
    (readRecord .fieldStart [] [[]] reading.held reading.spot.line reading.spot.text).bind after
  else
    match recordStart false reading.held.lineCount reading.spot.line reading.spot.text with
    | none => .ok { reading with finished := true }
    | some (lineCount, spot) =>
      (readRecord .fieldStart [] [] { reading.held with lineCount := lineCount } spot.line spot.text).bind after

/-- Reads records, as many as asked for or as there are. -/
def readMany : (count : Nat) → CsvReading → Except CsvError CsvReading
  | 0, reading => .ok reading
  | count + 1, reading =>
    if reading.finished then .ok reading
    else match reading.next with
      | .ok reading => readMany count reading
      | .error error => .error error

/-- Begins a stretch of reading with room for all the text that is left. The reading does not go back beyond it. -/
def begin (held : CsvHolding) (text : List Char) : CsvReading :=
  ⟨held.makeRoom (String.ofList text).utf8ByteSize, ⟨text, text⟩, false, false⟩

def resume (reading : CsvReading) (held : CsvHolding) : CsvReading :=
  { begin held reading.spot.text with begun := reading.begun, finished := reading.finished }

/-- Reads stretches of so many records until the text ends. Every stretch takes in text, so there are no more of
them than characters. -/
def readStretches (count : Nat) : (fuel : Nat) → CsvReading → Except CsvError CsvReading
  | 0, reading => .ok reading
  | fuel + 1, reading =>
    if reading.finished then .ok reading
    else match readMany count (reading.resume reading.held.passOn) with
      | .ok reading => readStretches count fuel reading
      | .error error => .error error

/-- Starts to read a text. A mark of byte order at its beginning is no part of the first field. -/
def start (text : List Char) : CsvReading :=
  let reading := begin {} text
  match text with
  | '\ufeff' :: rest => { reading with spot := ⟨rest, rest⟩ }
  | _ => reading

end CsvReading

/-- How many records with a number of fields make a stretch: the largest power of two that keeps it below a million
fields, a million being `2 ^ 20`. -/
def recordsPerStretch (width : Nat) : Nat := twoTo (Nat.log2 (0x100000 / width - 1))

/-- The records of a text in order. The header and the record after it are read first, for the width of the table
depends on them. -/
def csvRecords (text : String) : Except CsvError (List CsvRecord) := do
  let first ← (CsvReading.start text.toList).readMany 2
  let width := (first.held.records.headD []).length
  let count := recordsPerStretch width
  let second ← (first.resume first.held).readMany (count + 1 - first.held.recordCount)
  let last ← second.readStretches count text.length
  return last.held.records.reverse

end Reckoner

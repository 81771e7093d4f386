import Reckoner.Csv.Line

namespace Reckoner

/-- A capacity, doubled until it lies above what is needed. -/
def doubledPast (needed capacity : Nat) : Nat :=
  if capacity = 0 ∨ needed < capacity then capacity else doubledPast needed (2 * capacity)
termination_by needed + 1 - capacity
decreasing_by omega

/-- How many bytes of text, how many fields and how many records can be held. -/
structure CsvRoom where
  bytes : Nat := 32
  fields : Nat := 3
  records : Nat := 3
deriving DecidableEq

/-- Why text is no table. Text that is read more than once may need more room than was made for it. -/
inductive CsvError
  | openQuotes (lineCount : Nat)
  | tooLong (expected lineNumber found : Nat)
  | noRoom
deriving DecidableEq

/-- What has been read: all records, the latest first, and the count of lines, blank ones included. Room is taken by
the records since the last time that some were passed on. -/
structure CsvHolding where
  records : List CsvRecord := []
  lineCount : Nat := 0
  recordCount : Nat := 0
  bytes : Nat := 0
  fields : Nat := 0
  room : CsvRoom := {}

namespace CsvHolding

/-- Makes room for text of a size in bytes: no text has more fields or records than bytes. -/
def makeRoom (held : CsvHolding) (size : Nat) : CsvHolding :=
  if size = 0 then held
  else
    { held with
      room :=
        ⟨doubledPast (held.bytes + 2 * size) held.room.bytes, doubledPast (held.fields + size) held.room.fields,
          doubledPast (held.recordCount + 1 + size) held.room.records⟩ }

/-- Takes in a character of a field. -/
def addChar (held : CsvHolding) (c : Char) : Except CsvError CsvHolding :=
  let bytes := held.bytes + c.utf8Size
  if held.room.bytes < bytes then .error .noRoom else .ok { held with bytes := bytes }

/-- Takes in the end of a field, which has a byte of its own. -/
def addField (held : CsvHolding) : Except CsvError CsvHolding :=
  if held.room.fields ≤ held.fields then .error .noRoom
  else .ok { held with bytes := min (held.bytes + 1) held.room.bytes, fields := held.fields + 1 }

/-- Takes in empty fields that the text leaves out. Room is made for them. -/
def addMissing (held : CsvHolding) (count : Nat) : CsvHolding :=
  let held := held.makeRoom count
  { held with bytes := held.bytes + count, fields := held.fields + count }

/-- Takes in the end of a record. The record after the header may be longer than it, and every later one has at most
as many fields as the one before. Missing fields at the end are empty. -/
def addRecord (held : CsvHolding) (fields : CsvRecord) : Except CsvError CsvHolding :=
  let expected := (held.records.head?.map List.length).getD 0
  if 1 < held.recordCount ∧ expected < fields.length then
    .error (.tooLong expected (held.lineCount + 1) fields.length)
  else
    let missing := expected - fields.length
    let held := held.addMissing missing
    let recordCount := held.recordCount + 1
    if held.room.records ≤ recordCount then .error .noRoom
    else
      .ok
        { held with
          records := (fields ++ List.replicate missing []) :: held.records
          lineCount := held.lineCount + 1
          recordCount := recordCount }

/-- Passes on all records but the last, which later ones are compared with. -/
def passOn (held : CsvHolding) : CsvHolding :=
  let last := held.records.headD []
  { held with
    recordCount := 1
    bytes := last.foldl (fun size field => size + (String.ofList field).utf8ByteSize + 1) 0
    fields := last.length }

end CsvHolding

end Reckoner

import Reckoner.Csv.Reading
import Reckoner.Folder
import Reckoner.Scheme
import Reckoner.Settings
import Reckoner.Text.Lines
import Reckoner.Text.Utf8

namespace Reckoner

/-- The first name of the form `base.k`, from a given `k` on, that is not taken. -/
def freshName (taken : List String) (base : String) : (fuel number : Nat) → String
  | 0, number => s!"{base}.{number}"
  | fuel + 1, number =>
    let name := s!"{base}.{number}"
    if taken.contains name then freshName taken base fuel (number + 1) else name

/-- Names of columns under way: the names so far, and those that were given to a column already, each with the
number that its next repetition tries first. -/
structure Naming where
  names : List String
  counts : List (String × Nat)

/-- Settles the name at a place. A name that was given already gets a number. -/
def Naming.settle (naming : Naming) (place : Nat) : Naming :=
  let name := naming.names.getD place ""
  match naming.counts.lookup name with
  | none => { naming with counts := (name, 1) :: naming.counts }
  | some number =>
    let fresh := freshName naming.names name naming.names.length number
    ⟨naming.names.set place fresh, (fresh, 1) :: (name, number + 1) :: naming.counts⟩

/-- The names of columns from the fields of a header. An empty field is named by its place, and the others are
settled before it. -/
def columnNames (header : List String) : List String :=
  let places := List.range header.length
  let isGiven (place : Nat) : Bool := header.getD place "" != ""
  let names := places.map fun place => if isGiven place then header.getD place "" else s!"Unnamed: {place}"
  let order := places.filter isGiven ++ places.filter fun place => !isGiven place
  (order.foldl Naming.settle ⟨names, []⟩).names

/-- A field as it is used. It ends before a NUL character. -/
def fieldText (field : List Char) : String := String.ofList (field.takeWhile fun c => c != '\x00')

inductive LoadError
  | scheme (error : SchemeError)
  | unopened (error : PathError)
  | undecodable (error : Undecodable)
  | noColumns
  | csv (error : CsvError)
  | noSuchColumn (column path : String)

def PathError.message : PathError → String
  | missing path => s!"[Errno 2] No such file or directory: {quoted path}"
  | isFolder path => s!"[Errno 21] Is a directory: {quoted path}"
  | notFolder path => s!"[Errno 20] Not a directory: {quoted path}"
  | tooLong path => s!"[Errno 36] File name too long: {quoted path}"
  | holdsNul => "embedded null byte"

def CsvError.message : CsvError → String
  | openQuotes lineCount => s!"EOF inside string starting at row {lineCount}"
  | tooLong expected lineNumber found => s!"Expected {expected} fields in line {lineNumber}, saw {found}\n"
  | noRoom => "Buffer overflow caught - possible malformed input file.\n"

def LoadError.message : LoadError → String
  | scheme error => error.message
  | unopened error => error.message
  | undecodable error => error.message
  | noColumns => "No columns to parse from file"
  | csv error => s!"Error tokenizing data. C error: {error.message}"
  | noSuchColumn column path => s!"Expression column '{column}' not found in {path}."

/-- The fields of the named column. When the first record after the header is longer than the header, the columns
it has in front are an index without names. -/
def columnFields (column path : String) : List CsvRecord → Except LoadError (List String)
  | [] => .error .noColumns
  | header :: records =>
    match (columnNames (header.map fieldText)).idxOf? column with
    | none => .error (.noSuchColumn column path)
    | some place =>
      let index := ((records.head?.map List.length).getD 0) - header.length
      .ok (records.map fun record => fieldText (record.getD (index + place) []))

/-- Whether a path names a table by its ending, in any letter case. No letter outside ASCII has one of these
letters as its small letter. -/
def isTablePath (path : String) : Bool := (path.map Char.toLower).endsWith ".csv"

/-- How many bytes of a table are decoded at a time. -/
def tableBlock : Nat := 262144

/-- How many bytes of a file of lines are decoded at a time. -/
def lineBlock : Nat := 8192

/-- Opens a table. A tilde stands for the home folder there, and no scheme is served. -/
def Folder.readTable (folder : Folder) (path : String) : Except LoadError ByteArray :=
  match schemeError? path with
  | some error => .error (.scheme error)
  | none => (folder.read (expandHome path)).mapError .unopened

/-- The expressions in a file: a column of a table, or all lines that hold more than blanks. -/
def Folder.expressions (folder : Folder) (path column : String) : Except LoadError (List String) := do
  if isTablePath path then
    let bytes ← folder.readTable path
    let text ← (decodeUtf8 tableBlock bytes).mapError .undecodable
    let records ← (csvRecords text).mapError .csv
    columnFields column path records
  else
    let bytes ← (folder.read path).mapError .unopened
    let text ← (decodeUtf8 lineBlock bytes).mapError .undecodable
    return contentLines text

/-- The column to read: the one asked for, or the setting when none is. -/
def Settings.columnFor (settings : Settings) (asked : Option String) : String :=
  match asked with
  | some column => if column.isEmpty then settings.expressionColumn else column
  | none => settings.expressionColumn

inductive SaveError
  | scheme (error : SchemeError)
  | noFolder (parent : String)
  | unopened (error : PathError)
deriving DecidableEq

def SaveError.message : SaveError → String
  | scheme error => error.message
  | noFolder parent => s!"Cannot save file into a non-existent directory: '{parent}'"
  | unopened error => error.message

/-- The place at which a table is saved. The folder that the path names has to be there. -/
def Folder.savePlace (folder : Folder) (path : String) : Except SaveError Place :=
  match schemeError? path with
  | some error => .error (.scheme error)
  | none =>
    let path := expandHome path
    let parent := parentOf path
    match folder.find parent with
    | .ok (.folder _) => (folder.target path).mapError .unopened
    | .error (.tooLong parent) => .error (.unopened (.tooLong parent))
    | _ => .error (.noFolder parent)

end Reckoner

import Reckoner.Csv.Line
import Reckoner.Outcome
import Reckoner.Settings

namespace Reckoner

/-- An expression with its value, or with the reason why there is none and no number for the value. An expression may
be missing as well. -/
structure Row where
  expression : Option String
  result : Binary64
  reason : Option String

structure Table where
  columns : List String
  rows : List Row

def Row.ofExpression [ElementaryFunctions] (strict : Bool) (expression : Option String) : Row :=
  match evaluate strict ((expression.map Value.text).getD .null) with
  | .ok value => ⟨expression, value, none⟩
  | .error failure => ⟨expression, .nan, some failure.reason⟩

/-- Why columns cannot take results: a column for both reasons and results would hold text, and results in several
columns cannot be counted. -/
inductive TableError
  | reasonForResult (reason : String)
  | repeatedResult
deriving DecidableEq

def TableError.message : TableError → String
  | reasonForResult reason => s!"could not convert string to float: {quoted reason}"
  | repeatedResult => "cannot convert the series to <class 'int'>"

namespace Settings

/-- The row as its columns keep it. Of entries under one name the last one counts, and the reason is the last of
all. -/
def keptRow (settings : Settings) (row : Row) : Row :=
  if settings.expressionColumn = settings.errorColumn then { row with expression := row.reason } else row

def table [ElementaryFunctions] (settings : Settings) (asked : Option Bool) (expressions : List (Option String)) :
    Except TableError Table :=
  let rows := expressions.map (Row.ofExpression (settings.strictness asked))
  if settings.resultColumn = settings.errorColumn then
    match rows.findSome? Row.reason with
    | some reason => .error (.reasonForResult reason)
    | none => .error .repeatedResult
  else if settings.resultColumn = settings.expressionColumn then .error .repeatedResult
  else .ok ⟨settings.columns, rows.map settings.keptRow⟩

end Settings

namespace Row

def hasFailed (row : Row) : Bool := row.result.isNaN

/-- Values are finite, so the rows without a number are those of the expressions without a value. -/
theorem hasFailed_ofExpression [ElementaryFunctions] (strict : Bool) (expression : Option String) :
    (ofExpression strict expression).hasFailed = (ofExpression strict expression).reason.isSome := by
  unfold ofExpression
  split
  · exact Binary64.isNaN_of_isFinite (isFinite_of_evaluate ‹_›)
  · rfl

/-- A row as a record; what is missing is empty. -/
def fields (row : Row) : CsvRecord :=
  let result := if row.hasFailed then none else some row.result.text
  [row.expression, result, row.reason].map fun field => (field.getD "").toList

end Row

/-- A table as text: a line for the columns and a line for each row. -/
def Table.text (table : Table) : String :=
  let lines := table.columns.map String.toList :: table.rows.map Row.fields
  String.ofList (lines.flatMap csvLine)

def Table.failures (table : Table) : Nat := table.rows.countP Row.hasFailed

end Reckoner

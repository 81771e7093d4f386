import Reckoner.Display
import Reckoner.Loading
import Reckoner.Options
import Reckoner.Table

namespace Reckoner

/-- What a run leaves behind: its exit code, its output, and the file it saved. -/
structure Report where
  exitCode : Nat
  output : String
  saved : Option (Place × String) := none

inductive RunFailure
  | noLogLevel
  | settings (error : SettingsError)
  | load (error : LoadError)
  | table (error : TableError)
  | save (error : SaveError)
  | display (error : DisplayError)

def RunFailure.message : RunFailure → String
  | noLogLevel => "attribute name must be string, not 'list'"
  | settings error => error.message
  | load error => error.message
  | table error => error.message
  | save error => error.message
  | display error => error.message

/-- The strictness that the options ask for; they cannot ask for leniency. -/
def Options.asked (options : Options) : Option Bool := if options.strict then some true else none

/-- The line shown for an expression, and whether it has no value. -/
structure Answer where
  line : String
  failed : Bool

def answerFor [ElementaryFunctions] (settings : Settings) (asked : Option Bool) (expression : String) :
    Except DisplayError Answer :=
  match evaluate (settings.strictness asked) (.text expression) with
  | .ok value => (settings.display none value).map fun line => ⟨line, false⟩
  | .error _ => .ok ⟨settings.errorMarker, true⟩

/-- Lines one below the other, and the exit code one when any expression has no value. -/
def Report.ofAnswers (answers : List Answer) : Report :=
  ⟨if answers.any Answer.failed then 1 else 0, String.join (answers.map fun answer => answer.line ++ "\n"), none⟩

def runExpressions [ElementaryFunctions] (settings : Settings) (asked : Option Bool) (expressions : List String) :
    Except DisplayError Report :=
  (expressions.mapM (answerFor settings asked)).map Report.ofAnswers

/-- The words that end the input, in any letter case. No letter outside ASCII has one of these letters as its small
letter. -/
def isQuit (line : String) : Bool :=
  let word := line.map Char.toLower
  word == "quit" || word == "exit"

/-- The expressions in an input: its lines with content, up to the first word that ends it. -/
def inputExpressions (input : String) : List String := (contentLines input).takeWhile fun line => !isQuit line

def rowAnswer (settings : Settings) (row : Row) : Except DisplayError Answer :=
  let lead := row.expression.getD "" ++ " = "
  if row.hasFailed then .ok ⟨lead ++ settings.errorMarker, true⟩
  else (settings.display none row.result).map fun line => ⟨lead ++ line, false⟩

/-- Evaluates the expressions of a file. They are shown when no path for the results is given, and saved
otherwise. -/
def runFile [ElementaryFunctions] (settings : Settings) (options : Options) (folder : Folder) (path : String) :
    Except RunFailure Report := do
  let expressions ← (folder.expressions path (settings.columnFor options.column)).mapError .load
  let table ← (settings.table options.asked (expressions.map some)).mapError .table
  let output := options.outputPath.getD ""
  if output.isEmpty then
    (table.rows.mapM (rowAnswer settings)).map Report.ofAnswers |>.mapError .display
  else
    let place ← (folder.savePlace output).mapError .save
    return ⟨if table.failures = 0 then 0 else 1, "", some (place, table.text)⟩

/-- A run: of a file when one is named, else of the expressions among the arguments, else of the input. Settings that
do not agree with each other end it at once. -/
def runCommand [ElementaryFunctions] (settings : Settings) (options : Options) (input : String) (folder : Folder) :
    Except RunFailure Report := do
  settings.check.mapError .settings
  let path := options.inputPath.getD ""
  if !path.isEmpty then runFile settings options folder path
  else
    let expressions := if options.expressions.isEmpty then inputExpressions input else options.expressions
    (runExpressions settings options.asked expressions).mapError .display

/-- A run as the program starts it. It wants a level for the log first. -/
def runProgram [ElementaryFunctions] (settings : Settings) (options : Options) (input : String) (folder : Folder) :
    Except RunFailure Report :=
  if options.logLevel.isNone then .error .noLogLevel else runCommand settings options input folder

end Reckoner

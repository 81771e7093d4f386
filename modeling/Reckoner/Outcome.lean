import Reckoner.Conversion
import Reckoner.Machine
import Reckoner.Value

namespace Reckoner

inductive Failure
  | notText (kindName : String)
  | conversion (error : ConversionError)
  | running (error : RunError)

/-- A double in a list of doubles is written like a double alone. -/
def listText (values : List Binary64) : String := "[" ++ ", ".intercalate (values.map Binary64.text) ++ "]"

def ConversionError.message : ConversionError → String
  | refused complaint _ => complaint.message
  | unknownSymbol symbol => quoted symbol

def RunError.message : RunError → String
  | operatorUnderflow symbol => s!"Insufficient operands for '{symbol}'"
  | functionUnderflow name => s!"Insufficient operands for {name}()"
  | unknownName name => quoted name
  | nothingLeft => "Empty stack after evaluation"
  | leftover stack => s!"Stack has {stack.length} elements after evaluation, expected 1"
  | notFinite value => s!"Result is not finite: {value.text}"

namespace Failure

def reason : Failure → String
  | notText kindName => s!"expected string or bytes-like object, got '{kindName}'"
  | conversion error => error.message
  | running error => error.message

/-- A fault of the expression itself, as against input that no expression gives rise to. -/
def isOrdinary : Failure → Bool
  | notText _ => false
  | conversion (.refused _ _) => true
  | conversion (.unknownSymbol _) => false
  | running (.unknownName _) => false
  | running _ => true

end Failure

/-- The tokens of a value. A value that counts as false has none, whatever its kind. -/
def Value.tokens : Value → Except Failure (List Token)
  | .text source => .ok (scan source)
  | other => if other.isTruthy then .error (.notText other.kindName) else .ok []

/-- The value of an expression: its tokens, put in order, and run. -/
def evaluate [ElementaryFunctions] (strict : Bool) (expression : Value) : Except Failure Binary64 := do
  let tokens ← expression.tokens
  let program ← (convert strict tokens).mapError .conversion
  program.run.mapError .running

theorem isFinite_of_evaluate [ElementaryFunctions] {strict : Bool} {expression : Value} {value : Binary64}
    (evaluated : evaluate strict expression = .ok value) : value.isFinite = true := by
  unfold evaluate at evaluated
  cases read : expression.tokens with
  | error failure =>
    rw [read] at evaluated
    cases evaluated
  | ok tokens =>
    rw [read] at evaluated
    change ((convert strict tokens).mapError Failure.conversion >>= fun program =>
      program.run.mapError Failure.running) = .ok value at evaluated
    cases converted : convert strict tokens with
    | error error =>
      rw [converted] at evaluated
      cases evaluated
    | ok program =>
      rw [converted] at evaluated
      change program.run.mapError Failure.running = .ok value at evaluated
      cases ran : program.run with
      | error error =>
        rw [ran] at evaluated
        cases evaluated
      | ok result =>
        rw [ran] at evaluated
        cases evaluated
        exact Program.isFinite_of_run ran

def missingEntry : String := "Error"

/-- A result on its way to the display: a double, or a text that stands in the place of one. -/
inductive Cell
  | double (value : Binary64)
  | text (text : String)
deriving DecidableEq

/-- The value of an expression, and the fixed entry for a missing one. -/
def evaluatedCell [ElementaryFunctions] (strict : Bool) (expression : Value) : Cell :=
  match evaluate strict expression with
  | .ok value => .double value
  | .error _ => .text missingEntry

inductive Logger
  | conversion
  | machine
  | evaluation
deriving DecidableEq

/-- A line of the log. Severe lines tell of input that no expression gives rise to. -/
structure LogRecord where
  logger : Logger
  severe : Bool
  message : String

def conversionRecords : Except ConversionError Program → List LogRecord
  | .ok program => [⟨.conversion, false, s!"Postfix: {program.text}"⟩]
  | .error (.refused complaint position) =>
    [⟨.conversion, false, s!"Syntax error at position {position}: {complaint.message}"⟩]
  | .error (.unknownSymbol _) => []

def runRecords (program : Program) : Except RunError Binary64 → List LogRecord
  | .error (.leftover stack) =>
    [⟨.machine, false, s!"Leftover stack {listText stack} for RPN: {program.text}"⟩]
  | _ => []

def failureRecords (expression : Value) : Except Failure Binary64 → List LogRecord
  | .ok _ => []
  | .error failure =>
    let opening := if failure.isOrdinary then "Failed to evaluate" else "Unexpected error evaluating"
    [⟨.evaluation, !failure.isOrdinary, s!"{opening} '{expression.shown}': {failure.reason}"⟩]

/-- All that evaluation writes to the log, in order. -/
def evaluationRecords [ElementaryFunctions] (strict : Bool) (expression : Value) : List LogRecord :=
  let stages := match expression.tokens with
    | .error _ => []
    | .ok tokens =>
      let converted := convert strict tokens
      conversionRecords converted ++ match converted with
        | .ok program => runRecords program program.run
        | .error _ => []
  stages ++ failureRecords expression (evaluate strict expression)

end Reckoner

import Reckoner.Nearest
import Reckoner.Value

namespace Reckoner

/-- What can be changed about evaluation, display and tables. The strictness and the number of digits may be set to
any value: the one then counts as true or false, and the other may turn out to be no number. -/
structure Settings where
  strict : Value := .bool false
  errorMarker : String := "Error"
  precision : Value := .int 12
  sciLower : Binary64 := .ofBits 0x3ddb7cdfd9d7bdbb
  sciUpper : Binary64 := .ofBits 0x426d1a94a2000000
  expressionColumn : String := "expression"
  resultColumn : String := "result"
  errorColumn : String := "error"

inductive SettingsError
  | strictNotBoolean
  | emptyMarker
  | precisionNotNumber (kindName : String)
  | precisionOutOfRange
  | thresholdsOutOfOrder
  | repeatedColumn
deriving DecidableEq

def SettingsError.message : SettingsError → String
  | strictNotBoolean => "strict_syntax必须是bool"
  | emptyMarker => "错误标记不能为空"
  | precisionNotNumber kindName => s!"'<=' not supported between instances of 'int' and '{kindName}'"
  | precisionOutOfRange => "float64最多17位有效数字"
  | thresholdsOutOfOrder => "科学计数法阈值顺序错误"
  | repeatedColumn => "批量输出列名不能重复"

namespace Settings

def strictIsBoolean (settings : Settings) : Bool :=
  match settings.strict with
  | .bool _ => true
  | _ => false

/-- Whether a double lies between two whole numbers, both included. -/
def isBetween (low high : Nat) (x : Binary64) : Bool :=
  let whole (n : Nat) := Binary64.nearest false (n * quantaPerUnit) 1
  !x.isNaN && !x.lt (whole low) && !(whole high).lt x

/-- Whether a number of digits is one that doubles have; truth counts as one. A value that is no number cannot be
compared. -/
def checkPrecision (precision : Value) : Except SettingsError Unit :=
  let demand (holds : Bool) : Except SettingsError Unit := if holds then .ok () else .error .precisionOutOfRange
  match precision with
  | .int digits => demand (1 ≤ digits && digits ≤ 17)
  | .bool value => demand value
  | .float digits => demand (isBetween 1 17 digits)
  | other => .error (.precisionNotNumber other.kindName)

def columns (settings : Settings) : List String :=
  [settings.expressionColumn, settings.resultColumn, settings.errorColumn]

/-- Accepts settings that agree with each other. The first fault in the order of the tests is the one reported. -/
def check (settings : Settings) : Except SettingsError Unit :=
  if !settings.strictIsBoolean then .error .strictNotBoolean
  else if settings.errorMarker.isEmpty then .error .emptyMarker
  else match checkPrecision settings.precision with
    | .error error => .error error
    | .ok _ =>
      if !((Binary64.zero false).lt settings.sciLower && settings.sciLower.lt settings.sciUpper) then
        .error .thresholdsOutOfOrder
      else if settings.expressionColumn == settings.resultColumn ||
          settings.expressionColumn == settings.errorColumn ||
          settings.resultColumn == settings.errorColumn then .error .repeatedColumn
      else .ok ()

/-- A strictness asked for wins over the one set. -/
def strictness (settings : Settings) (asked : Option Bool) : Bool := asked.getD settings.strict.isTruthy

/-- The text of a value set for something that has to be text. What counts as false becomes empty text. -/
def textOf (value : Value) : String := if value.isTruthy then value.shown else ""

/-- Changes one setting. Names that no setting has, and thresholds that are no doubles, change nothing. -/
def assign (settings : Settings) (group key : String) (value : Value) : Settings :=
  match group, key, value with
  | "evaluator", "strict_syntax", value => { settings with strict := value }
  | "evaluator", "error_marker", value => { settings with errorMarker := textOf value }
  | "format", "precision", value => { settings with precision := value }
  | "format", "sci_lower", .float value => { settings with sciLower := value }
  | "format", "sci_upper", .float value => { settings with sciUpper := value }
  | "batch", "expression_column", value => { settings with expressionColumn := textOf value }
  | "batch", "result_column", value => { settings with resultColumn := textOf value }
  | "batch", "error_column", value => { settings with errorColumn := textOf value }
  | _, _, _ => settings

end Settings

end Reckoner

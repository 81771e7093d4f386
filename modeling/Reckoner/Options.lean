import Reckoner.Text.DecimalDigit

namespace Reckoner

structure Options where
  expressions : List String := []
  inputPath : Option String := none
  column : Option String := none
  outputPath : Option String := none
  strict : Bool := false
  logLevel : Option String := some "WARNING"
deriving DecidableEq

inductive LongOption
  | help
  | inputPath
  | column
  | outputPath
  | strict
  | logLevel
deriving DecidableEq

/-- The names of the options. No name begins another one. -/
def longOptions : List (String × LongOption) :=
  [("--help", .help), ("--input_path", .inputPath), ("--column", .column), ("--output_path", .outputPath),
    ("--strict", .strict), ("--log_level", .logLevel)]

def logLevels : List String := ["DEBUG", "INFO", "WARNING", "ERROR"]

inductive Word
  | operand (text : String)
  | divider
  | long (option : LongOption) (given : Option String)
  | shortHelp (tail : List Char)
  | unknown
deriving DecidableEq

/-- A minus sign and a decimal number without exponent, with digits of any script. One line feed may follow. -/
def isNegativeNumber (text : List Char) : Bool :=
  let text := if text.getLast? = some '\n' then text.dropLast else text
  match text with
  | '-' :: number =>
    let rest := number.dropWhile isDecimalDigit
    match rest with
    | [] => !number.isEmpty
    | '.' :: fraction => !fraction.isEmpty && fraction.all isDecimalDigit
    | _ => false
  | _ => false

/-- Tells what an argument is. A long option may be shortened as long as one name begins with it, and a value may
follow an equals sign; `none` is for a shortening of several names. What begins with a minus sign and is no option
is an operand when it is a number or holds a space. -/
def Word.ofArgument? (argument : String) : Option Word :=
  let chars := argument.toList
  match chars with
  | '-' :: 'h' :: tail => some (.shortHelp tail)
  | '-' :: '-' :: _ =>
    let name := chars.takeWhile fun c => c != '='
    let given := match chars.dropWhile fun c => c != '=' with
      | [] => none
      | _ :: value => some (String.ofList value)
    match longOptions.lookup (String.ofList name) with
    | some option => some (.long option given)
    | none =>
      match longOptions.filter fun entry => name.isPrefixOf entry.1.toList with
      | [entry] => some (.long entry.2 given)
      | [] => some (if chars.contains ' ' then .operand argument else .unknown)
      | _ => none
  | '-' :: _ :: _ =>
    some (if isNegativeNumber chars || chars.contains ' ' then .operand argument else .unknown)
  | _ => some (.operand argument)

/-- Arguments by their form. After two minus signs alone everything is an operand. -/
def Word.ofArguments? : List String → Option (List Word)
  | [] => some []
  | argument :: arguments =>
    if argument = "--" then some (.divider :: arguments.map .operand)
    else do return (← Word.ofArgument? argument) :: (← Word.ofArguments? arguments)

/-- Whether what follows the short option for help is more of the same. One equals sign may stand in between. -/
def asksForHelp (tail : List Char) : Bool :=
  let more := match tail with
    | '=' :: c :: more => c :: more
    | more => more
  more.all fun c => c == 'h'

inductive Stop
  | help
  | misuse
deriving DecidableEq

/-- Operands stand next to each other. -/
inductive OperandPhase
  | before
  | within
  | after
deriving DecidableEq

def OperandPhase.leave : OperandPhase → OperandPhase
  | before => before
  | _ => after

/-- The options read so far, where the operands stand, and whether something was left over. -/
structure Gathering where
  options : Options
  phase : OperandPhase
  surplus : Bool

namespace Gathering

/-- Takes in operands; a divider brings none. Operands in a second place are left over. -/
def operands (state : Gathering) (texts : List String) : Gathering :=
  if state.phase = .after then { state with surplus := true }
  else
    { state with
      phase := .within
      options := { state.options with expressions := state.options.expressions ++ texts } }

def leave (state : Gathering) : Gathering := { state with phase := state.phase.leave }

/-- Gives an option its value. -/
def assign (state : Gathering) (option : LongOption) (value : String) : Except Stop Gathering :=
  let options := state.options
  match option with
  | .inputPath => .ok { state.leave with options := { options with inputPath := some value } }
  | .column => .ok { state.leave with options := { options with column := some value } }
  | .outputPath => .ok { state.leave with options := { options with outputPath := some value } }
  | .logLevel =>
    if logLevels.contains value then .ok { state.leave with options := { options with logLevel := some value } }
    else .error .misuse
  | .help | .strict => .error .misuse

/-- Leaves an option that takes a value without one. -/
def clear (state : Gathering) (option : LongOption) : Except Stop Gathering :=
  let options := state.options
  match option with
  | .inputPath => .ok { state.leave with options := { options with inputPath := none } }
  | .column => .ok { state.leave with options := { options with column := none } }
  | .outputPath => .ok { state.leave with options := { options with outputPath := none } }
  | .logLevel => .ok { state.leave with options := { options with logLevel := none } }
  | .help | .strict => .error .misuse

/-- Gives an option the value after an equals sign. Two minus signs alone are no value. -/
def give (state : Gathering) (option : LongOption) (value : String) : Except Stop Gathering :=
  if value = "--" then state.clear option else state.assign option value

/-- Takes in words from left to right. Help ends the run where it is met. -/
def words (state : Gathering) : List Word → Except Stop Options
  | [] => if state.surplus then .error .misuse else .ok state.options
  | .operand text :: rest => (state.operands [text]).words rest
  | .divider :: rest => (state.operands []).words rest
  | .unknown :: rest => { state.leave with surplus := true }.words rest
  | .shortHelp tail :: _ => .error (if asksForHelp tail then .help else .misuse)
  | .long .help none :: _ => .error .help
  | .long .strict none :: rest =>
    { state.leave with options := { state.options with strict := true } }.words rest
  | .long option (some value) :: rest =>
    match state.give option value with
    | .ok state => state.words rest
    | .error stop => .error stop
  | .long option none :: .operand value :: rest =>
    match state.assign option value with
    | .ok state => state.words rest
    | .error stop => .error stop
  | .long _ none :: _ => .error .misuse

end Gathering

def Options.ofArguments (arguments : List String) : Except Stop Options :=
  match Word.ofArguments? arguments with
  | some words => (Gathering.mk {} .before false).words words
  | none => .error .misuse

end Reckoner

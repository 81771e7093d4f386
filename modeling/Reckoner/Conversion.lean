import Reckoner.Token
import Reckoner.Instruction

namespace Reckoner

/-- What waits for its place in the program: operators and functions, kept apart by the open groups. -/
inductive Pending
  | operator (symbol : String)
  | function (name : String)
  | group (position : Int)
deriving DecidableEq

/-- The state between two tokens. The program so far and the waiting entries stand with the latest first. -/
structure Conversion where
  output : Program
  pending : List Pending
  expectsOperand : Bool
deriving DecidableEq

inductive Complaint
  | numberAfterOperand (value : Binary64)
  | nameAfterOperand (name : String)
  | groupAfterOperand
  | functionWithoutGroup (name : String)
  | unknownName (name : String)
  | operatorWithoutOperand (symbol : String)
  | closeWithoutOperand
  | unmatchedClose
  | unmatchedOpen
  | stray (mark : String)
  | endsWithoutOperand
deriving DecidableEq

def Complaint.message : Complaint → String
  | numberAfterOperand value => s!"Missing operator before {value.text}"
  | nameAfterOperand name => s!"Missing operator before '{name}'"
  | groupAfterOperand => "Missing operator before '('"
  | functionWithoutGroup name => s!"Function '{name}' must be followed by '('"
  | unknownName name => s!"Unknown identifier '{name}'"
  | operatorWithoutOperand symbol => s!"Operator '{symbol}' has no left operand"
  | closeWithoutOperand => "Expected an operand before ')'"
  | unmatchedClose => "Unmatched ')'"
  | unmatchedOpen => "Unmatched '('"
  | stray mark => s!"Unexpected '{mark}'"
  | endsWithoutOperand => "Expression ends with an operator"

/-- Conversion stops at a complaint about a token, or at a symbol whose precedence is asked for and not known. -/
inductive ConversionError
  | refused (complaint : Complaint) (position : Int)
  | unknownSymbol (symbol : String)
deriving DecidableEq

/-- The constant, in any letter case. No letter outside ASCII has `p` or `i` as its small letter. -/
def isPiName (name : String) : Bool := name.toList.map Char.toLower == ['p', 'i']

/-- A rule that only strict conversion enforces. -/
def demand (strict holds : Bool) (complaint : Complaint) (position : Int) : Except ConversionError Unit :=
  if strict && !holds then .error (.refused complaint position) else .ok ()

def lookUp (symbol : String) : Except ConversionError Operator :=
  match Operator.ofSymbol? symbol with
  | some op => .ok op
  | none => .error (.unknownSymbol symbol)

/-- Moves the waiting operators that come before the given one into the program. Groups and functions hold them
back. -/
def release (symbol : String) (output : Program) : List Pending → Except ConversionError (Program × List Pending)
  | .operator earlier :: pending => do
    let current ← lookUp symbol
    let waiting ← lookUp earlier
    if current.yieldsTo waiting then release symbol (.binary earlier :: output) pending
    else return (output, .operator earlier :: pending)
  | pending => .ok (output, pending)

/-- Moves everything that waits inside the innermost open group into the program. Without an open group nothing is
left waiting. -/
def closeGroup (output : Program) : List Pending → Program × Option (List Pending)
  | [] => (output, none)
  | .group _ :: pending => (output, some pending)
  | .operator symbol :: pending => closeGroup (.binary symbol :: output) pending
  | .function name :: pending => closeGroup (.unary name :: output) pending

/-- A function waiting right before a group is applied to the group. -/
def applyToGroup (output : Program) : List Pending → Program × List Pending
  | .function name :: pending => (.unary name :: output, pending)
  | pending => (output, pending)

namespace Conversion

def start : Conversion := ⟨[], [], true⟩

def operand (state : Conversion) (value : Binary64) : Conversion :=
  { state with output := .operand value :: state.output, expectsOperand := false }

/-- Takes in a name: the constant, a function, or a name that the lenient rules pass over. Strict rules want an
open parenthesis next to a function. -/
def name (strict : Bool) (next : Option TokenKind) (state : Conversion) (name : String) (position : Int) :
    Except ConversionError Conversion := do
  if isPiName name then
    demand strict state.expectsOperand (.nameAfterOperand name) position
    return state.operand .pi
  else if (UnaryFunction.ofName? name).isSome then
    demand strict state.expectsOperand (.nameAfterOperand name) position
    demand strict (next == some .openParen) (.functionWithoutGroup name) position
    return { state with pending := .function name :: state.pending }
  else
    demand strict false (.unknownName name) position
    return state

/-- Takes in an operator: those that come before it leave, and it waits for its right operand. -/
def operator (strict : Bool) (state : Conversion) (symbol : String) (position : Int) :
    Except ConversionError Conversion := do
  demand strict (!state.expectsOperand) (.operatorWithoutOperand symbol) position
  let (output, pending) ← release symbol state.output state.pending
  return ⟨output, .operator symbol :: pending, true⟩

/-- Takes in a closing parenthesis. Without an open one it still ends all that waits. -/
def close (strict : Bool) (state : Conversion) (position : Int) : Except ConversionError Conversion := do
  demand strict (!state.expectsOperand) .closeWithoutOperand position
  match closeGroup state.output state.pending with
  | (output, some pending) =>
    let (output, pending) := applyToGroup output pending
    return ⟨output, pending, false⟩
  | (output, none) =>
    demand strict false .unmatchedClose position
    return ⟨output, [], false⟩

/-- Takes in one token, with a look at the kind of the next one. -/
def step (strict : Bool) (next : Option TokenKind) (state : Conversion) (token : Token) :
    Except ConversionError Conversion :=
  match token.kind with
  | .number value => do
    demand strict state.expectsOperand (.numberAfterOperand value) token.position
    return state.operand value
  | .identifier name => state.name strict next name token.position
  | .operator symbol => state.operator strict symbol token.position
  | .openParen => do
    demand strict state.expectsOperand .groupAfterOperand token.position
    return { state with pending := .group token.position :: state.pending, expectsOperand := true }
  | .closeParen => state.close strict token.position
  | .comma mark | .period mark => do
    demand strict false (.stray mark) token.position
    return state

def steps (strict : Bool) (state : Conversion) : List Token → Except ConversionError Conversion
  | [] => .ok state
  | token :: tokens =>
    match state.step strict (tokens.head?.map Token.kind) token with
    | .ok state => state.steps strict tokens
    | .error error => .error error

end Conversion

/-- Ends the program with all that still waits. A group left open counts as closed, and the strict rules complain
about the innermost one. -/
def finish (strict : Bool) (output : Program) : List Pending → Except ConversionError Program
  | [] => .ok output.reverse
  | .group position :: pending =>
    if strict then .error (.refused .unmatchedOpen position) else finish strict output pending
  | .operator symbol :: pending => finish strict (.binary symbol :: output) pending
  | .function name :: pending => finish strict (.unary name :: output) pending

/-- Orders tokens into a program by precedence. The lenient rules make the best of any list of tokens. -/
def convert (strict : Bool) (tokens : List Token) : Except ConversionError Program := do
  let state ← Conversion.start.steps strict tokens
  match tokens.getLast? with
  | some last => demand strict (!state.expectsOperand) .endsWithoutOperand last.position
  | none => pure ()
  finish strict state.output state.pending

end Reckoner

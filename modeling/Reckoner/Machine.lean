import Reckoner.Instruction

namespace Reckoner

inductive RunError
  | operatorUnderflow (symbol : String)
  | functionUnderflow (name : String)
  | unknownName (name : String)
  | nothingLeft
  | leftover (stack : List Binary64)
  | notFinite (value : Binary64)
deriving DecidableEq

/-- Runs one instruction on the stack, whose top comes first. The top is the right operand. Operands are counted
before the name is looked up. -/
def runInstruction [ElementaryFunctions] : List Binary64 → Instruction → Except RunError (List Binary64)
  | stack, .operand value => .ok (value :: stack)
  | right :: left :: stack, .binary symbol =>
    match Operator.ofSymbol? symbol with
    | some op => .ok (op.apply left right :: stack)
    | none => .error (.unknownName symbol)
  | _, .binary symbol => .error (.operatorUnderflow symbol)
  | argument :: stack, .unary name =>
    match UnaryFunction.ofName? name with
    | some f => .ok (f.apply argument :: stack)
    | none => .error (.unknownName name)
  | [], .unary name => .error (.functionUnderflow name)

def runOn [ElementaryFunctions] (stack : List Binary64) : Program → Except RunError (List Binary64)
  | [] => .ok stack
  | instruction :: program =>
    match runInstruction stack instruction with
    | .ok stack => runOn stack program
    | .error error => .error error

/-- The one finite value that a run has to leave. -/
def resultOf : List Binary64 → Except RunError Binary64
  | [] => .error .nothingLeft
  | [value] => if value.isFinite then .ok value else .error (.notFinite value)
  | stack => .error (.leftover stack.reverse)

def Program.run [ElementaryFunctions] (program : Program) : Except RunError Binary64 :=
  match runOn [] program with
  | .ok stack => resultOf stack
  | .error error => .error error

theorem isFinite_of_resultOf {stack : List Binary64} {value : Binary64} (left : resultOf stack = .ok value) :
    value.isFinite = true := by
  unfold resultOf at left
  split at left
  · cases left
  · split at left <;> cases left
    assumption
  · cases left

/-- A run gives finite values only. -/
theorem Program.isFinite_of_run [ElementaryFunctions] {program : Program} {value : Binary64}
    (ran : program.run = .ok value) : value.isFinite = true := by
  unfold run at ran
  split at ran
  · exact isFinite_of_resultOf ran
  · cases ran

end Reckoner

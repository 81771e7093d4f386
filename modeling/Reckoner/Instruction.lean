import Reckoner.Operator
import Reckoner.FloatText

namespace Reckoner

/-- A step of a stack computation. The names of operators and functions are looked up when it runs. -/
inductive Instruction
  | operand (value : Binary64)
  | binary (symbol : String)
  | unary (name : String)
deriving DecidableEq

abbrev Program := List Instruction

def Instruction.text : Instruction → String
  | operand value => value.text
  | binary symbol => symbol
  | unary name => name

/-- The instructions on one line with a space between neighbours. -/
def Program.text (program : Program) : String := " ".intercalate (program.map Instruction.text)

end Reckoner

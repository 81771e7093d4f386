import Reckoner.Arithmetic
import Reckoner.ElementaryFunctions

namespace Reckoner

inductive Associativity
  | left
  | right
deriving DecidableEq

inductive Operator
  | add
  | sub
  | mul
  | div
  | rem
  | pow
deriving DecidableEq

namespace Operator

def symbol : Operator → String
  | add => "+"
  | sub => "-"
  | mul => "*"
  | div => "/"
  | rem => "%"
  | pow => "^"

def ofSymbol? : String → Option Operator
  | "+" => some add
  | "-" => some sub
  | "*" => some mul
  | "/" => some div
  | "%" => some rem
  | "^" => some pow
  | _ => none

def precedence : Operator → Nat
  | add | sub => 2
  | mul | div | rem => 3
  | pow => 4

/-- Only powers group to the right. -/
def associativity : Operator → Associativity
  | pow => .right
  | _ => .left

/-- Whether an operator to the left, still waiting for its right operand, takes what stands between it and this
operator. -/
def yieldsTo (current earlier : Operator) : Bool :=
  match current.associativity with
  | .left => current.precedence ≤ earlier.precedence
  | .right => current.precedence < earlier.precedence

def apply [ElementaryFunctions] : Operator → Binary64 → Binary64 → Binary64
  | add => Binary64.add
  | sub => Binary64.sub
  | mul => Binary64.mul
  | div => Binary64.div
  | rem => Binary64.rem
  | pow => ElementaryFunctions.pow

theorem ofSymbol?_symbol (op : Operator) : ofSymbol? op.symbol = some op := by cases op <;> rfl

theorem symbol_of_ofSymbol? {text : String} {op : Operator} (found : ofSymbol? text = some op) :
    text = op.symbol := by
  unfold ofSymbol? at found
  split at found <;> cases found <;> rfl

end Operator

inductive UnaryFunction
  | sin
  | cos
  | tan
  | asin
  | acos
  | atan
  | ln
  | log
  | exp
  | sqrt
deriving DecidableEq

namespace UnaryFunction

def name : UnaryFunction → String
  | sin => "sin"
  | cos => "cos"
  | tan => "tan"
  | asin => "asin"
  | acos => "acos"
  | atan => "atan"
  | ln => "ln"
  | log => "log"
  | exp => "exp"
  | sqrt => "sqrt"

/-- Names of functions are told apart by letter case. -/
def ofName? : String → Option UnaryFunction
  | "sin" => some sin
  | "cos" => some cos
  | "tan" => some tan
  | "asin" => some asin
  | "acos" => some acos
  | "atan" => some atan
  | "ln" => some ln
  | "log" => some log
  | "exp" => some exp
  | "sqrt" => some sqrt
  | _ => none

def apply [ElementaryFunctions] : UnaryFunction → Binary64 → Binary64
  | sin => ElementaryFunctions.sin
  | cos => ElementaryFunctions.cos
  | tan => ElementaryFunctions.tan
  | asin => ElementaryFunctions.asin
  | acos => ElementaryFunctions.acos
  | atan => ElementaryFunctions.atan
  | ln => ElementaryFunctions.ln
  | log => ElementaryFunctions.log10
  | exp => ElementaryFunctions.exp
  | sqrt => Binary64.sqrt

theorem ofName?_name (f : UnaryFunction) : ofName? f.name = some f := by cases f <;> rfl

theorem name_of_ofName? {text : String} {f : UnaryFunction} (found : ofName? text = some f) : text = f.name := by
  unfold ofName? at found
  split at found <;> cases found <;> rfl

end UnaryFunction

end Reckoner

import Reckoner.Machine

namespace Reckoner

/-- An expression whose grouping is settled. -/
inductive Expression
  | operand (value : Binary64)
  | binary (op : Operator) (left right : Expression)
  | call (f : UnaryFunction) (argument : Expression)
deriving DecidableEq

namespace Expression

def value [ElementaryFunctions] : Expression → Binary64
  | operand value => value
  | binary op left right => op.apply left.value right.value
  | call f argument => f.apply argument.value

/-- The listing that puts every operator and every function right behind its operands. -/
def postorder : Expression → Program
  | operand value => [.operand value]
  | binary op left right => left.postorder ++ right.postorder ++ [.binary op.symbol]
  | call f argument => argument.postorder ++ [.unary f.name]

end Expression

def listing (trees : List Expression) : Program := trees.flatMap Expression.postorder

@[simp]
theorem listing_nil : listing [] = [] := rfl

@[simp]
theorem listing_cons (tree : Expression) (trees : List Expression) :
    listing (tree :: trees) = tree.postorder ++ listing trees := rfl

@[simp]
theorem listing_append (trees more : List Expression) : listing (trees ++ more) = listing trees ++ listing more := by
  simp [listing]

/-- How many operands an instruction takes from the stack. -/
def Instruction.arity : Instruction → Nat
  | operand _ => 0
  | binary _ => 2
  | unary _ => 1

/-- Whether the symbol or the name of an instruction is that of an operator or a function. -/
def Instruction.IsKnown : Instruction → Prop
  | operand _ => True
  | binary symbol => ∃ op, Operator.ofSymbol? symbol = some op
  | unary name => ∃ f, UnaryFunction.ofName? name = some f

/-- One instruction on a stack of expressions instead of doubles, the latest first. -/
def grow : List Expression → Instruction → Option (List Expression)
  | forest, .operand value => some (.operand value :: forest)
  | right :: left :: forest, .binary symbol =>
    (Operator.ofSymbol? symbol).map fun op => .binary op left right :: forest
  | argument :: forest, .unary name => (UnaryFunction.ofName? name).map fun f => .call f argument :: forest
  | _, _ => none

def growAll (forest : List Expression) : Program → Option (List Expression)
  | [] => some forest
  | instruction :: program => (grow forest instruction).bind fun forest => growAll forest program

theorem growAll_append (forest : List Expression) (program rest : Program) :
    growAll forest (program ++ rest) = (growAll forest program).bind fun forest => growAll forest rest := by
  induction program generalizing forest with
  | nil => rfl
  | cons instruction program ih =>
    simp only [List.cons_append, growAll, Option.bind_assoc]
    congr 1
    funext next
    exact ih next

/-- A listing puts its own expression on the stack, whatever lies below. -/
theorem growAll_postorder (tree : Expression) (forest : List Expression) :
    growAll forest tree.postorder = some (tree :: forest) := by
  induction tree generalizing forest with
  | operand value => rfl
  | binary op left right ihLeft ihRight =>
    rw [Expression.postorder, growAll_append, growAll_append, ihLeft]
    simp [ihRight, growAll, grow, Operator.ofSymbol?_symbol]
  | call f argument ih =>
    rw [Expression.postorder, growAll_append, ih]
    simp [growAll, grow, UnaryFunction.ofName?_name]

theorem growAll_listing (trees forest : List Expression) :
    growAll forest (listing trees) = some (trees.reverse ++ forest) := by
  induction trees generalizing forest with
  | nil => rfl
  | cons tree trees ih =>
    rw [listing_cons, growAll_append, growAll_postorder]
    simp [ih]

theorem listing_injective : Function.Injective listing := by
  intro trees more same
  have grown := growAll_listing trees []
  rw [same, growAll_listing more []] at grown
  simpa using grown.symm

theorem postorder_injective : Function.Injective Expression.postorder := by
  intro tree other same
  have grown := growAll_postorder tree []
  rw [same, growAll_postorder other []] at grown
  simpa using grown.symm

/-- The stack of expressions always lists the instructions that it came from. -/
theorem listing_grow {forest next : List Expression} {instruction : Instruction}
    (grown : grow forest instruction = some next) :
    listing next.reverse = listing forest.reverse ++ [instruction] := by
  unfold grow at grown
  split at grown
  · cases grown
    simp [Expression.postorder]
  · rename_i right left forest symbol
    obtain ⟨op, found, rfl⟩ := Option.map_eq_some_iff.mp grown
    simp [Expression.postorder, Operator.symbol_of_ofSymbol? found]
  · rename_i argument forest name
    obtain ⟨f, found, rfl⟩ := Option.map_eq_some_iff.mp grown
    simp [Expression.postorder, UnaryFunction.name_of_ofName? found]
  · cases grown

theorem listing_growAll {forest last : List Expression} {program : Program}
    (grown : growAll forest program = some last) : listing last.reverse = listing forest.reverse ++ program := by
  induction program generalizing forest with
  | nil =>
    cases grown
    simp
  | cons instruction program ih =>
    obtain ⟨next, first, rest⟩ := Option.bind_eq_some_iff.mp grown
    rw [ih rest, listing_grow first]
    simp

/-- Only a lack of operands keeps a known instruction from its work. -/
theorem grow_eq_none_iff {forest : List Expression} {instruction : Instruction} (known : instruction.IsKnown) :
    grow forest instruction = none ↔ forest.length < instruction.arity := by
  cases instruction with
  | operand value => simp [grow, Instruction.arity]
  | binary symbol =>
    obtain ⟨op, found⟩ := known
    rcases forest with _ | ⟨right, _ | ⟨left, forest⟩⟩ <;> simp [grow, Instruction.arity, found]
  | unary name =>
    obtain ⟨f, found⟩ := known
    cases forest <;> simp [grow, Instruction.arity, found]

end Reckoner

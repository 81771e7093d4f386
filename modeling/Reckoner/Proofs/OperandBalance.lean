import Reckoner.Elementary.Rounded
import Reckoner.Proofs.Conservation

namespace Reckoner

def Instruction.isOperand (instruction : Instruction) : Bool := instruction.value?.isSome

def Instruction.isBinary : Instruction → Bool
  | binary _ => true
  | operand _ | unary _ => false

/-- Numbers and the constant are operands, and names of any other kind are none. -/
def Token.isOperand (token : Token) : Bool := token.value?.isSome

def Token.isOperator (token : Token) : Bool :=
  match token.kind with
  | .operator _ => true
  | _ => false

section Depth

variable {stack next last : List Binary64} {instruction : Instruction} {program : Program} {value : Binary64}

/-- An operator puts one double in the place of two, and a function one in the place of one. -/
theorem runInstruction_length [ElementaryFunctions] (ran : runInstruction stack instruction = .ok next) :
    next.length + (if instruction.isBinary then 1 else 0) = stack.length + if instruction.isOperand then 1 else 0 := by
  unfold runInstruction at ran
  split at ran
  · cases ran
    rfl
  · split at ran <;> cases ran
    simp [Instruction.isBinary, Instruction.isOperand, Instruction.value?]
  · cases ran
  · split at ran <;> cases ran
    rfl
  · cases ran

theorem runOn_length [ElementaryFunctions] (ran : runOn stack program = .ok last) :
    last.length + program.countP Instruction.isBinary = stack.length + program.countP Instruction.isOperand := by
  induction program generalizing stack with
  | nil =>
    cases ran
    rfl
  | cons instruction program ih =>
    rw [runOn] at ran
    cases first : runInstruction stack instruction with
    | error error =>
      rw [first] at ran
      cases ran
    | ok next =>
      rw [first] at ran
      have here := runInstruction_length first
      have behind := ih ran
      rw [List.countP_cons, List.countP_cons]
      omega

theorem length_of_resultOf (single : resultOf stack = .ok value) : stack.length = 1 := by
  unfold resultOf at single
  split at single
  · cases single
  · rfl
  · cases single

/-- A program that gives a value has one operand more than it has operators. -/
theorem Program.operands_of_run [ElementaryFunctions] (ran : program.run = .ok value) :
    program.countP Instruction.isOperand = program.countP Instruction.isBinary + 1 := by
  rw [Program.run] at ran
  cases whole : runOn [] program with
  | error error =>
    rw [whole] at ran
    cases ran
  | ok stack =>
    rw [whole] at ran
    have depth := runOn_length whole
    rw [length_of_resultOf ran, List.length_nil] at depth
    omega

end Depth

theorem isBinary_instruction (token : Token) :
    (token.instruction?.map Instruction.isBinary).getD false = token.isOperator := by
  obtain ⟨kind, position⟩ := token
  cases kind with
  | identifier name =>
    rcases instruction_of_identifier name position with ⟨_, asked⟩ | ⟨_, asked | ⟨f, asked⟩⟩ <;> rw [asked] <;> rfl
  | number | operator | openParen | closeParen | comma | period => rfl

namespace Inserted

variable {tokens : List Token} {program : Program}

theorem countP_operands (inserted : Inserted tokens program) :
    program.countP Instruction.isOperand = tokens.countP Token.isOperand := by
  have same := congrArg List.length inserted.operands
  rwa [List.length_filterMap_eq_countP, List.length_filterMap_eq_countP] at same

theorem countP_operators (inserted : Inserted tokens program) :
    program.countP Instruction.isBinary = tokens.countP Token.isOperator := by
  rw [inserted.perm.countP_eq, List.countP_filterMap]
  exact List.countP_congr fun token _ => by rw [isBinary_instruction]

end Inserted

theorem convert_of_evaluate [ElementaryFunctions] {strict : Bool} {source : String} {value : Binary64}
    (evaluated : evaluate strict (.text source) = .ok value) :
    ∃ program, convert strict (scan source) = .ok program ∧ program.run = .ok value := by
  cases converted : convert strict (scan source) with
  | error error =>
    rw [evaluate_of_convert_error rfl converted] at evaluated
    cases evaluated
  | ok program =>
    rw [evaluate_of_convert rfl converted] at evaluated
    cases ran : program.run with
    | error error =>
      rw [ran] at evaluated
      cases evaluated
    | ok result =>
      rw [ran] at evaluated
      cases evaluated
      exact ⟨program, rfl, ran⟩

/-- No value comes of a text with an operand missing or to spare, whatever parentheses, marks, functions and unknown
names are in it. -/
theorem operands_of_evaluate [ElementaryFunctions] {strict : Bool} {source : String} {value : Binary64}
    (evaluated : evaluate strict (.text source) = .ok value) :
    (scan source).countP Token.isOperand = (scan source).countP Token.isOperator + 1 := by
  obtain ⟨program, converted, ran⟩ := convert_of_evaluate evaluated
  have inserted := inserted_of_convert converted
  have balance := Program.operands_of_run ran
  rwa [inserted.countP_operands, inserted.countP_operators] at balance

theorem operands_of_evaluate_unbalanced :
    evaluate false (.text ")Pi foo,(pI-") = .ok (.zero false) ∧
      (scan ")Pi foo,(pI-").countP Token.isOperand = (scan ")Pi foo,(pI-").countP Token.isOperator + 1 := by
  have evaluated : evaluate false (.text ")Pi foo,(pI-") = .ok (.zero false) := by
    have tokens : scan ")Pi foo,(pI-" = [⟨.closeParen, 0⟩, ⟨.identifier "Pi", 1⟩, ⟨.identifier "foo", 4⟩,
        ⟨.comma ",", 7⟩, ⟨.openParen, 8⟩, ⟨.identifier "pI", 9⟩, ⟨.operator "-", 11⟩] := by decide +kernel
    have converted : convert false (scan ")Pi foo,(pI-") = .ok [.operand .pi, .operand .pi, .binary "-"] := by
      rw [tokens]
      rfl
    rw [evaluate_of_convert rfl converted, run_pi_difference]
    rfl
  exact ⟨evaluated, operands_of_evaluate evaluated⟩

end Reckoner

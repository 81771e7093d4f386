import Reckoner.Elementary.Rounded
import Reckoner.Outcome
import Reckoner.Proofs.Refusals

namespace Reckoner

/-- The strict rules turned something down. A symbol without a meaning is no such case, since any rules stop at it. -/
def Refused {α : Type} (result : Except ConversionError α) : Prop :=
  ∃ complaint position, result = .error (.refused complaint position)

variable {state : Conversion} {tokens : List Token}

/-- What strict rules let a token do it does under lenient rules too, and these do not look at what comes next. -/
theorem Moves.lenient {next other : Option TokenKind} {token : Token} {after : Conversion}
    (move : Moves true next state token after) : Moves false other state token after := by
  cases move with
  | number _ => exact .number nofun
  | constant isPi _ => exact .constant isPi nofun
  | function _ _ => exact .function nofun nofun
  | operator _ released => exact .operator nofun released
  | openParen _ => exact .openParen nofun
  | closeParen _ closed => exact .closeParen nofun closed
  | unknown lenient | cut lenient | comma lenient | period lenient => cases lenient

theorem step_strict (next : Option TokenKind) (state : Conversion) (token : Token) :
    Refused (state.step true next token) ∨ state.step true next token = state.step false next token := by
  cases taken : state.step true next token with
  | ok after =>
    have move := moves_of_step taken
    exact Or.inr (step_of_moves move.lenient).symm
  | error error =>
    rcases refuses_of_step taken with ⟨complaint, rfl, _⟩ | ⟨symbol, carries, _, unreleased⟩
    · exact Or.inl ⟨complaint, token.position, rfl⟩
    · -- An unknown symbol stops the release of what waits, which is the same under both rules.
      obtain ⟨_, position⟩ := token
      obtain rfl : _ = TokenKind.operator symbol := carries
      right
      simp only [Conversion.step, Conversion.operator, demand_lenient, ok_bind, unreleased, error_bind]

/-- Up to the token that they turn down, strict rules go through the same states as lenient ones. -/
theorem steps_strict (state : Conversion) (tokens : List Token) :
    Refused (state.steps true tokens) ∨ state.steps true tokens = state.steps false tokens := by
  induction tokens generalizing state with
  | nil => exact Or.inr rfl
  | cons token tokens ih =>
    rw [Conversion.steps, Conversion.steps]
    rcases step_strict (tokens.head?.map Token.kind) state token with ⟨complaint, position, refused⟩ | same
    · rw [refused]
      exact Or.inl ⟨complaint, position, rfl⟩
    · rw [same]
      cases state.step false (tokens.head?.map Token.kind) token with
      | ok after => exact ih after
      | error error => exact Or.inr rfl

theorem finish_strict (output : Program) (pending : List Pending) :
    Refused (finish true output pending) ∨ finish true output pending = finish false output pending := by
  induction pending generalizing output with
  | nil => exact Or.inr rfl
  | cons entry pending ih =>
    cases entry with
    | operator symbol => exact ih (.binary symbol :: output)
    | function name => exact ih (.unary name :: output)
    | group position => exact Or.inl ⟨.unmatchedOpen, position, rfl⟩

theorem convert_strict (tokens : List Token) :
    Refused (convert true tokens) ∨ convert true tokens = convert false tokens := by
  rcases steps_strict .start tokens with ⟨complaint, position, refused⟩ | same
  · exact Or.inl ⟨complaint, position, convert_of_steps_error refused⟩
  · cases run : Conversion.start.steps true tokens with
    | error error =>
      have lenient := same.symm.trans run
      exact Or.inr ((convert_of_steps_error run).trans (convert_of_steps_error lenient).symm)
    | ok last =>
      have lenient := same.symm.trans run
      cases expects : last.expectsOperand with
      | false =>
        rw [convert_of_steps run (Or.inr expects), convert_of_steps lenient (Or.inl rfl)]
        exact finish_strict last.output last.pending
      | true =>
        -- Only an empty list ends with an operand to come and is no fault.
        cases atEnd : tokens.getLast? with
        | none =>
          obtain rfl := List.getLast?_eq_none_iff.mp atEnd
          exact Or.inr rfl
        | some token => exact Or.inl ⟨_, _, convert_of_steps_expecting run atEnd expects⟩

theorem lenient_convert {strict : Bool} {program : Program} (converted : convert strict tokens = .ok program) :
    convert false tokens = .ok program := by
  cases strict with
  | false => exact converted
  | true =>
    rcases convert_strict tokens with ⟨_, _, refused⟩ | same
    · cases refused.symm.trans converted
    · exact same.symm.trans converted

section Evaluate

variable [ElementaryFunctions] {strict : Bool} {expression : Value}

theorem evaluate_of_tokens (read : expression.tokens = .ok tokens) : evaluate strict expression =
    (convert strict tokens).mapError .conversion >>= fun program => program.run.mapError .running := by
  rw [evaluate, read]
  rfl

theorem evaluate_of_convert {program : Program} (read : expression.tokens = .ok tokens)
    (converted : convert strict tokens = .ok program) :
    evaluate strict expression = program.run.mapError .running := by
  rw [evaluate_of_tokens read, converted]
  rfl

theorem evaluate_of_convert_error {error : ConversionError} (read : expression.tokens = .ok tokens)
    (stopped : convert strict tokens = .error error) : evaluate strict expression = .error (.conversion error) := by
  rw [evaluate_of_tokens read, stopped]
  rfl

end Evaluate

theorem evaluate_strict [ElementaryFunctions] (expression : Value) :
    (∃ complaint position, evaluate true expression = .error (.conversion (.refused complaint position))) ∨
      evaluate true expression = evaluate false expression := by
  cases read : expression.tokens with
  | error failure =>
    right
    rw [evaluate, evaluate, read]
    rfl
  | ok tokens =>
    rcases convert_strict tokens with ⟨complaint, position, refused⟩ | same
    · exact Or.inl ⟨complaint, position, evaluate_of_convert_error read refused⟩
    · right
      rw [evaluate_of_tokens read, evaluate_of_tokens read, same]

/-- Strict rules only take inputs away: a program or a value that comes out under them comes out without them. -/
theorem lenient_of_strict [ElementaryFunctions] :
    (∀ tokens program, convert true tokens = .ok program → convert false tokens = .ok program) ∧
      ∀ expression value, evaluate true expression = .ok value → evaluate false expression = .ok value := by
  constructor
  · intro tokens program accepted
    exact lenient_convert accepted
  · intro expression value evaluated
    rcases evaluate_strict expression with ⟨_, _, refused⟩ | same
    · cases refused.symm.trans evaluated
    · exact same.symm.trans evaluated

theorem run_pi_difference [ElementaryFunctions] :
    Program.run [.operand .pi, .operand .pi, .binary "-"] = .ok (.zero false) := by
  have difference : Binary64.sub .pi .pi = .zero false := by decide +kernel
  have run : Program.run [.operand .pi, .operand .pi, .binary "-"] = resultOf [Binary64.sub .pi .pi] := rfl
  rw [run, difference]
  rfl

theorem lenient_of_strict_power :
    convert true [⟨.identifier "sqrt", 9⟩, ⟨.openParen, 9⟩, ⟨.number .pi, -1⟩, ⟨.closeParen, 0⟩, ⟨.operator "^", 9⟩,
        ⟨.number .pi, 9⟩, ⟨.operator "^", 4⟩, ⟨.identifier "pI", 4⟩] =
      .ok [.operand .pi, .unary "sqrt", .operand .pi, .operand .pi, .binary "^", .binary "^"] ∧
    convert false [⟨.identifier "sqrt", 9⟩, ⟨.openParen, 9⟩, ⟨.number .pi, -1⟩, ⟨.closeParen, 0⟩, ⟨.operator "^", 9⟩,
        ⟨.number .pi, 9⟩, ⟨.operator "^", 4⟩, ⟨.identifier "pI", 4⟩] =
      .ok [.operand .pi, .unary "sqrt", .operand .pi, .operand .pi, .binary "^", .binary "^"] ∧
    evaluate true (.text "(pi-PI)") = .ok (.zero false) ∧ evaluate false (.text "(pi-PI)") = .ok (.zero false) := by
  have accepted : convert true [⟨.identifier "sqrt", 9⟩, ⟨.openParen, 9⟩, ⟨.number .pi, -1⟩, ⟨.closeParen, 0⟩,
      ⟨.operator "^", 9⟩, ⟨.number .pi, 9⟩, ⟨.operator "^", 4⟩, ⟨.identifier "pI", 4⟩] =
      .ok [.operand .pi, .unary "sqrt", .operand .pi, .operand .pi, .binary "^", .binary "^"] := rfl
  have evaluated : evaluate true (.text "(pi-PI)") = .ok (.zero false) := by
    have tokens : scan "(pi-PI)" = [⟨.openParen, 0⟩, ⟨.identifier "pi", 1⟩, ⟨.operator "-", 3⟩, ⟨.identifier "PI", 4⟩,
        ⟨.closeParen, 6⟩] := by decide +kernel
    have converted : convert true (scan "(pi-PI)") = .ok [.operand .pi, .operand .pi, .binary "-"] := by
      rw [tokens]
      rfl
    rw [evaluate_of_convert rfl converted, run_pi_difference]
    rfl
  exact ⟨accepted, lenient_of_strict.1 _ _ accepted, evaluated, lenient_of_strict.2 _ _ evaluated⟩

end Reckoner

import Reckoner.Proofs.ConversionSteps
import Reckoner.Proofs.Results

namespace Reckoner

/-- Everything that a token can do to a conversion that takes it in. Strict rules ask for what stands behind
`strict = true →` and leave out what stands behind `strict = false →`. -/
inductive Moves (strict : Bool) (next : Option TokenKind) (state : Conversion) : Token → Conversion → Prop
  | number {value : Binary64} {position : Int} : (strict = true → state.expectsOperand = true) →
      Moves strict next state ⟨.number value, position⟩ (state.operand value)
  | constant {name : String} {position : Int} : isPiName name = true →
      (strict = true → state.expectsOperand = true) →
      Moves strict next state ⟨.identifier name, position⟩ (state.operand .pi)
  | function {f : UnaryFunction} {position : Int} : (strict = true → state.expectsOperand = true) →
      (strict = true → next = some .openParen) →
      Moves strict next state ⟨.identifier f.name, position⟩
        ⟨state.output, .function f.name :: state.pending, state.expectsOperand⟩
  | unknown {name : String} {position : Int} : strict = false → isPiName name = false →
      UnaryFunction.ofName? name = none → Moves strict next state ⟨.identifier name, position⟩ state
  | operator {symbol : String} {position : Int} {output : Program} {pending : List Pending} :
      (strict = true → state.expectsOperand = false) →
      release symbol state.output state.pending = .ok (output, pending) →
      Moves strict next state ⟨.operator symbol, position⟩ ⟨output, .operator symbol :: pending, true⟩
  | openParen {position : Int} : (strict = true → state.expectsOperand = true) →
      Moves strict next state ⟨.openParen, position⟩ ⟨state.output, .group position :: state.pending, true⟩
  | closeParen {position : Int} {output : Program} {pending : List Pending} :
      (strict = true → state.expectsOperand = false) →
      closeGroup state.output state.pending = (output, some pending) →
      Moves strict next state ⟨.closeParen, position⟩
        ⟨(applyToGroup output pending).1, (applyToGroup output pending).2, false⟩
  | cut {position : Int} {output : Program} : strict = false → closeGroup state.output state.pending = (output, none) →
      Moves strict next state ⟨.closeParen, position⟩ ⟨output, [], false⟩
  | comma {mark : String} {position : Int} : strict = false → Moves strict next state ⟨.comma mark, position⟩ state
  | period {mark : String} {position : Int} : strict = false → Moves strict next state ⟨.period mark, position⟩ state

section Steps

variable {strict : Bool} {next : Option TokenKind} {state after : Conversion} {token : Token}

theorem demand_eq_ok {holds : Bool} {complaint : Complaint} {position : Int} {done : Unit}
    (met : demand strict holds complaint position = .ok done) : strict = true → holds = true := by
  rintro rfl
  cases holds with
  | true => rfl
  | false => cases met

theorem demand_of_imp {holds : Bool} {complaint : Complaint} {position : Int} (meets : strict = true → holds = true) :
    demand strict holds complaint position = .ok () := by
  cases strict with
  | true => rw [meets rfl, demand_true]
  | false => rfl

theorem moves_of_step (taken : state.step strict next token = .ok after) : Moves strict next state token after := by
  obtain ⟨kind, position⟩ := token
  cases kind with
  | number value =>
    obtain ⟨_, met, rest⟩ := bind_eq_ok taken
    cases rest
    exact .number (demand_eq_ok met)
  | identifier name =>
    rcases name_cases name with isPi | ⟨f, rfl⟩ | ⟨noPi, noFunction⟩
    · rw [Conversion.step_constant isPi] at taken
      obtain ⟨_, met, rest⟩ := bind_eq_ok taken
      cases rest
      exact .constant isPi (demand_eq_ok met)
    · rw [Conversion.step_function] at taken
      obtain ⟨_, met, rest⟩ := bind_eq_ok taken
      obtain ⟨_, follows, rest⟩ := bind_eq_ok rest
      cases rest
      exact .function (demand_eq_ok met) fun isStrict => by simpa using demand_eq_ok follows isStrict
    · rw [Conversion.step_unknown noPi noFunction] at taken
      obtain ⟨_, met, rest⟩ := bind_eq_ok taken
      cases rest
      have lenient : strict = false := by simpa using demand_eq_ok met
      exact .unknown lenient noPi noFunction
  | operator symbol =>
    obtain ⟨_, met, rest⟩ := bind_eq_ok taken
    obtain ⟨⟨output, pending⟩, released, rest⟩ := bind_eq_ok rest
    cases rest
    exact .operator (by simpa using demand_eq_ok met) released
  | openParen =>
    obtain ⟨_, met, rest⟩ := bind_eq_ok taken
    cases rest
    exact .openParen (demand_eq_ok met)
  | closeParen =>
    obtain ⟨_, met, rest⟩ := bind_eq_ok taken
    have filled : strict = true → state.expectsOperand = false := by simpa using demand_eq_ok met
    cases closed : closeGroup state.output state.pending with
    | mk output left =>
      simp only [closed] at rest
      cases left with
      | some pending =>
        cases rest
        exact .closeParen filled closed
      | none =>
        obtain ⟨_, met, rest⟩ := bind_eq_ok rest
        cases rest
        exact .cut (by simpa using demand_eq_ok met) closed
  | comma mark =>
    obtain ⟨_, met, rest⟩ := bind_eq_ok taken
    cases rest
    exact .comma (by simpa using demand_eq_ok met)
  | period mark =>
    obtain ⟨_, met, rest⟩ := bind_eq_ok taken
    cases rest
    exact .period (by simpa using demand_eq_ok met)

theorem step_of_moves (move : Moves strict next state token after) : state.step strict next token = .ok after := by
  cases move with
  | number met =>
    simp only [Conversion.step, demand_of_imp met]
    rfl
  | constant isPi met => rw [Conversion.step_constant isPi, demand_of_imp met, ok_bind]
  | function met follows =>
    have groupFollows : strict = true → (next == some .openParen) = true := fun isStrict => by simp [follows isStrict]
    rw [Conversion.step_function, demand_of_imp met, ok_bind, demand_of_imp groupFollows, ok_bind]
  | unknown lenient noPi noFunction =>
    subst lenient
    rw [Conversion.step_unknown noPi noFunction, demand_lenient, ok_bind]
  | operator filled released =>
    have met : strict = true → (!state.expectsOperand) = true := fun isStrict => by simp [filled isStrict]
    simp only [Conversion.step, Conversion.operator, demand_of_imp met, ok_bind, released]
    rfl
  | openParen met =>
    simp only [Conversion.step, demand_of_imp met]
    rfl
  | closeParen filled closed =>
    have met : strict = true → (!state.expectsOperand) = true := fun isStrict => by simp [filled isStrict]
    simp only [Conversion.step, Conversion.close, demand_of_imp met, ok_bind, closed]
    rfl
  | cut lenient closed =>
    subst lenient
    simp only [Conversion.step, Conversion.close, demand_lenient, ok_bind, closed]
    rfl
  | comma lenient | period lenient =>
    subst lenient
    rfl

theorem Moves.steps {tokens : List Token} (move : Moves strict (tokens.head?.map Token.kind) state token after) :
    state.steps strict (token :: tokens) = after.steps strict tokens :=
  Conversion.steps_of_step (step_of_moves move)

theorem Conversion.exists_move_of_steps {tokens : List Token} {last : Conversion}
    (run : state.steps strict (token :: tokens) = .ok last) :
    ∃ after, Moves strict (tokens.head?.map Token.kind) state token after ∧ after.steps strict tokens = .ok last := by
  rw [Conversion.steps] at run
  cases taken : state.step strict (tokens.head?.map Token.kind) token with
  | ok after =>
    rw [taken] at run
    exact ⟨after, moves_of_step taken, run⟩
  | error error =>
    rw [taken] at run
    cases run

end Steps

/-- The states that a conversion comes to between two tokens, with the tokens taken in and those that are left. Each
step sees the next token and nothing behind it. -/
inductive Conversion.Reach (strict : Bool) (tokens : List Token) : List Token → List Token → Conversion → Prop
  | start : Reach strict tokens [] tokens .start
  | next {before after : List Token} {token : Token} {state further : Conversion} :
      Reach strict tokens before (token :: after) state →
      state.step strict (after.head?.map Token.kind) token = .ok further →
      Reach strict tokens (before ++ [token]) after further

section Reach

variable {strict : Bool} {tokens before after : List Token} {state last : Conversion}

theorem Conversion.Reach.split (reach : Reach strict tokens before after state) : before ++ after = tokens := by
  induction reach with
  | start => rfl
  | next _ _ ih => rw [List.append_assoc, List.singleton_append, ih]

/-- The token that comes next is one of the tokens. -/
theorem Conversion.Reach.next_mem {token : Token} (reach : Reach strict tokens before (token :: after) state) :
    token ∈ tokens := by
  rw [← reach.split]
  exact List.mem_append_right before List.mem_cons_self

theorem Conversion.Reach.steps (reach : Reach strict tokens before after state) :
    Conversion.start.steps strict tokens = state.steps strict after := by
  induction reach with
  | start => rfl
  | next _ taken ih => rw [ih, Conversion.steps_of_step taken]

/-- A run ends where the last token leads. -/
theorem Conversion.steps_eq_ok_iff_reach :
    start.steps strict tokens = .ok last ↔ Reach strict tokens tokens [] last := by
  constructor
  · have onward {before after : List Token} {state : Conversion} (reach : Reach strict tokens before after state)
        (run : state.steps strict after = .ok last) : Reach strict tokens tokens [] last := by
      induction after generalizing before state with
      | nil =>
        cases run
        have all := reach.split
        rw [List.append_nil] at all
        exact all ▸ reach
      | cons token after ih =>
        obtain ⟨further, move, rest⟩ := Conversion.exists_move_of_steps run
        exact ih (.next reach (step_of_moves move)) rest
    exact onward .start
  · intro reach
    exact reach.steps

end Reach

end Reckoner

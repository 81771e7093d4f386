import Reckoner.Proofs.Moves

namespace Reckoner

/-- Everything that strict rules complain about at a token. Only a function looks at what comes next. -/
inductive Refuses (next : Option TokenKind) (state : Conversion) : Token → Complaint → Prop
  | number {value : Binary64} {position : Int} : state.expectsOperand = false →
      Refuses next state ⟨.number value, position⟩ (.numberAfterOperand value)
  | name {name : String} {position : Int} : isPiName name = true ∨ UnaryFunction.ofName? name ≠ none →
      state.expectsOperand = false → Refuses next state ⟨.identifier name, position⟩ (.nameAfterOperand name)
  | functionWithoutGroup {f : UnaryFunction} {position : Int} : state.expectsOperand = true → next ≠ some .openParen →
      Refuses next state ⟨.identifier f.name, position⟩ (.functionWithoutGroup f.name)
  | unknown {name : String} {position : Int} : isPiName name = false → UnaryFunction.ofName? name = none →
      Refuses next state ⟨.identifier name, position⟩ (.unknownName name)
  | operator {symbol : String} {position : Int} : state.expectsOperand = true →
      Refuses next state ⟨.operator symbol, position⟩ (.operatorWithoutOperand symbol)
  | openParen {position : Int} : state.expectsOperand = false →
      Refuses next state ⟨.openParen, position⟩ .groupAfterOperand
  | closeParen {position : Int} : state.expectsOperand = true →
      Refuses next state ⟨.closeParen, position⟩ .closeWithoutOperand
  | unmatched {position : Int} : state.expectsOperand = false → (closeGroup state.output state.pending).2 = none →
      Refuses next state ⟨.closeParen, position⟩ .unmatchedClose
  | comma {mark : String} {position : Int} : Refuses next state ⟨.comma mark, position⟩ (.stray mark)
  | period {mark : String} {position : Int} : Refuses next state ⟨.period mark, position⟩ (.stray mark)

variable {next : Option TokenKind} {state : Conversion} {token : Token} {complaint : Complaint}

/-- What begins with a demand fails at the demand, or after it was met. -/
theorem demand_bind_eq_error {β : Type} {holds : Bool} {position : Int} {rest : Except ConversionError β}
    {error : ConversionError} (failed : (demand true holds complaint position >>= fun _ => rest) = .error error) :
    (holds = false ∧ error = .refused complaint position) ∨ (holds = true ∧ rest = .error error) := by
  cases holds with
  | true => exact Or.inr ⟨rfl, failed⟩
  | false =>
    cases failed
    exact Or.inl ⟨rfl, rfl⟩

theorem refuses_of_step {error : ConversionError} (failed : state.step true next token = .error error) :
    (∃ complaint, error = .refused complaint token.position ∧ Refuses next state token complaint) ∨
      ∃ symbol, token.kind = .operator symbol ∧ state.expectsOperand = false ∧
        release symbol state.output state.pending = .error error := by
  obtain ⟨kind, position⟩ := token
  cases kind with
  | number value =>
    rcases demand_bind_eq_error failed with ⟨filled, rfl⟩ | ⟨_, rest⟩
    · exact Or.inl ⟨_, rfl, .number filled⟩
    · cases rest
  | identifier name =>
    rcases name_cases name with isPi | ⟨f, rfl⟩ | ⟨noPi, noFunction⟩
    · rw [Conversion.step_constant isPi] at failed
      rcases demand_bind_eq_error failed with ⟨filled, rfl⟩ | ⟨_, rest⟩
      · exact Or.inl ⟨_, rfl, .name (Or.inl isPi) filled⟩
      · cases rest
    · rw [Conversion.step_function] at failed
      rcases demand_bind_eq_error failed with ⟨filled, rfl⟩ | ⟨expecting, rest⟩
      · exact Or.inl ⟨_, rfl, .name (Or.inr (by simp [UnaryFunction.ofName?_name])) filled⟩
      rcases demand_bind_eq_error rest with ⟨alone, rfl⟩ | ⟨_, rest⟩
      · exact Or.inl ⟨_, rfl, .functionWithoutGroup expecting (by simpa using alone)⟩
      · cases rest
    · rw [Conversion.step_unknown noPi noFunction] at failed
      rcases demand_bind_eq_error failed with ⟨_, rfl⟩ | ⟨impossible, _⟩
      · exact Or.inl ⟨_, rfl, .unknown noPi noFunction⟩
      · cases impossible
  | operator symbol =>
    rcases demand_bind_eq_error failed with ⟨expecting, rfl⟩ | ⟨filled, rest⟩
    · exact Or.inl ⟨_, rfl, .operator (by simpa using expecting)⟩
    · cases released : release symbol state.output state.pending with
      | ok result =>
        rw [released] at rest
        cases rest
      | error other =>
        rw [released] at rest
        cases rest
        exact Or.inr ⟨symbol, rfl, by simpa using filled, released⟩
  | openParen =>
    rcases demand_bind_eq_error failed with ⟨filled, rfl⟩ | ⟨_, rest⟩
    · exact Or.inl ⟨_, rfl, .openParen filled⟩
    · cases rest
  | closeParen =>
    rcases demand_bind_eq_error failed with ⟨expecting, rfl⟩ | ⟨filled, rest⟩
    · exact Or.inl ⟨_, rfl, .closeParen (by simpa using expecting)⟩
    · cases closed : closeGroup state.output state.pending with
      | mk output left =>
        simp only [closed] at rest
        cases left with
        | some pending => cases rest
        | none =>
          rcases demand_bind_eq_error rest with ⟨_, rfl⟩ | ⟨impossible, _⟩
          · exact Or.inl ⟨_, rfl, .unmatched (by simpa using filled) (by rw [closed])⟩
          · cases impossible
  | comma mark =>
    rcases demand_bind_eq_error failed with ⟨_, rfl⟩ | ⟨impossible, _⟩
    · exact Or.inl ⟨_, rfl, .comma⟩
    · cases impossible
  | period mark =>
    rcases demand_bind_eq_error failed with ⟨_, rfl⟩ | ⟨impossible, _⟩
    · exact Or.inl ⟨_, rfl, .period⟩
    · cases impossible

theorem step_of_refuses (refuses : Refuses next state token complaint) :
    state.step true next token = .error (.refused complaint token.position) := by
  cases refuses with
  | number filled | openParen filled =>
    simp only [Conversion.step, filled, demand_strict_false]
    rfl
  | @name name position known filled =>
    rcases name_cases name with isPi | ⟨f, rfl⟩ | ⟨noPi, noFunction⟩
    · rw [Conversion.step_constant isPi, filled, demand_strict_false, error_bind]
    · rw [Conversion.step_function, filled, demand_strict_false, error_bind]
    · rcases known with isPi | isFunction
      · cases noPi.symm.trans isPi
      · exact absurd noFunction isFunction
  | functionWithoutGroup expecting alone =>
    have notNext : (next == some TokenKind.openParen) = false := by simpa using alone
    rw [Conversion.step_function, expecting, demand_true, ok_bind, notNext, demand_strict_false, error_bind]
  | unknown noPi noFunction => rw [Conversion.step_unknown noPi noFunction, demand_strict_false, error_bind]
  | operator expecting =>
    simp only [Conversion.step, Conversion.operator, expecting, Bool.not_true, demand_strict_false]
    rfl
  | closeParen expecting =>
    simp only [Conversion.step, Conversion.close, expecting, Bool.not_true, demand_strict_false]
    rfl
  | @unmatched position filled closed =>
    cases whole : closeGroup state.output state.pending with
    | mk output left =>
      rw [whole] at closed
      obtain rfl : left = none := closed
      simp only [Conversion.step, Conversion.close, filled, Bool.not_false, demand_true, ok_bind, whole,
        demand_strict_false]
      rfl
  | comma | period => rfl

/-- Only the complaint about a function depends on what comes next. -/
theorem Refuses.other_next (refuses : Refuses next state token complaint)
    (grouped : ∀ name, complaint ≠ .functionWithoutGroup name) (other : Option TokenKind) :
    Refuses other state token complaint := by
  cases refuses with
  | number filled => exact .number filled
  | name known filled => exact .name known filled
  | functionWithoutGroup => exact absurd rfl (grouped _)
  | unknown noPi noFunction => exact .unknown noPi noFunction
  | operator expecting => exact .operator expecting
  | openParen filled => exact .openParen filled
  | closeParen expecting => exact .closeParen expecting
  | unmatched filled closed => exact .unmatched filled closed
  | comma => exact .comma
  | period => exact .period

end Reckoner

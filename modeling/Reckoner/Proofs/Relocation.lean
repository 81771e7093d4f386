import Reckoner.Proofs.Leniency

namespace Reckoner

def Token.relocate (move : Int → Int) (token : Token) : Token := { token with position := move token.position }

def Pending.relocate (move : Int → Int) : Pending → Pending
  | .group position => .group (move position)
  | entry => entry

def Conversion.relocate (move : Int → Int) (state : Conversion) : Conversion :=
  { state with pending := state.pending.map (Pending.relocate move) }

def ConversionError.relocate (move : Int → Int) : ConversionError → ConversionError
  | .refused complaint position => .refused complaint (move position)
  | .unknownSymbol symbol => .unknownSymbol symbol

/-- A result after all positions have moved, those of its value and that of its error. -/
def relocated {α : Type} (move : Int → Int) (place : α → α) (result : Except ConversionError α) :
    Except ConversionError α :=
  (result.map place).mapError (.relocate move)

variable {move : Int → Int} {strict : Bool}

theorem demand_bind_relocate {α : Type} {place : α → α} {holds : Bool} {complaint : Complaint} {position : Int}
    {rest moved : Except ConversionError α} (same : moved = relocated move place rest) :
    (demand strict holds complaint (move position) >>= fun _ => moved) =
      relocated move place (demand strict holds complaint position >>= fun _ => rest) := by
  unfold demand
  split
  · rfl
  · exact same

/-- Operators leave in the same order wherever the groups below them were opened. -/
theorem release_relocate (symbol : String) (output : Program) (pending : List Pending) :
    release symbol output (pending.map (Pending.relocate move)) =
      relocated move (fun result => (result.1, result.2.map (Pending.relocate move)))
        (release symbol output pending) := by
  induction pending generalizing output with
  | nil => rfl
  | cons entry pending ih =>
    cases entry with
    | operator earlier =>
      simp only [List.map_cons, Pending.relocate, release, lookUp]
      cases Operator.ofSymbol? symbol with
      | none => rfl
      | some current =>
        cases Operator.ofSymbol? earlier with
        | none => rfl
        | some waiting =>
          simp only [ok_bind]
          split
          · exact ih (.binary earlier :: output)
          · rfl
    | function | group => rfl

theorem closeGroup_relocate (output : Program) (pending : List Pending) :
    closeGroup output (pending.map (Pending.relocate move)) =
      ((closeGroup output pending).1, (closeGroup output pending).2.map (List.map (Pending.relocate move))) := by
  induction pending generalizing output with
  | nil => rfl
  | cons entry pending ih =>
    cases entry with
    | operator symbol => exact ih (.binary symbol :: output)
    | function name => exact ih (.unary name :: output)
    | group => rfl

theorem applyToGroup_relocate (output : Program) (pending : List Pending) :
    applyToGroup output (pending.map (Pending.relocate move)) =
      ((applyToGroup output pending).1, (applyToGroup output pending).2.map (Pending.relocate move)) := by
  match pending with
  | [] | .operator _ :: _ | .function _ :: _ | .group _ :: _ => rfl

namespace Conversion

theorem step_relocate (next : Option TokenKind) (state : Conversion) (token : Token) :
    (state.relocate move).step strict next (token.relocate move) =
      relocated move (Conversion.relocate move) (state.step strict next token) := by
  obtain ⟨kind, position⟩ := token
  cases kind with
  | number value => exact demand_bind_relocate rfl
  | identifier name =>
    simp only [step, Conversion.name, Token.relocate]
    split
    · exact demand_bind_relocate rfl
    · split
      · exact demand_bind_relocate (demand_bind_relocate rfl)
      · exact demand_bind_relocate rfl
  | operator symbol =>
    refine demand_bind_relocate ?_
    simp only [relocate, release_relocate]
    cases release symbol state.output state.pending <;> rfl
  | openParen => exact demand_bind_relocate rfl
  | closeParen =>
    refine demand_bind_relocate ?_
    simp only [relocate, closeGroup_relocate]
    cases closeGroup state.output state.pending with
    | mk output left =>
      cases left with
      | some pending =>
        simp only [Option.map_some, applyToGroup_relocate]
        rfl
      | none => exact demand_bind_relocate rfl
  | comma | period => exact demand_bind_relocate rfl

theorem steps_relocate (state : Conversion) (tokens : List Token) :
    (state.relocate move).steps strict (tokens.map (Token.relocate move)) =
      relocated move (Conversion.relocate move) (state.steps strict tokens) := by
  induction tokens generalizing state with
  | nil => rfl
  | cons token tokens ih =>
    have sameNext : (tokens.map (Token.relocate move)).head?.map Token.kind = tokens.head?.map Token.kind := by
      cases tokens <;> rfl
    rw [List.map_cons, steps, sameNext, step_relocate, steps]
    cases state.step strict (tokens.head?.map Token.kind) token with
    | ok after => exact ih after
    | error error => rfl

end Conversion

theorem finish_relocate (output : Program) (pending : List Pending) :
    finish strict output (pending.map (Pending.relocate move)) = relocated move id (finish strict output pending) := by
  induction pending generalizing output with
  | nil => rfl
  | cons entry pending ih =>
    cases entry with
    | operator symbol => exact ih (.binary symbol :: output)
    | function name => exact ih (.unary name :: output)
    | group position =>
      cases strict with
      | true => rfl
      | false => exact ih output

/-- Conversion hands positions on and does nothing else with them. -/
theorem convert_relocate (tokens : List Token) :
    convert strict (tokens.map (Token.relocate move)) = relocated move id (convert strict tokens) := by
  have run : Conversion.start.steps strict (tokens.map (Token.relocate move)) =
      relocated move (Conversion.relocate move) (Conversion.start.steps strict tokens) :=
    Conversion.steps_relocate .start tokens
  rw [convert, run, convert]
  cases Conversion.start.steps strict tokens with
  | error error => rfl
  | ok last =>
    rw [List.getLast?_map]
    cases tokens.getLast? with
    | none => exact finish_relocate last.output last.pending
    | some token => exact demand_bind_relocate (finish_relocate last.output last.pending)

section SameKinds

variable {tokens others : List Token}

theorem relocate_congr (same : tokens.map Token.kind = others.map Token.kind) :
    tokens.map (Token.relocate fun _ => 0) = others.map (Token.relocate fun _ => 0) := by
  have gathered : Token.relocate (fun _ => 0) = (fun kind => ⟨kind, 0⟩) ∘ Token.kind := rfl
  rw [gathered, ← List.map_map, same, List.map_map]

theorem mapError_message_relocated (result : Except ConversionError Program) :
    (relocated move id result).mapError ConversionError.message = result.mapError ConversionError.message := by
  cases result with
  | ok program => rfl
  | error error => cases error <;> rfl

/-- No message tells a position, so that programs and messages depend on the kinds of the tokens alone. -/
theorem convert_congr (same : tokens.map Token.kind = others.map Token.kind) :
    (convert strict tokens).mapError ConversionError.message =
      (convert strict others).mapError ConversionError.message := by
  rw [← @mapError_message_relocated (fun _ => 0), ← convert_relocate, relocate_congr same, convert_relocate,
    mapError_message_relocated]

theorem mapError_reason_evaluate [ElementaryFunctions] (source : String) :
    (evaluate strict (.text source)).mapError Failure.reason =
    (convert strict (scan source)).mapError ConversionError.message >>= fun program =>
      program.run.mapError RunError.message := by
  have stages : evaluate strict (.text source) = (convert strict (scan source)).mapError .conversion >>=
      fun program => program.run.mapError .running := evaluate_of_tokens rfl
  rw [stages]
  cases convert strict (scan source) with
  | error error => rfl
  | ok program =>
    change (program.run.mapError Failure.running).mapError Failure.reason = program.run.mapError RunError.message
    cases program.run <;> rfl

/-- Texts whose tokens are of the same kinds have the same value or the same reason for having none. -/
theorem evaluate_congr [ElementaryFunctions] {source other : String}
    (same : (scan source).map Token.kind = (scan other).map Token.kind) :
    (evaluate strict (.text source)).mapError Failure.reason =
      (evaluate strict (.text other)).mapError Failure.reason := by
  rw [mapError_reason_evaluate, mapError_reason_evaluate, convert_congr same]

end SameKinds

end Reckoner

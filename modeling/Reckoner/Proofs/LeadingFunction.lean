import Reckoner.Proofs.Leniency
import Reckoner.Proofs.LenientRun

namespace Reckoner

/-- No group is the first of all that waits. -/
def FreeBottom (pending : List Pending) : Prop := ∀ position, pending.getLast? ≠ some (.group position)

section Bottom

variable {output left : Program} {pending rest : List Pending}

theorem FreeBottom.of_suffix (free : FreeBottom pending) (inside : rest <:+ pending) : FreeBottom rest := by
  obtain ⟨above, rfl⟩ := inside
  intro position bottom
  have whole : (above ++ rest).getLast? = some (.group position) := by rw [List.getLast?_append, bottom, Option.some_or]
  exact free position whole

theorem FreeBottom.cons (free : FreeBottom pending) {entry : Pending}
    (group : ∀ position, entry = .group position → pending ≠ []) : FreeBottom (entry :: pending) := by
  intro position bottom
  cases pending with
  | nil => exact group position (Option.some.inj bottom) rfl
  | cons other pending => exact free position (by rwa [List.getLast?_cons_cons] at bottom)

/-- Below a group that is closed something else waits. -/
theorem FreeBottom.ne_nil (free : FreeBottom pending) (shut : closeGroup output pending = (left, some rest)) :
    rest ≠ [] := by
  obtain ⟨position, inside⟩ := suffix_of_closeGroup shut
  rintro rfl
  exact free.of_suffix inside position rfl

/-- What waits right before a group decides by itself whether it is applied. -/
theorem applyToGroup_append (nonempty : pending ≠ []) (output early : Program) (below : List Pending) :
    applyToGroup (output ++ early) (pending ++ below) =
      ((applyToGroup output pending).1 ++ early, (applyToGroup output pending).2 ++ below) := by
  match pending, nonempty with
  | .operator _ :: _, _ | .function _ :: _, _ | .group _ :: _, _ => rfl

end Bottom

section Runs

variable {next : Option TokenKind} {state after last : Conversion} {token : Token} {tokens : List Token}
  {below : List Pending}

/-- Wherever strict rules go on to ask for an operand, something waits for it. -/
theorem Moves.waits (move : Moves true next state token after) (expects : after.expectsOperand = true) :
    after.pending ≠ [] := by
  cases move with
  | function | operator | openParen => exact List.cons_ne_nil _ _
  | number | constant | closeParen => cases expects
  | unknown lenient | cut lenient | comma lenient | period lenient => cases lenient

theorem Moves.freeBottom (move : Moves true next state token after) (free : FreeBottom state.pending)
    (opens : token.kind = .openParen → state.expectsOperand = true → state.pending ≠ []) :
    FreeBottom after.pending := by
  cases move with
  | number | constant => exact free
  | function => exact free.cons nofun
  | operator _ released =>
    obtain ⟨ops, run, -, -⟩ := exists_released released
    exact (free.of_suffix ⟨waiting ops, run.symm⟩).cons nofun
  | openParen expects => exact free.cons fun _ _ => opens rfl (expects rfl)
  | closeParen _ shut => exact free.of_suffix (suffix_of_close shut)
  | unknown lenient | cut lenient | comma lenient | period lenient => cases lenient

/-- What strict rules allow goes the same way above a waiting function. A closing parenthesis has its group above the
function, and something else between the two. -/
theorem Moves.above (move : Moves true next state token after) (free : FreeBottom state.pending)
    (holds : HoldsBack below) (early : Program) :
    Moves false next (state.above early below) token (after.above early below) := by
  cases move with
  | number => exact .number nofun
  | constant isPi => exact .constant isPi nofun
  | function => exact .function nofun nofun
  | @operator symbol _ _ _ _ released =>
    have framed := release_above holds symbol state.output early state.pending
    rw [released] at framed
    exact .operator nofun framed
  | openParen => exact .openParen nofun
  | @closeParen position output rest _ shut =>
    have framed := closeGroup_above shut early below
    have applied := applyToGroup_append (free.ne_nil shut) output early below
    have closes : Moves false next (state.above early below) ⟨.closeParen, position⟩
        ⟨(applyToGroup (output ++ early) (rest ++ below)).1,
          (applyToGroup (output ++ early) (rest ++ below)).2, false⟩ := .closeParen nofun framed
    rw [applied] at closes
    exact closes
  | unknown lenient | cut lenient | comma lenient | period lenient => cases lenient

theorem Conversion.steps_above_strict (run : state.steps true tokens = .ok last) (free : FreeBottom state.pending)
    (opens : ∀ token ∈ tokens.head?, token.kind = .openParen → state.expectsOperand = true → state.pending ≠ [])
    (holds : HoldsBack below) (early : Program) :
    (state.above early below).steps false tokens = .ok (last.above early below) := by
  induction tokens generalizing state with
  | nil =>
    cases run
    rfl
  | cons token tokens ih =>
    obtain ⟨after, move, rest⟩ := Conversion.exists_move_of_steps run
    have bottom : FreeBottom after.pending := move.freeBottom free (opens token rfl)
    rw [(move.above free holds early).steps]
    exact ih rest bottom fun _ _ _ expects => move.waits expects

end Runs

section Whole

variable {tokens : List Token} {program : Program} {last : Conversion}

theorem lenient_steps {state : Conversion} (run : state.steps true tokens = .ok last) :
    state.steps false tokens = .ok last := by
  rcases steps_strict state tokens with ⟨_, _, refused⟩ | same
  · cases refused.symm.trans run
  · exact same.symm.trans run

/-- Below all that the tokens do, the function waits to the end. -/
theorem steps_leading_function (run : Conversion.start.steps true tokens = .ok last)
    (noGroup : ∀ token ∈ tokens.head?, token.kind ≠ .openParen) (f : UnaryFunction) (position : Int) :
    Conversion.start.steps false (⟨.identifier f.name, position⟩ :: tokens) =
      .ok (last.above [] [.function f.name]) := by
  have bottom : FreeBottom Conversion.start.pending := nofun
  have holds : HoldsBack [.function f.name] := trivial
  have waits (next : Option TokenKind) : Moves false next Conversion.start ⟨.identifier f.name, position⟩
      (Conversion.start.above [] [.function f.name]) := .function nofun nofun
  rw [(waits _).steps]
  exact Conversion.steps_above_strict run bottom (fun token first opens => absurd opens (noGroup token first)) holds []

/-- A function without parentheses of its own is applied to the whole of what stands behind it, when that has a meaning
by strict rules and does not begin with a group. -/
theorem convert_leading_function (accepted : convert true tokens = .ok program)
    (noGroup : ∀ token ∈ tokens.head?, token.kind ≠ .openParen) (f : UnaryFunction) (position : Int) :
    convert false tokens = .ok program ∧
    convert false (⟨.identifier f.name, position⟩ :: tokens) = .ok (program ++ [.unary f.name]) ∧
    ∀ tree : Expression, program = tree.postorder →
      convert false (⟨.identifier f.name, position⟩ :: tokens) = .ok (Expression.call f tree).postorder := by
  have alone : convert false tokens = .ok program := lenient_convert accepted
  obtain ⟨last, run, -⟩ := bind_eq_ok accepted
  have listed : last.line = program := by
    rw [convert_lenient, lenient_steps run] at alone
    exact Except.ok.inj alone
  have behind : (last.above [] [.function f.name]).line = program ++ [.unary f.name] := by
    rw [← listed]
    simp [Conversion.line, Conversion.above, line, Pending.instruction?]
  have whole : convert false (⟨.identifier f.name, position⟩ :: tokens) = .ok (program ++ [.unary f.name]) := by
    rw [convert_lenient, steps_leading_function run noGroup]
    exact congrArg Except.ok behind
  refine ⟨alone, whole, fun tree listedBy => ?_⟩
  rw [whole, listedBy]
  rfl

/-- `sqrt pi + sin(Pi) ^ (PI)`, where a function and a group of their own stand behind the first function. -/
theorem convert_leading_function_sum :
    convert true [⟨.identifier "pi", 5⟩, ⟨.operator "+", 8⟩, ⟨.identifier "sin", 10⟩, ⟨.openParen, 13⟩,
      ⟨.identifier "Pi", 14⟩, ⟨.closeParen, 16⟩, ⟨.operator "^", 18⟩, ⟨.openParen, 20⟩, ⟨.identifier "PI", 21⟩,
      ⟨.closeParen, 23⟩] =
      .ok [.operand .pi, .operand .pi, .unary "sin", .operand .pi, .binary "^", .binary "+"] ∧
    convert false (⟨.identifier UnaryFunction.sqrt.name, 0⟩ :: [⟨.identifier "pi", 5⟩, ⟨.operator "+", 8⟩,
      ⟨.identifier "sin", 10⟩, ⟨.openParen, 13⟩, ⟨.identifier "Pi", 14⟩, ⟨.closeParen, 16⟩, ⟨.operator "^", 18⟩,
      ⟨.openParen, 20⟩, ⟨.identifier "PI", 21⟩, ⟨.closeParen, 23⟩]) =
      .ok (Expression.call .sqrt (.binary .add (.operand .pi)
        (.binary .pow (.call .sin (.operand .pi)) (.operand .pi)))).postorder := by
  have accepted : convert true [⟨.identifier "pi", 5⟩, ⟨.operator "+", 8⟩, ⟨.identifier "sin", 10⟩, ⟨.openParen, 13⟩,
      ⟨.identifier "Pi", 14⟩, ⟨.closeParen, 16⟩, ⟨.operator "^", 18⟩, ⟨.openParen, 20⟩, ⟨.identifier "PI", 21⟩,
      ⟨.closeParen, 23⟩] =
      .ok [.operand .pi, .operand .pi, .unary "sin", .operand .pi, .binary "^", .binary "+"] := rfl
  obtain ⟨-, -, applied⟩ := convert_leading_function accepted (by simp) .sqrt 0
  exact ⟨accepted, applied _ rfl⟩

end Whole

end Reckoner

import Reckoner.Proofs.GroupCode

namespace Reckoner

/-- Every open parenthesis has its closing one among the tokens. There may be more of these than of those. -/
def EveryGroupCloses (tokens : List Token) : Prop :=
  ∀ i token, tokens[i]? = some token → token.kind = .openParen → ∃ j, Closes tokens i j

/-- The same read from the front: a token that opens no group, or a whole group. -/
inductive LeavesNoneOpen : List Token → Prop
  | nil : LeavesNoneOpen []
  | plain {token : Token} {rest : List Token} : token.kind ≠ .openParen → LeavesNoneOpen rest →
      LeavesNoneOpen (token :: rest)
  | group {inner rest : List Token} {first last : Int} : Balanced inner → LeavesNoneOpen rest →
      LeavesNoneOpen (⟨.openParen, first⟩ :: (inner ++ ⟨.closeParen, last⟩ :: rest))

section Groups

variable {before tokens : List Token}

/-- What closes a group that begins behind other tokens stands behind them too. -/
theorem Closes.of_append {i j : Nat} (closes : Closes (before ++ tokens) (before.length + i) j) :
    ∃ k, Closes tokens i k := by
  obtain ⟨outer, inner, after, first, last, split, length, -, balanced⟩ := closes
  rcases List.append_eq_append_iff.mp split with ⟨middle, rfl, rest⟩ | ⟨middle, rfl, rest⟩
  · have place : middle.length = i := by
      rw [List.length_append] at length
      omega
    exact ⟨_, middle, inner, after, first, last, rest, place, rfl, balanced⟩
  · rw [List.length_append] at length
    obtain rfl : middle = [] := List.eq_nil_of_length_eq_zero (by omega)
    obtain rfl : i = 0 := by omega
    exact ⟨_, [], inner, after, first, last, rest.symm, rfl, rfl, balanced⟩

theorem EveryGroupCloses.of_append (closes : EveryGroupCloses (before ++ tokens)) : EveryGroupCloses tokens := by
  intro i token there opens
  have behind : (before ++ tokens)[before.length + i]? = some token := by
    rw [List.getElem?_append_right (Nat.le_add_right _ _), Nat.add_sub_cancel_left]
    exact there
  obtain ⟨j, closed⟩ := closes _ token behind opens
  exact closed.of_append

theorem EveryGroupCloses.leavesNoneOpen (closes : EveryGroupCloses tokens) : LeavesNoneOpen tokens := by
  -- A group is taken off as a whole, so the rest is shorter by more than its first token.
  induction length : tokens.length using Nat.strongRecOn generalizing tokens with
  | ind n ih =>
    subst length
    cases tokens with
    | nil => exact .nil
    | cons token rest =>
      by_cases opens : token.kind = .openParen
      · obtain ⟨_, outer, inner, after, first, last, split, atFront, -, balanced⟩ := closes 0 token rfl opens
        obtain rfl : outer = [] := List.eq_nil_of_length_eq_zero atFront
        obtain ⟨rfl, rfl⟩ := List.cons.inj split
        have whole : EveryGroupCloses ((⟨.openParen, first⟩ :: (inner ++ [⟨.closeParen, last⟩])) ++ after) := by
          simpa using closes
        refine .group balanced (ih after.length ?_ whole.of_append rfl)
        simp only [List.length_cons, List.length_append]
        omega
      · have further : EveryGroupCloses ([token] ++ rest) := closes
        exact .plain opens (ih rest.length (Nat.lt_succ_self _) further.of_append rfl)

end Groups

section Cut

variable {next : Option TokenKind} {state after last : Conversion} {token : Token} {tokens : List Token}

/-- Without an open group a closing parenthesis finds nothing to close, and everything else but an open one leaves it
at that. -/
theorem openGroups_of_move {strict : Bool} (move : Moves strict next state token after)
    (notOpen : token.kind ≠ .openParen) (none_open : openGroups state.pending = 0) : openGroups after.pending = 0 := by
  by_cases closes : token.kind = .closeParen
  · cases move with
    | closeParen _ shut =>
      have some_open := openGroups_closeGroup shut
      rw [none_open] at some_open
      cases some_open
    | cut => rfl
    | number | constant | function | unknown | operator | openParen | comma | period => cases closes
  · have count := move.openGroups fun closesHere => absurd closesHere closes
    have level : height [token] = 0 := by simp [height, notOpen, closes]
    omega

theorem LeavesNoneOpen.openGroups_steps (leaves : LeavesNoneOpen tokens) (none_open : openGroups state.pending = 0)
    (run : state.steps false tokens = .ok last) : openGroups last.pending = 0 := by
  induction leaves generalizing state with
  | nil =>
    cases run
    exact none_open
  | plain notOpen _ ih =>
    obtain ⟨after, move, rest⟩ := Conversion.exists_move_of_steps run
    exact ih (openGroups_of_move move notOpen none_open) rest
  | group balanced _ ih =>
    rw [Conversion.steps_group balanced] at run
    obtain ⟨code, -, rest⟩ := bind_eq_ok run
    have behind : openGroups (state.afterGroup code).pending = 0 := by
      rw [Conversion.afterGroup, openGroups_applyToGroup]
      exact none_open
    exact ih behind rest

/-- A state with another word on whether an operand is due. -/
def Conversion.expecting (state : Conversion) (expects : Bool) : Conversion := { state with expectsOperand := expects }

/-- Lenient rules do not ask whether an operand is due. -/
theorem Moves.expecting (move : Moves false next state token after) (expects : Bool) :
    ∃ later, Moves false next (state.expecting expects) token (after.expecting later) := by
  cases move with
  | number => exact ⟨false, .number nofun⟩
  | constant isPi => exact ⟨false, .constant isPi nofun⟩
  | function => exact ⟨expects, .function nofun nofun⟩
  | unknown lenient noPi noFunction => exact ⟨expects, .unknown lenient noPi noFunction⟩
  | operator _ released => exact ⟨true, .operator nofun released⟩
  | openParen => exact ⟨true, .openParen nofun⟩
  | closeParen _ shut => exact ⟨false, .closeParen nofun shut⟩
  | cut lenient shut => exact ⟨false, .cut lenient shut⟩
  | comma lenient => exact ⟨expects, .comma lenient⟩
  | period lenient => exact ⟨expects, .period lenient⟩

theorem Conversion.steps_expecting (run : state.steps false tokens = .ok last) (expects : Bool) :
    ∃ later, (state.expecting expects).steps false tokens = .ok (last.expecting later) := by
  induction tokens generalizing state expects with
  | nil =>
    cases run
    exact ⟨expects, rfl⟩
  | cons token tokens ih =>
    obtain ⟨after, move, rest⟩ := Conversion.exists_move_of_steps run
    obtain ⟨between, moves⟩ := move.expecting expects
    rw [moves.steps]
    exact ih rest between

/-- Where nothing waits, tokens put the same behind the output as they put out from the start. -/
theorem Conversion.steps_behind (run : start.steps false tokens = .ok last) (output : Program) (expects : Bool) :
    ∃ later : Conversion, Conversion.steps false ⟨output, [], expects⟩ tokens = .ok later ∧
      later.line = output.reverse ++ last.line := by
  have barrier : Barrier [] := trivial
  have framed : (start.above output []).steps false tokens = .ok (last.above output []) := by
    rw [steps_above barrier (Or.inr rfl), run]
    rfl
  obtain ⟨expectsLater, resumed⟩ := steps_expecting framed expects
  exact ⟨_, resumed, last.line_above output⟩

end Cut

variable {before after : List Token}

/-- A closing parenthesis that no open one waits for cuts tokens in two: what stands before it and what stands behind it
are converted one by one, and nothing of the first part gets into the second. -/
theorem convert_unmatched_close (known : ∀ token ∈ before ++ after, token.HasKnownSymbol)
    (closes : EveryGroupCloses before) (position : Int) :
    ∃ early late, convert false before = .ok early ∧ convert false after = .ok late ∧
      convert false (before ++ ⟨.closeParen, position⟩ :: after) = .ok (early ++ late) := by
  obtain ⟨knownBefore, knownAfter⟩ := List.forall_mem_append.mp known
  obtain ⟨first, run⟩ : ∃ state, Conversion.start.steps false before = .ok state :=
    exists_lenient_steps knownBefore .at_start
  obtain ⟨second, runAfter⟩ : ∃ state, Conversion.start.steps false after = .ok state :=
    exists_lenient_steps knownAfter .at_start
  refine ⟨first.line, second.line, by rw [convert_lenient, run]; rfl, by rw [convert_lenient, runAfter]; rfl, ?_⟩
  have none_open : openGroups first.pending = 0 := closes.leavesNoneOpen.openGroups_steps rfl run
  -- All that waits leaves at the cut, in the order in which it would leave in the end.
  have cut (next : Option TokenKind) : Moves false next first ⟨.closeParen, position⟩ ⟨first.line.reverse, [], false⟩ :=
    .cut rfl (closeGroup_of_openGroups none_open first.output)
  obtain ⟨last, rest, behind⟩ := Conversion.steps_behind runAfter first.line.reverse false
  rw [List.reverse_reverse] at behind
  rw [convert_lenient, Conversion.steps_append, run, ok_bind, (cut _).steps, rest]
  exact congrArg Except.ok behind

/-- `)(pi)-sqrt)^(sin pi`, where a function and an operator wait before the cut and a group stays open behind it. -/
theorem convert_unmatched_close_waiting :
    (∀ token ∈ ([⟨.closeParen, 0⟩, ⟨.openParen, 1⟩, ⟨.identifier "pi", 2⟩, ⟨.closeParen, 4⟩, ⟨.operator "-", 5⟩,
      ⟨.identifier "sqrt", 6⟩] ++ [⟨.operator "^", 11⟩, ⟨.openParen, 12⟩, ⟨.identifier "sin", 13⟩,
      ⟨.identifier "pi", 17⟩] : List Token), token.HasKnownSymbol) ∧
    EveryGroupCloses [⟨.closeParen, 0⟩, ⟨.openParen, 1⟩, ⟨.identifier "pi", 2⟩, ⟨.closeParen, 4⟩, ⟨.operator "-", 5⟩,
      ⟨.identifier "sqrt", 6⟩] ∧
    convert false ([⟨.closeParen, 0⟩, ⟨.openParen, 1⟩, ⟨.identifier "pi", 2⟩, ⟨.closeParen, 4⟩, ⟨.operator "-", 5⟩,
      ⟨.identifier "sqrt", 6⟩] ++ ⟨.closeParen, 10⟩ :: [⟨.operator "^", 11⟩, ⟨.openParen, 12⟩, ⟨.identifier "sin", 13⟩,
      ⟨.identifier "pi", 17⟩]) =
      .ok ([.operand .pi, .unary "sqrt", .binary "-"] ++ [.operand .pi, .unary "sin", .binary "^"]) := by
  have known : ∀ token ∈ ([⟨.closeParen, 0⟩, ⟨.openParen, 1⟩, ⟨.identifier "pi", 2⟩, ⟨.closeParen, 4⟩,
      ⟨.operator "-", 5⟩, ⟨.identifier "sqrt", 6⟩] ++ [⟨.operator "^", 11⟩, ⟨.openParen, 12⟩, ⟨.identifier "sin", 13⟩,
      ⟨.identifier "pi", 17⟩] : List Token), token.HasKnownSymbol := by decide
  have closes : EveryGroupCloses [⟨.closeParen, 0⟩, ⟨.openParen, 1⟩, ⟨.identifier "pi", 2⟩, ⟨.closeParen, 4⟩,
      ⟨.operator "-", 5⟩, ⟨.identifier "sqrt", 6⟩] := by
    have inner : Balanced [⟨.identifier "pi", 2⟩] := .plain (by simp) (by simp) .nil
    have behind : Balanced [⟨.operator "-", 5⟩, ⟨.identifier "sqrt", 6⟩] :=
      .plain (by simp) (by simp) (.plain (by simp) (by simp) .nil)
    have group : Balanced [⟨.openParen, 1⟩, ⟨.identifier "pi", 2⟩, ⟨.closeParen, 4⟩, ⟨.operator "-", 5⟩,
        ⟨.identifier "sqrt", 6⟩] := .group inner behind
    intro i token there opens
    cases i with
    | zero =>
      cases there
      cases opens
    | succ i =>
      have place : [(⟨.closeParen, 0⟩ : Token)].length + i = i + 1 := Nat.add_comm 1 i
      exact exists_closes_behind (group.closes there opens) place
  obtain ⟨early, late, first, second, whole⟩ := convert_unmatched_close known closes 10
  cases first
  cases second
  exact ⟨known, closes, whole⟩

end Reckoner

import Reckoner.Proofs.Brackets
import Reckoner.Proofs.Insertion

namespace Reckoner

namespace Conversion

/-- Lenient rules do not look at what comes next. -/
theorem step_lenient (next other : Option TokenKind) (state : Conversion) (token : Token) :
    state.step false next token = state.step false other token := by
  obtain ⟨kind, position⟩ := token
  cases kind <;> rfl

theorem steps_append (state : Conversion) (tokens more : List Token) :
    state.steps false (tokens ++ more) = state.steps false tokens >>= fun after => after.steps false more := by
  induction tokens generalizing state with
  | nil => rfl
  | cons token tokens ih =>
    rw [List.cons_append, steps, steps, step_lenient _ none, step_lenient (tokens.head?.map Token.kind) none]
    cases state.step false none token with
    | ok after => exact ih after
    | error error => rfl

/-- A state on top of others: what they have put out comes first, and what waits there waits below. -/
def above (state : Conversion) (early : Program) (below : List Pending) : Conversion :=
  ⟨state.output ++ early, state.pending ++ below, state.expectsOperand⟩

end Conversion

def openGroups (pending : List Pending) : Nat := pending.countP fun
  | .group _ => true
  | _ => false

/-- What no operator and no closing parenthesis gets past without an open group above it: an open group, or nothing
at all. -/
def Barrier : List Pending → Prop
  | [] | .group _ :: _ => True
  | _ => False

/-- What no operator takes anything out of. A function keeps what waits below it from operators, but not from a closing
parenthesis. -/
def HoldsBack : List Pending → Prop
  | .operator _ :: _ => False
  | _ => True

theorem Barrier.holdsBack {below : List Pending} (barrier : Barrier below) : HoldsBack below := by
  match below, barrier with
  | [], _ | .group _ :: _, _ => trivial

section OpenGroups

variable {symbol : String} {output left early : Program} {pending rest below : List Pending}

@[simp]
theorem openGroups_nil : openGroups [] = 0 := rfl

@[simp]
theorem openGroups_group (position : Int) (pending : List Pending) :
    openGroups (.group position :: pending) = openGroups pending + 1 := List.countP_cons_of_pos rfl

@[simp]
theorem openGroups_operator (symbol : String) (pending : List Pending) :
    openGroups (.operator symbol :: pending) = openGroups pending := List.countP_cons_of_neg Bool.false_ne_true

@[simp]
theorem openGroups_function (name : String) (pending : List Pending) :
    openGroups (.function name :: pending) = openGroups pending := List.countP_cons_of_neg Bool.false_ne_true

theorem openGroups_waiting (ops : List Operator) (rest : List Pending) :
    openGroups (waiting ops ++ rest) = openGroups rest := by
  induction ops with
  | nil => rfl
  | cons op ops ih => rw [waiting_cons, List.cons_append, openGroups_operator, ih]

theorem openGroups_release (released : release symbol output pending = .ok (left, rest)) :
    openGroups rest = openGroups pending := by
  obtain ⟨ops, run, -, -⟩ := exists_released released
  rw [run, openGroups_waiting]

theorem openGroups_applyToGroup (output : Program) (pending : List Pending) :
    openGroups (applyToGroup output pending).2 = openGroups pending := by
  match pending with
  | [] | .operator _ :: _ | .function _ :: _ | .group _ :: _ => simp [applyToGroup]

/-- Closing takes one open group away, or finds none. -/
theorem openGroups_closeGroup {closed : Option (List Pending)} (shut : closeGroup output pending = (left, closed)) :
    openGroups pending = (closed.map fun rest => openGroups rest + 1).getD 0 := by
  induction pending generalizing output with
  | nil =>
    cases shut
    rfl
  | cons entry pending ih =>
    cases entry with
    | operator symbol => rw [openGroups_operator, ih shut]
    | function name => rw [openGroups_function, ih shut]
    | group position =>
      cases shut
      exact openGroups_group position pending

/-- Without an open group all that waits leaves, as it does in the end. -/
theorem closeGroup_of_openGroups (none_open : openGroups pending = 0) (output : Program) :
    closeGroup output pending = ((line output pending).reverse, none) := by
  cases shut : closeGroup output pending with
  | mk left closed =>
    have groups := openGroups_closeGroup shut
    cases closed with
    | some rest =>
      rw [none_open] at groups
      cases groups
    | none =>
      have same : line left [] = line output pending := line_closeGroup shut
      rw [← same, line, List.filterMap_nil, List.append_nil, List.reverse_reverse]

theorem release_above (holds : HoldsBack below) (symbol : String) (output early : Program) (pending : List Pending) :
    release symbol (output ++ early) (pending ++ below) =
      (release symbol output pending).map fun result => (result.1 ++ early, result.2 ++ below) := by
  induction pending generalizing output with
  | nil =>
    match below, holds with
    | [], _ | .group _ :: _, _ | .function _ :: _, _ => rfl
  | cons entry pending ih =>
    cases entry with
    | operator earlier =>
      simp only [List.cons_append, release, lookUp]
      cases Operator.ofSymbol? symbol with
      | none => rfl
      | some current =>
        cases Operator.ofSymbol? earlier with
        | none => rfl
        | some waiting =>
          simp only [ok_bind]
          split
          · exact ih (.binary earlier :: output)
          · rfl
    | function | group => rfl

theorem closeGroup_above (shut : closeGroup output pending = (left, some rest)) (early : Program)
    (below : List Pending) :
    closeGroup (output ++ early) (pending ++ below) = (left ++ early, some (rest ++ below)) := by
  induction pending generalizing output with
  | nil => cases shut
  | cons entry pending ih =>
    cases entry with
    | operator symbol => exact ih shut
    | function name => exact ih shut
    | group position =>
      cases shut
      rfl

theorem closeGroup_above_none (shut : closeGroup output pending = (left, none)) (early : Program)
    (below : List Pending) : closeGroup (output ++ early) (pending ++ below) = closeGroup (left ++ early) below := by
  induction pending generalizing output with
  | nil =>
    cases shut
    rfl
  | cons entry pending ih =>
    cases entry with
    | operator symbol => exact ih shut
    | function name => exact ih shut
    | group position => cases shut

theorem applyToGroup_above (barrier : Barrier below) (output early : Program) (pending : List Pending) :
    applyToGroup (output ++ early) (pending ++ below) =
      ((applyToGroup output pending).1 ++ early, (applyToGroup output pending).2 ++ below) := by
  match pending with
  | .operator _ :: _ | .function _ :: _ | .group _ :: _ => rfl
  | [] =>
    match below, barrier with
    | [], _ | .group _ :: _, _ => rfl

end OpenGroups

section Runs

variable {next : Option TokenKind} {state after last : Conversion} {token : Token} {tokens : List Token}
  {early : Program} {below : List Pending} {groups : Nat}

/-- Tokens that close no more groups than they open, besides so many that are open before them. -/
def ClosesWithin (groups : Nat) (tokens : List Token) : Prop :=
  ∀ before after, tokens = before ++ after → 0 ≤ groups + height before

theorem Balanced.closesWithin (balanced : Balanced tokens) (groups : Nat) : ClosesWithin groups tokens := by
  rintro before after rfl
  have nonneg := balanced.height_nonneg
  omega

theorem height_cons (token : Token) (tokens : List Token) :
    height (token :: tokens) = height [token] + height tokens := height_append [token] tokens

theorem height_of_closes (closes : token.kind = .closeParen) : height [token] = -1 := by simp [height, closes]

theorem ClosesWithin.ne_zero (within : ClosesWithin groups (token :: tokens)) (closes : token.kind = .closeParen) :
    groups ≠ 0 := by
  have nonneg := within [token] tokens rfl
  rw [height_of_closes closes] at nonneg
  omega

theorem ClosesWithin.tail (within : ClosesWithin groups (token :: tokens)) {further : Nat}
    (count : (further : Int) = groups + height [token]) : ClosesWithin further tokens := by
  rintro before after rfl
  have nonneg := within (token :: before) after rfl
  rw [height_cons] at nonneg
  omega

/-- A token opens a group, closes one, or leaves the open groups alone. -/
theorem Moves.openGroups {strict : Bool} (move : Moves strict next state token after)
    (closes : token.kind = .closeParen → openGroups state.pending ≠ 0) :
    (openGroups after.pending : Int) = openGroups state.pending + height [token] := by
  cases move with
  | number | constant | unknown | comma | period => simp [height, Conversion.operand]
  | function => simp [height]
  | operator _ released => simp [height, openGroups_release released]
  | openParen => simp [height]
  | @closeParen position _ _ _ shut =>
    have lower : height [⟨.closeParen, position⟩] = -1 := height_of_closes rfl
    have count := openGroups_closeGroup shut
    simp only [Option.map_some, Option.getD_some] at count
    rw [lower, count, openGroups_applyToGroup]
    omega
  | cut _ shut => exact absurd (openGroups_closeGroup shut) (closes rfl)

theorem Conversion.openGroups_steps {strict : Bool} (run : state.steps strict tokens = .ok last)
    (within : ClosesWithin (openGroups state.pending) tokens) :
    (openGroups last.pending : Int) = openGroups state.pending + height tokens := by
  induction tokens generalizing state with
  | nil =>
    cases run
    simp [height]
  | cons token tokens ih =>
    obtain ⟨after, move, rest⟩ := Conversion.exists_move_of_steps run
    have count := move.openGroups within.ne_zero
    have further := ih rest (within.tail count)
    have split := height_cons token tokens
    omega

/-- What stands below a barrier has no part in what a token does, unless the token closes a group and none is open
above the barrier. -/
theorem Conversion.step_above (barrier : Barrier below)
    (closes : token.kind = .closeParen → openGroups state.pending ≠ 0 ∨ below = []) (early : Program) :
    (state.above early below).step false next token = (state.step false next token).map (·.above early below) := by
  obtain ⟨kind, position⟩ := token
  cases kind with
  | number | openParen | comma | period => rfl
  | identifier name =>
    simp only [step, Conversion.name]
    split
    · rfl
    · split <;> rfl
  | operator symbol =>
    simp only [step, operator, demand_lenient, ok_bind, above, release_above barrier.holdsBack]
    cases release symbol state.output state.pending <;> rfl
  | closeParen =>
    simp only [step, close, demand_lenient, ok_bind, above]
    cases shut : closeGroup state.output state.pending with
    | mk left closed =>
      cases closed with
      | some rest =>
        simp only [closeGroup_above shut, applyToGroup_above barrier]
        rfl
      | none =>
        have bottom : below = [] := (closes rfl).resolve_left fun some_open => some_open (openGroups_closeGroup shut)
        subst bottom
        simp only [closeGroup_above_none shut]
        rfl

theorem Conversion.steps_above (barrier : Barrier below)
    (within : ClosesWithin (openGroups state.pending) tokens ∨ below = []) (early : Program) :
    (state.above early below).steps false tokens = (state.steps false tokens).map (·.above early below) := by
  induction tokens generalizing state with
  | nil => rfl
  | cons token tokens ih =>
    rw [steps, step_above barrier (fun closes => within.imp_left fun inside => inside.ne_zero closes), steps]
    cases taken : state.step false (tokens.head?.map Token.kind) token with
    | error error => rfl
    | ok after =>
      refine ih (within.imp_left fun inside => inside.tail ?_)
      exact (moves_of_step taken).openGroups inside.ne_zero

end Runs

end Reckoner

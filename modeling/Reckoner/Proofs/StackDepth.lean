import Reckoner.Elementary.Rounded
import Reckoner.Proofs.Forest
import Reckoner.Proofs.Insertion
import Reckoner.Proofs.StrictReach

namespace Reckoner

def Pending.isOperator : Pending → Bool
  | operator _ => true
  | function _ | group _ => false

section Reach

variable {strict : Bool} {tokens before after : List Token} {state last : Conversion}

/-- Between two tokens strict rules are on their way, and after a function an open parenthesis is next. -/
theorem Conversion.Reach.strictReach (reach : Reach true tokens before after state)
    (known : ∀ token ∈ tokens, token.HasKnownSymbol) :
    StrictReach before state ∧ Follows state (after.head?.map Token.kind) := by
  have free : Held .atom [] := trivial
  induction reach with
  | start => exact ⟨.start, free.follows [] true _⟩
  | @next before after token state further earlier taken ih =>
    obtain ⟨reached, follows⟩ := ih
    exact reached.move (known token earlier.next_mem) follows (moves_of_step taken)

end Reach

namespace Unfinished

variable {tokens : List Token} {pending : List Pending} {forest : List Expression} {name : String} {i : Nat}

/-- Every operator that waits has its left operand in the program, and nothing else is there. -/
theorem length_forest (unfinished : Unfinished tokens pending forest) :
    forest.length = pending.countP Pending.isOperator := by
  induction unfinished with
  | start => rfl
  | operator _ _ _ ih => rw [List.length_cons, ih, List.countP_cons_of_pos rfl]
  | group _ ih => rw [ih, List.countP_cons_of_neg Bool.false_ne_true]
  | call _ ih =>
    rw [ih, List.countP_cons_of_neg Bool.false_ne_true, List.countP_cons_of_neg Bool.false_ne_true]

theorem head_ne_function (unfinished : Unfinished tokens pending forest) : pending[0]? ≠ some (.function name) := by
  have held := unfinished.held
  intro top
  cases pending with
  | nil => cases top
  | cons entry below =>
    cases Option.some.inj top
    exact held

theorem group_above (unfinished : Unfinished tokens pending forest) (waits : pending[i + 1]? = some (.function name)) :
    ∃ position, pending[i]? = some (.group position) := by
  induction unfinished generalizing i with
  | start => cases waits
  | operator inner _ _ ih | group inner ih =>
    cases i with
    | zero => exact absurd waits inner.head_ne_function
    | succ i => exact ih waits
  | @call tokens pending forest f position first inner ih =>
    match i with
    | 0 => exact ⟨first, rfl⟩
    | 1 => exact absurd waits inner.head_ne_function
    | i + 2 => exact ih waits

end Unfinished

theorem reverse_written (forest : List Expression) : (written forest).reverse = listing forest.reverse := by
  induction forest with
  | nil => rfl
  | cons tree forest ih => simp [ih]

/-- A program under way leaves the values of the expressions in it on the stack. -/
theorem runOn_written [ElementaryFunctions] (forest : List Expression) :
    runOn [] (written forest).reverse = .ok (forest.map Expression.value) := by
  rw [reverse_written, runOn_listing, List.map_reverse, List.reverse_reverse]

section Depth

variable {tokens before after : List Token} {state : Conversion}

/-- What strict rules have put out never asks the stack for more than is there, and leaves a value for each operator
that waits, and one more when no operand is due. -/
theorem StrictReach.depth [ElementaryFunctions] (reach : StrictReach before state) :
    ∃ stack, runOn [] state.output.reverse = .ok stack ∧
      stack.length = state.pending.countP Pending.isOperator + if state.expectsOperand then 0 else 1 := by
  cases reach with
  | @expecting _ pending forest unfinished =>
    refine ⟨_, runOn_written forest, ?_⟩
    rw [List.length_map, unfinished.length_forest]
    rfl
  | @applying _ pending forest f _ unfinished =>
    refine ⟨_, runOn_written forest, ?_⟩
    rw [List.length_map, unfinished.length_forest, List.countP_cons_of_neg Bool.false_ne_true]
    rfl
  | @filled _ _ pending forest tree unfinished _ =>
    refine ⟨_, runOn_written (tree :: forest), ?_⟩
    rw [List.length_map, List.length_cons, unfinished.length_forest]
    rfl

/-- A function on top of all that waits is the token just taken in. -/
theorem StrictReach.function_on_top {name : String} (reach : StrictReach before state)
    (top : state.pending[0]? = some (.function name)) : ∃ position, before.getLast? = some ⟨.identifier name, position⟩ := by
  cases reach with
  | expecting unfinished | filled unfinished => exact absurd top unfinished.head_ne_function
  | @applying _ _ _ f position unfinished =>
    cases Option.some.inj top
    exact ⟨position, by simp⟩

theorem StrictReach.group_above {name : String} {i : Nat} (reach : StrictReach before state)
    (waits : state.pending[i + 1]? = some (.function name)) : ∃ position, state.pending[i]? = some (.group position) := by
  cases reach with
  | expecting unfinished | filled unfinished => exact unfinished.group_above waits
  | applying unfinished =>
    cases i with
    | zero => exact absurd waits unfinished.head_ne_function
    | succ i => exact unfinished.group_above waits

/-- Between any two tokens of a strict conversion, and behind the last one, the program so far runs on an empty stack
and leaves as many values as there are operators waiting, and one more unless an operand is due. A function that waits
has an open group right above it, or it is the token just taken in. -/
theorem strict_stack_depth [ElementaryFunctions] (known : ∀ token ∈ tokens, token.HasKnownSymbol)
    (reach : Conversion.Reach true tokens before after state) :
    (∃ stack, runOn [] state.output.reverse = .ok stack ∧
      stack.length = state.pending.countP Pending.isOperator + if state.expectsOperand then 0 else 1) ∧
    (∀ name, state.pending[0]? = some (.function name) →
      ∃ position, before.getLast? = some ⟨.identifier name, position⟩) ∧
    ∀ i name, state.pending[i + 1]? = some (.function name) → ∃ position, state.pending[i]? = some (.group position) := by
  obtain ⟨reached, -⟩ := reach.strictReach known
  refine ⟨reached.depth, fun name top => ?_, fun i name waits => ?_⟩
  · exact reached.function_on_top top
  · exact reached.group_above waits

/-- In `pi - sin(pi ^ pi)` before the closing parenthesis. -/
theorem strict_stack_depth_call :
    ∃ state, Conversion.Reach true
        [⟨.identifier "pi", 0⟩, ⟨.operator "-", 3⟩, ⟨.identifier "sin", 5⟩, ⟨.openParen, 8⟩, ⟨.identifier "pi", 9⟩,
          ⟨.operator "^", 12⟩, ⟨.identifier "pi", 14⟩, ⟨.closeParen, 16⟩]
        [⟨.identifier "pi", 0⟩, ⟨.operator "-", 3⟩, ⟨.identifier "sin", 5⟩, ⟨.openParen, 8⟩, ⟨.identifier "pi", 9⟩,
          ⟨.operator "^", 12⟩, ⟨.identifier "pi", 14⟩]
        [⟨.closeParen, 16⟩] state ∧
      state.pending = [.operator "^", .group 8, .function "sin", .operator "-"] ∧
      (∃ stack, runOn [] state.output.reverse = .ok stack ∧ stack.length = 3) ∧
      ∃ position, state.pending[1]? = some (.group position) := by
  have reach : Conversion.Reach true
      [⟨.identifier "pi", 0⟩, ⟨.operator "-", 3⟩, ⟨.identifier "sin", 5⟩, ⟨.openParen, 8⟩, ⟨.identifier "pi", 9⟩,
        ⟨.operator "^", 12⟩, ⟨.identifier "pi", 14⟩, ⟨.closeParen, 16⟩] _ [⟨.closeParen, 16⟩] _ :=
    .next (.next (.next (.next (.next (.next (.next .start rfl) rfl) rfl) rfl) rfl) rfl) rfl
  have depth := strict_stack_depth (by decide) reach
  exact ⟨_, reach, rfl, depth.1, depth.2.2 1 "sin" rfl⟩

end Depth

end Reckoner

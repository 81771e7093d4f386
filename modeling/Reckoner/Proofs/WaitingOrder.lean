import Mathlib.Data.List.Chain
import Reckoner.Proofs.StackDepth

namespace Reckoner

/-- Operators that are in the table, functions that have a meaning, and open groups. -/
def Pending.IsKnown (entry : Pending) : Prop :=
  (∃ op : Operator, entry = .operator op.symbol) ∨ (∃ f : UnaryFunction, entry = .function f.name) ∨
    ∃ position, entry = .group position

/-- Which operator may wait right above which: the one that binds tighter, and a power above a power. -/
def Operator.RisesFrom (upper lower : Operator) : Prop :=
  lower.precedence < upper.precedence ∨ upper = .pow ∧ lower = .pow

instance (upper lower : Operator) : Decidable (upper.RisesFrom lower) := inferInstanceAs (Decidable (_ ∨ _))

/-- An operator stays on top of the earlier ones that it does not let go. -/
theorem Operator.not_yieldsTo_iff_risesFrom (current earlier : Operator) :
    current.yieldsTo earlier = false ↔ current.RisesFrom earlier := by
  cases current <;> cases earlier <;> decide

/-- Functions and groups may wait above and below anything. -/
def Pending.RisesFrom (upper lower : Pending) : Prop :=
  ∀ high low : Operator, upper = .operator high.symbol → lower = .operator low.symbol → high.RisesFrom low

/-- What waits, with the latest first, has a meaning, and of two operators one right above the other the upper one comes
first in the program. -/
structure Rising (pending : List Pending) : Prop where
  known : ∀ entry ∈ pending, entry.IsKnown
  rises : pending.IsChain Pending.RisesFrom

namespace Rising

variable {pending rest : List Pending} {entry : Pending}

theorem nil : Rising [] := ⟨nofun, .nil⟩

theorem of_suffix (rising : Rising pending) (inside : rest <:+ pending) : Rising rest :=
  ⟨fun entry member => rising.known entry (inside.mem member), rising.rises.suffix inside⟩

theorem cons (rising : Rising pending) (known : entry.IsKnown)
    (above : ∀ lower ∈ pending.head?, entry.RisesFrom lower) : Rising (entry :: pending) :=
  ⟨List.forall_mem_cons.mpr ⟨known, rising.known⟩, rising.rises.cons above⟩

theorem function (rising : Rising pending) (f : UnaryFunction) : Rising (.function f.name :: pending) :=
  rising.cons (Or.inr (Or.inl ⟨f, rfl⟩)) fun _ _ => nofun

theorem group (rising : Rising pending) (position : Int) : Rising (.group position :: pending) :=
  rising.cons (Or.inr (Or.inr ⟨position, rfl⟩)) fun _ _ => nofun

/-- An operator waits above what is left once the operators that come before it are gone. -/
theorem operator {op : Operator} {output left : Program} (rising : Rising pending)
    (released : release op.symbol output pending = .ok (left, rest)) : Rising (.operator op.symbol :: rest) := by
  obtain ⟨ops, run, -, stops⟩ := exists_released released
  have remains : Rising rest := rising.of_suffix ⟨waiting ops, run.symm⟩
  refine remains.cons (Or.inl ⟨op, rfl⟩) ?_
  intro lower top high low same below
  obtain rfl := Operator.symbol_injective (Pending.operator.inj same)
  subst below
  obtain ⟨bottom, split⟩ := List.head?_eq_some_iff.mp top
  exact (op.not_yieldsTo_iff_risesFrom low).mp (stops op low bottom rfl split)

end Rising

section Runs

variable {strict : Bool} {next : Option TokenKind} {tokens before after : List Token} {token : Token}
  {state further : Conversion}

/-- A token puts one entry on top of what is left waiting, or it does no more than take entries off the top. -/
theorem Moves.rising (move : Moves strict next state token further) (known : token.HasKnownSymbol)
    (rising : Rising state.pending) : Rising further.pending := by
  cases move with
  | number | constant | unknown | comma | period => exact rising
  | @function f => exact rising.function f
  | @operator symbol _ _ _ _ released =>
    obtain ⟨op, rfl⟩ := known symbol rfl
    exact rising.operator released
  | @openParen position => exact rising.group position
  | closeParen _ shut => exact rising.of_suffix (suffix_of_close shut)
  | cut => exact .nil

theorem Conversion.Reach.rising (reach : Reach strict tokens before after state)
    (known : ∀ token ∈ tokens, token.HasKnownSymbol) : Rising state.pending := by
  induction reach with
  | start => exact .nil
  | next earlier taken ih => exact (moves_of_step taken).rising (known _ earlier.next_mem) ih

/-- Between any two tokens, whatever they are and by either rules, only operators, functions and open groups wait, and of
two operators one right above the other the upper one binds tighter, or both are powers. -/
theorem waiting_order (known : ∀ token ∈ tokens, token.HasKnownSymbol)
    (reach : Conversion.Reach strict tokens before after state) :
    (∀ entry ∈ state.pending, (∃ op : Operator, entry = .operator op.symbol) ∨
      (∃ f : UnaryFunction, entry = .function f.name) ∨ ∃ position, entry = .group position) ∧
    ∀ (i : Nat) (upper lower : Operator), state.pending[i]? = some (.operator upper.symbol) →
      state.pending[i + 1]? = some (.operator lower.symbol) →
      lower.precedence < upper.precedence ∨ upper = .pow ∧ lower = .pow := by
  have rising := reach.rising known
  refine ⟨rising.known, fun i upper lower atUpper atLower => ?_⟩
  obtain ⟨bound, isLower⟩ := List.getElem?_eq_some_iff.mp atLower
  obtain ⟨_, isUpper⟩ := List.getElem?_eq_some_iff.mp atUpper
  exact rising.rises.getElem i bound upper lower isUpper isLower

/-- In `+*sin(-)^^)` before the last parenthesis. The group is gone with the function before it, and the powers wait above
what had waited below the two. -/
theorem waiting_order_malformed :
    ∃ state, Conversion.Reach false
        [⟨.operator "+", 0⟩, ⟨.operator "*", 1⟩, ⟨.identifier "sin", 2⟩, ⟨.openParen, 5⟩, ⟨.operator "-", 6⟩,
          ⟨.closeParen, 7⟩, ⟨.operator "^", 8⟩, ⟨.operator "^", 9⟩, ⟨.closeParen, 10⟩]
        [⟨.operator "+", 0⟩, ⟨.operator "*", 1⟩, ⟨.identifier "sin", 2⟩, ⟨.openParen, 5⟩, ⟨.operator "-", 6⟩,
          ⟨.closeParen, 7⟩, ⟨.operator "^", 8⟩, ⟨.operator "^", 9⟩]
        [⟨.closeParen, 10⟩] state ∧
      state.pending = [.operator "^", .operator "^", .operator "*", .operator "+"] ∧
      (∀ entry ∈ state.pending, entry.IsKnown) ∧
      (Operator.pow.precedence < Operator.pow.precedence ∨ Operator.pow = .pow ∧ Operator.pow = .pow) ∧
      (Operator.mul.precedence < Operator.pow.precedence ∨ Operator.pow = .pow ∧ Operator.mul = .pow) ∧
      (Operator.add.precedence < Operator.mul.precedence ∨ Operator.mul = .pow ∧ Operator.add = .pow) := by
  have reach : Conversion.Reach false
      [⟨.operator "+", 0⟩, ⟨.operator "*", 1⟩, ⟨.identifier "sin", 2⟩, ⟨.openParen, 5⟩, ⟨.operator "-", 6⟩,
        ⟨.closeParen, 7⟩, ⟨.operator "^", 8⟩, ⟨.operator "^", 9⟩, ⟨.closeParen, 10⟩] _ [⟨.closeParen, 10⟩] _ :=
    .next (.next (.next (.next (.next (.next (.next (.next .start rfl) rfl) rfl) rfl) rfl) rfl) rfl) rfl
  obtain ⟨known, rises⟩ := waiting_order (by decide) reach
  exact ⟨_, reach, rfl, known, rises 0 .pow .pow rfl rfl, rises 1 .pow .mul rfl rfl, rises 2 .mul .add rfl rfl⟩

end Runs

end Reckoner

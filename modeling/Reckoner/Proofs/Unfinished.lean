import Reckoner.Proofs.PhraseRun

namespace Reckoner

/-- The listings of expressions as a program under way holds them, the latest first. -/
def written (forest : List Expression) : Program := forest.flatMap fun tree => tree.postorder.reverse

@[simp]
theorem written_nil : written [] = [] := rfl

@[simp]
theorem written_cons (tree : Expression) (forest : List Expression) :
    written (tree :: forest) = tree.postorder.reverse ++ written forest := rfl

/-- Tokens that leave an operand to come, with what waits behind them and the left operands of the waiting operators,
the latest first. -/
inductive Unfinished : List Token → List Pending → List Expression → Prop
  | start : Unfinished [] [] []
  | operator {tokens phrase : List Token} {pending : List Pending} {forest : List Expression} {left : Expression}
      {op : Operator} {position : Int} : Unfinished tokens pending forest → Held op.level pending →
      Derives op.leftLevel phrase left →
      Unfinished (tokens ++ (phrase ++ [⟨.operator op.symbol, position⟩])) (.operator op.symbol :: pending)
        (left :: forest)
  | group {tokens : List Token} {pending : List Pending} {forest : List Expression} {first : Int} :
      Unfinished tokens pending forest →
      Unfinished (tokens ++ [⟨.openParen, first⟩]) (.group first :: pending) forest
  | call {tokens : List Token} {pending : List Pending} {forest : List Expression} {f : UnaryFunction}
      {position first : Int} : Unfinished tokens pending forest →
      Unfinished (tokens ++ [⟨.identifier f.name, position⟩, ⟨.openParen, first⟩])
        (.group first :: .function f.name :: pending) forest

namespace Unfinished

variable {tokens phrase : List Token} {pending : List Pending} {forest : List Expression} {level : Level}
  {tree : Expression}

theorem held (unfinished : Unfinished tokens pending forest) : Held .atom pending := by
  cases unfinished with
  | start | group | call => trivial
  | @operator _ _ _ _ _ op => exact ⟨op, rfl, Nat.le_of_lt op.rightLevel_lt_atom⟩

/-- The right operand of a waiting operator makes one phrase with all that stands to its left. -/
theorem join {before after : List Token} {op : Operator} {left right : Expression} (position : Int)
    (leftPhrase : Derives op.leftLevel before left) (rightPhrase : Derives level after right)
    (held : Held level (.operator op.symbol :: pending)) :
    Derives op.level (before ++ ⟨.operator op.symbol, position⟩ :: after) (.binary op left right) := by
  obtain ⟨other, same, bound⟩ := held
  obtain rfl := Operator.symbol_injective same
  exact .chain leftPhrase (rightPhrase.loosen bound)

/-- An operator takes in all phrases that it lets go of as one left operand. -/
theorem release (unfinished : Unfinished tokens pending forest) {current : Operator} (held : Held level pending)
    (derivation : Derives level phrase tree) (fits : current.leftLevel.strength ≤ level.strength) :
    ∃ before after below rest left, tokens ++ phrase = before ++ after ∧ Unfinished before below rest ∧
      Held current.level below ∧ Derives current.leftLevel after left ∧
      release current.symbol (written (tree :: forest)) pending = .ok (written (left :: rest), below) := by
  induction unfinished generalizing level phrase tree with
  | start => exact ⟨[], phrase, [], [], tree, rfl, .start, trivial, derivation.loosen fits, rfl⟩
  | @group tokens pending forest first inner ih =>
    exact ⟨_, phrase, _, forest, tree, rfl, .group inner, trivial, derivation.loosen fits, rfl⟩
  | @call tokens pending forest f position first inner ih =>
    exact ⟨_, phrase, _, forest, tree, rfl, .call inner, trivial, derivation.loosen fits, rfl⟩
  | @operator tokens before pending forest left op position inner heldBelow leftPhrase ih =>
    rw [release_operator]
    split
    · rename_i yields
      -- The earlier operator leaves, and with its operands it is a phrase for what waits below.
      have joined := join position leftPhrase derivation held
      obtain ⟨outer, after, below, rest, all, split, opened, heldOuter, reached, released⟩ :=
        ih heldBelow joined ((current.yieldsTo_iff op).mp yields)
      refine ⟨outer, after, below, rest, all, ?_, opened, heldOuter, reached, ?_⟩
      · rw [← split]
        simp
      · rw [← released]
        simp [Expression.postorder]
    · rename_i stays
      have bound := (current.not_yieldsTo_iff op).mp (by simpa using stays)
      exact ⟨_, phrase, _, _, tree, rfl, .operator inner heldBelow leftPhrase, ⟨op, rfl, bound⟩,
        derivation.loosen fits, rfl⟩

/-- Down to the innermost open group, or to the bottom, all that waits makes one sum. -/
theorem collapse (unfinished : Unfinished tokens pending forest) (held : Held level pending)
    (derivation : Derives level phrase tree) :
    ∃ ops before after below rest sum, pending = waiting ops ++ below ∧ tokens ++ phrase = before ++ after ∧
      Unfinished before below rest ∧ Derives .sum after sum ∧
      emit ops (written (tree :: forest)) = written (sum :: rest) ∧
      (below = [] ∨ ∃ first outer, below = .group first :: outer) := by
  induction unfinished generalizing level phrase tree with
  | start =>
    exact ⟨[], [], phrase, [], [], tree, rfl, rfl, .start, derivation.loosen level.sum_strength_le, rfl, Or.inl rfl⟩
  | @group tokens pending forest first inner ih =>
    exact ⟨[], _, phrase, _, forest, tree, rfl, rfl, .group inner, derivation.loosen level.sum_strength_le, rfl,
      Or.inr ⟨first, pending, rfl⟩⟩
  | @call tokens pending forest f position first inner ih =>
    exact ⟨[], _, phrase, _, forest, tree, rfl, rfl, .call inner, derivation.loosen level.sum_strength_le, rfl,
      Or.inr ⟨first, _, rfl⟩⟩
  | @operator tokens before pending forest left op position inner heldBelow leftPhrase ih =>
    have joined := join position leftPhrase derivation held
    obtain ⟨ops, outer, after, below, rest, sum, waits, split, opened, whole, emitted, bottom⟩ := ih heldBelow joined
    refine ⟨op :: ops, outer, after, below, rest, sum, by rw [waits]; rfl, ?_, opened, whole, ?_, bottom⟩
    · rw [← split]
      simp
    · rw [emit_cons, ← emitted]
      simp [Expression.postorder]

/-- Any phrase that fits can be followed by closing parentheses to make a sum. -/
theorem extend (unfinished : Unfinished tokens pending forest) (held : Held level pending)
    (derivation : Derives level phrase tree) : ∃ suffix sum, Derives .sum (tokens ++ phrase ++ suffix) sum := by
  induction unfinished generalizing level phrase tree with
  | start => exact ⟨[], tree, by simpa using derivation.loosen level.sum_strength_le⟩
  | @group tokens pending forest first inner ih =>
    have atom : Derives .atom (⟨.openParen, first⟩ :: (phrase ++ [⟨.closeParen, 0⟩])) tree :=
      .group (derivation.loosen level.sum_strength_le)
    obtain ⟨suffix, sum, whole⟩ := ih inner.held atom
    exact ⟨⟨.closeParen, 0⟩ :: suffix, sum, by simpa using whole⟩
  | @call tokens pending forest f position first inner ih =>
    have atom : Derives .atom
        (⟨.identifier f.name, position⟩ :: ⟨.openParen, first⟩ :: (phrase ++ [⟨.closeParen, 0⟩])) (.call f tree) :=
      .call (derivation.loosen level.sum_strength_le)
    obtain ⟨suffix, sum, whole⟩ := ih inner.held atom
    exact ⟨⟨.closeParen, 0⟩ :: suffix, sum, by simpa using whole⟩
  | @operator tokens before pending forest left op position inner heldBelow leftPhrase ih =>
    obtain ⟨suffix, sum, whole⟩ := ih heldBelow (join position leftPhrase derivation held)
    exact ⟨suffix, sum, by simpa using whole⟩

end Unfinished

end Reckoner

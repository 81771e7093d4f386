import Reckoner.Proofs.Grammar
import Reckoner.Proofs.Moves

namespace Reckoner

/-- What waits on top may take a phrase of this level as its right operand. A function waits for a group only. -/
def Held (level : Level) : List Pending → Prop
  | .operator symbol :: _ => ∃ op : Operator, op.symbol = symbol ∧ op.rightLevel.strength ≤ level.strength
  | .function _ :: _ => False
  | _ => True

theorem Held.tighten {loose tight : Level} {pending : List Pending} (held : Held loose pending)
    (looser : loose.strength ≤ tight.strength) : Held tight pending := by
  match pending, held with
  | [], _ => trivial
  | .group _ :: _, _ => trivial
  | .operator _ :: _, ⟨op, same, bound⟩ => exact ⟨op, same, Nat.le_trans bound looser⟩

/-- What may take the phrase that an operator makes does not come before the operator. -/
theorem Held.release {current : Operator} {pending : List Pending} (held : Held current.level pending)
    (output : Program) : release current.symbol output pending = .ok (output, pending) := by
  match pending, held with
  | [], _ => rfl
  | .group _ :: _, _ => rfl
  | .operator _ :: _, ⟨op, same, bound⟩ =>
    subst same
    have stays := (Operator.not_yieldsTo_iff current op).mpr bound
    rw [release_operator, stays]
    rfl

theorem Held.applyToGroup {level : Level} {pending : List Pending} (held : Held level pending) (output : Program) :
    applyToGroup output pending = (output, pending) := by
  match pending, held with
  | [], _ => rfl
  | .group _ :: _, _ => rfl
  | .operator _ :: _, _ => rfl

/-- A phrase runs to its end, with whatever rules. Operators that it leaves waiting bind no looser than the phrase,
and with them the program is its listing. -/
theorem Derives.steps {level : Level} {tokens : List Token} {tree : Expression} (derivation : Derives level tokens tree)
    (strict : Bool) (rest : List Token) (output : Program) {pending : List Pending} (held : Held level pending) :
    ∃ ops left, (∀ op ∈ ops, level.strength ≤ op.level.strength) ∧
      emit ops left = tree.postorder.reverse ++ output ∧
      Conversion.steps strict ⟨output, pending, true⟩ (tokens ++ rest) =
        Conversion.steps strict ⟨left, waiting ops ++ pending, false⟩ rest := by
  -- The rest, the output and what waits below stay open, since each part of a phrase runs before the next one.
  induction derivation generalizing rest output pending with
  | @number value position =>
    refine ⟨[], .operand value :: output, by simp, rfl, ?_⟩
    exact (Moves.number fun _ => rfl).steps
  | @constant name position spelled =>
    refine ⟨[], .operand .pi :: output, by simp, rfl, ?_⟩
    exact (Moves.constant (isPiName_iff.mpr spelled) fun _ => rfl).steps
  | @group tokens tree first last inner ih =>
    have opened : Held .sum (.group first :: pending) := trivial
    obtain ⟨ops, left, _, emitted, run⟩ := ih (⟨.closeParen, last⟩ :: rest) output opened
    refine ⟨[], tree.postorder.reverse ++ output, by simp, rfl, ?_⟩
    have shut : closeGroup left (waiting ops ++ .group first :: pending) =
        (tree.postorder.reverse ++ output, some pending) := by
      rw [closeGroup_waiting, emitted, closeGroup]
    rw [List.cons_append, List.append_assoc, List.singleton_append, (Moves.openParen fun _ => rfl).steps, run,
      (Moves.closeParen (fun _ => rfl) shut).steps, held.applyToGroup]
    rfl
  | @call f tokens tree position first last inner ih =>
    have opened : Held .sum (.group first :: .function f.name :: pending) := trivial
    obtain ⟨ops, left, _, emitted, run⟩ := ih (⟨.closeParen, last⟩ :: rest) output opened
    refine ⟨[], .unary f.name :: (tree.postorder.reverse ++ output), by simp, by simp [Expression.postorder], ?_⟩
    have shut : closeGroup left (waiting ops ++ .group first :: .function f.name :: pending) =
        (tree.postorder.reverse ++ output, some (.function f.name :: pending)) := by
      rw [closeGroup_waiting, emitted, closeGroup]
    rw [List.cons_append, List.cons_append, List.append_assoc, List.singleton_append,
      (Moves.function (fun _ => rfl) fun _ => rfl).steps, (Moves.openParen fun _ => rfl).steps, run,
      (Moves.closeParen (fun _ => rfl) shut).steps]
    rfl
  | @lift level tokens tree inner ih =>
    obtain ⟨ops, left, bound, emitted, run⟩ := ih rest output (held.tighten level.strength_le_next)
    exact ⟨ops, left, fun op member => Nat.le_trans level.strength_le_next (bound op member), emitted, run⟩
  | @chain op before after left right position leftPhrase rightPhrase ihLeft ihRight =>
    obtain ⟨ops, start, bound, emitted, run⟩ :=
      ihLeft (⟨.operator op.symbol, position⟩ :: (after ++ rest)) output (held.tighten op.level_le_leftLevel)
    -- Nothing that the left phrase leaves waiting binds looser than it, so the operator lets go of all of it.
    have yields : ∀ other ∈ ops, op.yieldsTo other = true :=
      fun other member => (op.yieldsTo_iff other).mpr (bound other member)
    have released := release_waiting yields start pending
    rw [emitted, held.release] at released
    have onTop : Held op.rightLevel (.operator op.symbol :: pending) := ⟨op, rfl, Nat.le_refl _⟩
    obtain ⟨more, last, boundRight, emittedRight, runRight⟩ := ihRight rest (left.postorder.reverse ++ output) onTop
    refine ⟨more ++ [op], last, ?_, ?_, ?_⟩
    · intro other member
      rcases List.mem_append.mp member with inner | same
      · exact Nat.le_trans op.level_le_rightLevel (boundRight other inner)
      · obtain rfl := List.mem_singleton.mp same
        exact Nat.le_refl _
    · rw [emit_append, emittedRight]
      simp [emit, Expression.postorder]
    · rw [List.append_assoc, List.cons_append, run, (Moves.operator (fun _ => rfl) released).steps, runRight]
      simp

theorem Derives.convert {tokens : List Token} {tree : Expression} (derivation : Derives .sum tokens tree)
    (strict : Bool) : convert strict tokens = .ok tree.postorder := by
  have free : Held .sum [] := trivial
  obtain ⟨ops, left, _, emitted, run⟩ := derivation.steps strict [] [] free
  rw [List.append_nil] at run emitted
  rw [List.append_nil] at run
  have finished := finish_waiting strict ops left []
  rw [List.append_nil, emitted] at finished
  rw [convert_of_steps run (Or.inr rfl), finished, finish, List.reverse_reverse]

end Reckoner

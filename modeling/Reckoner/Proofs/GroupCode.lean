import Reckoner.Proofs.Conservation
import Reckoner.Proofs.LenientRun

namespace Reckoner

namespace Conversion

/-- The state behind a group with the given code: a function that waits right before the group is applied to it. -/
def afterGroup (state : Conversion) (code : Program) : Conversion :=
  ⟨(applyToGroup (code.reverse ++ state.output) state.pending).1,
    (applyToGroup (code.reverse ++ state.output) state.pending).2, false⟩

/-- What a group puts out is what the tokens in it make by themselves, whatever comes before and behind. -/
theorem steps_group {inner : List Token} (balanced : Balanced inner) (state : Conversion) (first last : Int)
    (rest : List Token) :
    state.steps false (⟨.openParen, first⟩ :: (inner ++ ⟨.closeParen, last⟩ :: rest)) =
      convert false inner >>= fun code => (state.afterGroup code).steps false rest := by
  have opens (next : Option TokenKind) : Moves false next state ⟨.openParen, first⟩
      (start.above state.output (.group first :: state.pending)) := .openParen nofun
  have barrier : Barrier (.group first :: state.pending) := trivial
  have within : ClosesWithin (openGroups start.pending) inner := balanced.closesWithin 0
  rw [(opens _).steps, steps_append, steps_above barrier (Or.inl within), convert_lenient]
  cases run : start.steps false inner with
  | error error => rfl
  | ok ended =>
    have count := openGroups_steps run within
    have none_open : openGroups ended.pending = 0 := by
      rw [balanced.height_eq] at count
      exact Int.natCast_eq_zero.mp count
    have shut : closeGroup (ended.output ++ state.output) (ended.pending ++ .group first :: state.pending) =
        (ended.line.reverse ++ state.output, some state.pending) :=
      closeGroup_above_none (closeGroup_of_openGroups none_open ended.output) _ _
    have closes (next : Option TokenKind) : Moves false next (ended.above state.output (.group first :: state.pending))
        ⟨.closeParen, last⟩ (state.afterGroup ended.line) := .closeParen nofun shut
    exact (closes _).steps

/-- The code of a group stands behind all that was put out before the group. -/
theorem afterGroup_eq (state : Conversion) (code : Program) : state.afterGroup code =
    (afterGroup ⟨[], state.pending, false⟩ []).above (code.reverse ++ state.output) [] := by
  have barrier : Barrier [] := trivial
  have framed := applyToGroup_above barrier [] (code.reverse ++ state.output) state.pending
  rw [List.nil_append, List.append_nil] at framed
  simp only [afterGroup, above, framed, List.reverse_nil, List.nil_append]

theorem line_afterGroup (state : Conversion) (code : Program) :
    (state.afterGroup code).line = Reckoner.line (code.reverse ++ state.output) state.pending :=
  line_applyToGroup _ _

theorem line_above (state : Conversion) (early : Program) :
    (state.above early []).line = early.reverse ++ state.line := by
  simp [line, above, Reckoner.line]

end Conversion

section Surroundings

variable {before after inner : List Token}

theorem convert_enclosed (balanced : Balanced inner) (first last : Int) :
    convert false (⟨.openParen, first⟩ :: (inner ++ [⟨.closeParen, last⟩])) = convert false inner := by
  rw [convert_lenient, Conversion.steps_group balanced]
  cases convert false inner with
  | error error => rfl
  | ok code =>
    have same : (Conversion.start.afterGroup code).line = code := by
      simp [Conversion.line_afterGroup, line, Conversion.start]
    exact congrArg Except.ok same

theorem values_output (state : Conversion) :
    state.output.reverse.filterMap Instruction.value? = state.line.filterMap Instruction.value? := by
  have none_waits : (state.pending.filterMap Pending.instruction?).filterMap Instruction.value? = [] :=
    List.filterMap_eq_nil_iff.mpr value_of_pending
  rw [Conversion.line, line, List.filterMap_append, none_waits, List.append_nil]

/-- What stands behind a group is run as from a state that has not put out anything, and the code of the group comes
before all that it puts out. -/
theorem exists_steps_afterGroup {state : Conversion} (known : ∀ token ∈ before ++ after, token.HasKnownSymbol)
    (inserted : Inserted before state.line) : ∃ ended : Conversion, ∀ code,
      (state.afterGroup code).steps false after = .ok (ended.above (code.reverse ++ state.output) []) := by
  have barrier : Barrier [] := trivial
  have framed (code : Program) : (state.afterGroup code).steps false after =
      ((Conversion.afterGroup ⟨[], state.pending, false⟩ []).steps false after).map
        (·.above (code.reverse ++ state.output) []) := by
    rw [state.afterGroup_eq]
    exact Conversion.steps_above barrier (Or.inr rfl) _
  cases resumes : (Conversion.afterGroup ⟨[], state.pending, false⟩ []).steps false after with
  | ok ended =>
    refine ⟨ended, fun code => ?_⟩
    rw [framed, resumes]
    rfl
  | error error =>
    have insertedToo : Inserted before (state.afterGroup []).line := by
      rw [state.line_afterGroup]
      exact inserted
    obtain ⟨last, run⟩ := exists_lenient_steps known insertedToo
    rw [framed, resumes] at run
    cases run

/-- Around a group the program is the same whatever is in the group. -/
theorem exists_surroundings (known : ∀ token ∈ before ++ after, token.HasKnownSymbol) :
    ∃ early late, early.filterMap Instruction.value? = before.filterMap Token.value? ∧
      ∀ inner, Balanced inner → ∀ first last : Int,
        convert false (before ++ ⟨.openParen, first⟩ :: (inner ++ ⟨.closeParen, last⟩ :: after)) =
          (convert false inner).map fun code => early ++ code ++ late := by
  obtain ⟨knownBefore, -⟩ := List.forall_mem_append.mp known
  obtain ⟨state, ran⟩ : ∃ state, Conversion.start.steps false before = .ok state :=
    exists_lenient_steps knownBefore .at_start
  have inserted : Inserted before state.line := (Conversion.steps_eq_ok_iff_reach.mp ran).inserted
  obtain ⟨ended, behind⟩ := exists_steps_afterGroup known inserted
  refine ⟨state.output.reverse, ended.line, ?_, fun inner balanced first last => ?_⟩
  · rw [values_output, inserted.operands]
  · rw [convert_lenient, Conversion.steps_append, ran, ok_bind, Conversion.steps_group balanced]
    cases convert false inner with
    | error error => rfl
    | ok code =>
      have whole : (ended.above (code.reverse ++ state.output) []).line =
          state.output.reverse ++ code ++ ended.line := by
        rw [Conversion.line_above, List.reverse_append, List.reverse_reverse]
      rw [ok_bind, behind]
      exact congrArg Except.ok whole

/-- A group of balanced tokens stands in any surroundings for an operand. The program is the one for a number in its
place, with the code that the tokens have by themselves instead of the number. More parentheses around them make no
difference. -/
theorem convert_group (known : ∀ token ∈ before ++ after, token.HasKnownSymbol) :
    (∃ early late, early.filterMap Instruction.value? = before.filterMap Token.value? ∧ ∀ first last : Int,
      (∀ value position,
        convert false (before ++ ⟨.openParen, first⟩ :: ([⟨.number value, position⟩] ++ ⟨.closeParen, last⟩ :: after)) =
          .ok (early ++ .operand value :: late)) ∧
      ∀ inner, Balanced inner →
        convert false (before ++ ⟨.openParen, first⟩ :: (inner ++ ⟨.closeParen, last⟩ :: after)) =
          (convert false inner).map fun code => early ++ code ++ late) ∧
    ∀ inner, Balanced inner → ∀ first last innerFirst innerLast : Int,
      convert false (before ++ ⟨.openParen, first⟩ ::
          (⟨.openParen, innerFirst⟩ :: (inner ++ [⟨.closeParen, innerLast⟩]) ++ ⟨.closeParen, last⟩ :: after)) =
        convert false (before ++ ⟨.openParen, first⟩ :: (inner ++ ⟨.closeParen, last⟩ :: after)) := by
  obtain ⟨early, late, operands, surrounds⟩ := exists_surroundings known
  refine ⟨⟨early, late, operands, fun first last => ⟨fun value position => ?_, fun inner balanced => ?_⟩⟩, ?_⟩
  · have single : Balanced [⟨.number value, position⟩] := .plain (by simp) (by simp) .nil
    have code : convert false [⟨.number value, position⟩] = .ok [.operand value] := rfl
    have whole : early ++ [.operand value] ++ late = early ++ .operand value :: late := by simp
    rw [surrounds _ single, code]
    exact congrArg Except.ok whole
  · exact surrounds inner balanced first last
  · intro inner balanced first last innerFirst innerLast
    have enclosed : Balanced (⟨.openParen, innerFirst⟩ :: (inner ++ [⟨.closeParen, innerLast⟩])) :=
      .group balanced .nil
    rw [surrounds _ enclosed, convert_enclosed balanced, surrounds _ balanced]

/-- `) sqrt ( (pi) + cos ) ^ (`, where the group ends in a function without an operand. -/
theorem convert_group_unbalanced :
    (∀ token ∈ ([⟨.closeParen, 0⟩, ⟨.identifier "sqrt", 1⟩] ++ [⟨.operator "^", 13⟩, ⟨.openParen, 14⟩] : List Token),
      token.HasKnownSymbol) ∧
    Balanced [⟨.openParen, 6⟩, ⟨.number .pi, 7⟩, ⟨.closeParen, 8⟩, ⟨.operator "+", 9⟩, ⟨.identifier "cos", 10⟩] ∧
    ∃ early late, early ++ .operand .pi :: late = [.operand .pi, .unary "sqrt", .binary "^"] ∧
      convert false ([⟨.closeParen, 0⟩, ⟨.identifier "sqrt", 1⟩] ++ ⟨.openParen, 5⟩ ::
        ([⟨.openParen, 6⟩, ⟨.number .pi, 7⟩, ⟨.closeParen, 8⟩, ⟨.operator "+", 9⟩, ⟨.identifier "cos", 10⟩] ++
          ⟨.closeParen, 12⟩ :: [⟨.operator "^", 13⟩, ⟨.openParen, 14⟩])) =
        .ok (early ++ [.operand .pi, .unary "cos", .binary "+"] ++ late) := by
  have known : ∀ token ∈ ([⟨.closeParen, 0⟩, ⟨.identifier "sqrt", 1⟩] ++
      [⟨.operator "^", 13⟩, ⟨.openParen, 14⟩] : List Token), token.HasKnownSymbol := by
    simp only [List.cons_append, List.nil_append, List.forall_mem_cons, List.not_mem_nil, false_implies, implies_true,
      and_true, Token.HasKnownSymbol, reduceCtorEq, TokenKind.operator.injEq, forall_eq', true_and]
    exact ⟨.pow, rfl⟩
  have balanced : Balanced [⟨.openParen, 6⟩, ⟨.number .pi, 7⟩, ⟨.closeParen, 8⟩, ⟨.operator "+", 9⟩,
      ⟨.identifier "cos", 10⟩] := by
    have number : Balanced [⟨.number .pi, 7⟩] := .plain (by simp) (by simp) .nil
    exact .group number (.plain (by simp) (by simp) (.plain (by simp) (by simp) .nil))
  obtain ⟨⟨early, late, -, codes⟩, -⟩ := convert_group known
  obtain ⟨of_number, of_group⟩ := codes 5 12
  exact ⟨known, balanced, early, late, (Except.ok.inj (of_number .pi 6)).symm, of_group _ balanced⟩

end Surroundings

end Reckoner

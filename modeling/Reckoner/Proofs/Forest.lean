import Mathlib.Data.Nat.Find
import Reckoner.Proofs.Expression

namespace Reckoner

theorem runOn_append [ElementaryFunctions] (stack : List Binary64) (program rest : Program) :
    runOn stack (program ++ rest) =
      match runOn stack program with
      | .ok stack => runOn stack rest
      | .error error => .error error := by
  induction program generalizing stack with
  | nil => rfl
  | cons instruction program ih =>
    rw [List.cons_append, runOn, runOn]
    cases runInstruction stack instruction with
    | ok next => exact ih next
    | error error => rfl

/-- The machine computes what the expressions on its stack stand for. -/
theorem runInstruction_grow [ElementaryFunctions] {forest next : List Expression} {instruction : Instruction}
    (grown : grow forest instruction = some next) :
    runInstruction (forest.map Expression.value) instruction = .ok (next.map Expression.value) := by
  unfold grow at grown
  split at grown
  · cases grown
    rfl
  · obtain ⟨op, found, rfl⟩ := Option.map_eq_some_iff.mp grown
    simp [runInstruction, found, Expression.value]
  · obtain ⟨f, found, rfl⟩ := Option.map_eq_some_iff.mp grown
    simp [runInstruction, found, Expression.value]
  · cases grown

theorem runOn_growAll [ElementaryFunctions] {forest last : List Expression} {program : Program}
    (grown : growAll forest program = some last) :
    runOn (forest.map Expression.value) program = .ok (last.map Expression.value) := by
  induction program generalizing forest with
  | nil =>
    cases grown
    rfl
  | cons instruction program ih =>
    obtain ⟨next, first, rest⟩ := Option.bind_eq_some_iff.mp grown
    rw [runOn, runInstruction_grow first]
    exact ih rest

theorem runOn_listing [ElementaryFunctions] (trees : List Expression) :
    runOn [] (listing trees) = .ok (trees.map Expression.value).reverse := by
  have run := runOn_growAll (growAll_listing trees [])
  rw [List.append_nil, List.map_reverse] at run
  exact run

theorem run_listing [ElementaryFunctions] (trees : List Expression) :
    Program.run (listing trees) = resultOf (trees.map Expression.value).reverse := by
  rw [Program.run, runOn_listing]

theorem run_postorder [ElementaryFunctions] (tree : Expression) :
    tree.postorder.run = if tree.value.isFinite then .ok tree.value else .error (.notFinite tree.value) := by
  have run := run_listing [tree]
  simp only [listing_cons, listing_nil, List.append_nil] at run
  exact run

theorem resultOf_of_several {stack : List Binary64} (several : 2 ≤ stack.length) :
    resultOf stack = .error (.leftover stack.reverse) := by
  rcases stack with _ | ⟨value, _ | ⟨second, stack⟩⟩
  · simp at several
  · simp at several
  · rfl

/-- What is left over is reported from the bottom of the stack to its top. -/
theorem run_listing_of_several [ElementaryFunctions] {trees : List Expression} (several : 2 ≤ trees.length) :
    Program.run (listing trees) = .error (.leftover (trees.map Expression.value)) := by
  rw [run_listing, resultOf_of_several (by simpa using several), List.reverse_reverse]

def Instruction.shortage? : Instruction → Option RunError
  | operand _ => none
  | binary symbol => some (.operatorUnderflow symbol)
  | unary name => some (.functionUnderflow name)

theorem runInstruction_short [ElementaryFunctions] {stack : List Binary64} {instruction : Instruction}
    (short : stack.length < instruction.arity) :
    ∃ error, instruction.shortage? = some error ∧ runInstruction stack instruction = .error error := by
  cases instruction with
  | operand value => simp [Instruction.arity] at short
  | binary symbol =>
    refine ⟨.operatorUnderflow symbol, rfl, ?_⟩
    rcases stack with _ | ⟨right, _ | ⟨left, stack⟩⟩
    · rfl
    · rfl
    · simp only [List.length_cons, Instruction.arity] at short
      omega
  | unary name =>
    refine ⟨.functionUnderflow name, rfl, ?_⟩
    cases stack with
    | nil => rfl
    | cons argument stack => simp [Instruction.arity] at short

theorem shortage_injective {instruction other : Instruction} {error : RunError}
    (first : instruction.shortage? = some error) (second : other.shortage? = some error) : instruction = other := by
  cases instruction <;> cases other <;> cases first <;> cases second <;> rfl

namespace Program

/-- The instructions before a place list fewer expressions than the instruction there takes operands. -/
def ShortAt (program : Program) (i : Nat) : Prop :=
  ∃ instruction trees, program[i]? = some instruction ∧ program.take i = listing trees ∧
    trees.length < instruction.arity

def FirstShortAt (program : Program) (i : Nat) : Prop := program.ShortAt i ∧ ∀ j < i, ¬ program.ShortAt j

end Program

/-- A row of listings is told apart from all others by reading it on the stack of expressions. -/
theorem growAll_eq_some_iff {program : Program} {forest : List Expression} :
    growAll [] program = some forest ↔ program = listing forest.reverse := by
  constructor
  · intro grown
    have listed := listing_growAll grown
    simp only [List.reverse_nil, listing_nil, List.nil_append] at listed
    exact listed.symm
  · rintro rfl
    simp [growAll_listing]

/-- A program of known instructions gets stuck at one of them, after a row of complete listings. -/
theorem stuck_of_growAll {forest : List Expression} {program : Program}
    (known : ∀ instruction ∈ program, instruction.IsKnown) (stuck : growAll forest program = none) :
    ∃ before instruction after last, program = before ++ instruction :: after ∧
      growAll forest before = some last ∧ last.length < instruction.arity := by
  induction program generalizing forest with
  | nil => cases stuck
  | cons instruction program ih =>
    cases grown : grow forest instruction with
    | none =>
      have short := (grow_eq_none_iff (known instruction List.mem_cons_self)).mp grown
      exact ⟨[], instruction, program, forest, rfl, rfl, short⟩
    | some next =>
      simp only [growAll, grown, Option.bind_some] at stuck
      obtain ⟨before, other, after, last, split, reached, short⟩ :=
        ih (fun other member => known other (List.mem_cons_of_mem _ member)) stuck
      refine ⟨instruction :: before, other, after, last, by rw [split]; rfl, ?_, short⟩
      simp only [growAll, grown, Option.bind_some, reached]

namespace Program

theorem shortAt_of_growAll {program : Program} (known : ∀ instruction ∈ program, instruction.IsKnown)
    (stuck : growAll [] program = none) : ∃ i, program.ShortAt i := by
  obtain ⟨before, instruction, after, last, split, reached, short⟩ := stuck_of_growAll known stuck
  refine ⟨before.length, instruction, last.reverse, ?_, ?_, by simpa using short⟩
  · simp [split]
  · rw [split, List.take_left]
    exact growAll_eq_some_iff.mp reached

/-- The first of the places that lack operands is one of them, so its own run decides what is reported. -/
theorem exists_firstShortAt {program : Program} (some_short : ∃ i, program.ShortAt i) :
    ∃ i, program.FirstShortAt i := by
  classical
  exact ⟨Nat.find some_short, Nat.find_spec some_short, fun j before => Nat.find_min some_short before⟩

theorem ShortAt.run [ElementaryFunctions] {program : Program} {i : Nat} (short : program.ShortAt i) :
    ∃ instruction error, program[i]? = some instruction ∧ instruction.shortage? = some error ∧
      program.run = .error error := by
  obtain ⟨instruction, trees, there, listed, few⟩ := short
  have lack : (trees.map Expression.value).reverse.length < instruction.arity := by simpa using few
  obtain ⟨error, names, stops⟩ := runInstruction_short lack
  refine ⟨instruction, error, there, names, ?_⟩
  have inside : i < program.length := (List.getElem?_eq_some_iff.mp there).1
  -- What stands in front runs to its end, so the run stops here whatever stands behind.
  have split : program = listing trees ++ instruction :: program.drop (i + 1) := by
    rw [← listed, ← (List.getElem?_eq_some_iff.mp there).2, ← List.drop_eq_getElem_cons inside,
      List.take_append_drop]
  rw [Program.run, split, runOn_append, runOn_listing]
  simp only [runOn, stops]

end Program

end Reckoner

import Reckoner.Elementary.Rounded
import Reckoner.Proofs.Forest

namespace Reckoner.Program

section Functions

variable [ElementaryFunctions] {program : Program}

inductive Verdict : Program → Except RunError Binary64 → Prop
  | value (tree : Expression) : tree.value.isFinite = true → Verdict tree.postorder (.ok tree.value)
  | notFinite (tree : Expression) : tree.value.isFinite = false →
      Verdict tree.postorder (.error (.notFinite tree.value))
  | leftover (trees : List Expression) : 2 ≤ trees.length →
      Verdict (listing trees) (.error (.leftover (trees.map Expression.value)))
  | nothing : Verdict [] (.error .nothingLeft)
  | short {program : Program} {i : Nat} {instruction : Instruction} {error : RunError} :
      program.FirstShortAt i → program[i]? = some instruction → instruction.shortage? = some error →
      Verdict program (.error error)

theorem verdict_postorder (tree : Expression) : Verdict tree.postorder tree.postorder.run := by
  rw [run_postorder]
  split
  · rename_i finite
    exact .value tree finite
  · rename_i infinite
    exact .notFinite tree (by simpa using infinite)

theorem verdict_listing (trees : List Expression) : Verdict (listing trees) (Program.run (listing trees)) := by
  rcases trees with _ | ⟨tree, _ | ⟨second, trees⟩⟩
  · exact .nothing
  · simpa only [listing_cons, listing_nil, List.append_nil] using verdict_postorder tree
  · have several : 2 ≤ (tree :: second :: trees).length := by simp
    rw [run_listing_of_several several]
    exact .leftover _ several

/-- A program of known instructions is a row of listings, or it lacks operands somewhere. -/
theorem run_verdict (known : ∀ instruction ∈ program, instruction.IsKnown) : Verdict program program.run := by
  cases grown : growAll [] program with
  | some forest =>
    rw [growAll_eq_some_iff.mp grown]
    exact verdict_listing _
  | none =>
    obtain ⟨i, short, first⟩ := exists_firstShortAt (shortAt_of_growAll known grown)
    obtain ⟨instruction, error, there, names, run⟩ := short.run
    rw [run]
    exact .short ⟨short, first⟩ there names

theorem verdict_of_run (known : ∀ instruction ∈ program, instruction.IsKnown) {result : Except RunError Binary64}
    (run : program.run = result) : Verdict program result := by
  have verdict := run_verdict known
  rwa [run] at verdict

theorem run_eq_ok_iff (known : ∀ instruction ∈ program, instruction.IsKnown) {value : Binary64} :
    program.run = .ok value ↔
      ∃ tree : Expression, program = tree.postorder ∧ tree.value = value ∧ value.isFinite = true := by
  constructor
  · intro run
    cases verdict_of_run known run with
    | value tree finite => exact ⟨tree, rfl, rfl, finite⟩
  · rintro ⟨tree, rfl, rfl, finite⟩
    rw [run_postorder, if_pos finite]

theorem run_eq_notFinite_iff (known : ∀ instruction ∈ program, instruction.IsKnown) {value : Binary64} :
    program.run = .error (.notFinite value) ↔
      ∃ tree : Expression, program = tree.postorder ∧ tree.value = value ∧ value.isFinite = false := by
  constructor
  · intro run
    cases verdict_of_run known run with
    | notFinite tree infinite => exact ⟨tree, rfl, rfl, infinite⟩
    | @short _ i instruction _ first there names => cases instruction <;> cases names
  · rintro ⟨tree, rfl, rfl, infinite⟩
    rw [run_postorder, if_neg (by simp [infinite])]

theorem run_eq_leftover_iff (known : ∀ instruction ∈ program, instruction.IsKnown) {values : List Binary64} :
    program.run = .error (.leftover values) ↔
      ∃ trees, program = listing trees ∧ trees.map Expression.value = values ∧ 2 ≤ trees.length := by
  constructor
  · intro run
    cases verdict_of_run known run with
    | leftover trees several => exact ⟨trees, rfl, rfl, several⟩
    | @short _ i instruction _ first there names => cases instruction <;> cases names
  · rintro ⟨trees, rfl, rfl, several⟩
    exact run_listing_of_several several

theorem run_eq_nothingLeft_iff (known : ∀ instruction ∈ program, instruction.IsKnown) :
    program.run = .error .nothingLeft ↔ program = [] := by
  constructor
  · intro run
    cases verdict_of_run known run with
    | nothing => rfl
    | @short _ i instruction _ first there names => cases instruction <;> cases names
  · rintro rfl
    rfl

theorem run_eq_shortage_iff (known : ∀ instruction ∈ program, instruction.IsKnown) {instruction : Instruction}
    {error : RunError} (names : instruction.shortage? = some error) :
    program.run = .error error ↔ ∃ i, program[i]? = some instruction ∧ program.FirstShortAt i := by
  constructor
  · intro run
    cases verdict_of_run known run with
    | @short _ i other _ first there otherNames =>
      rw [shortage_injective names otherNames]
      exact ⟨i, there, first⟩
    | notFinite | leftover | nothing => cases instruction <;> cases names
  · rintro ⟨i, there, short, _⟩
    obtain ⟨other, reported, otherThere, otherNames, run⟩ := short.run
    have same : other = instruction := Option.some.inj (otherThere.symm.trans there)
    subst other
    have sameError : reported = error := Option.some.inj (otherNames.symm.trans names)
    rw [run, sameError]

/-- The five outcomes of a run share out all programs of known instructions between them: a finite value for the
listing of one expression, which is the only one with this listing, and a report that tells how the program differs
from such a listing. -/
theorem run_outcome (known : ∀ instruction ∈ program, instruction.IsKnown) :
    (∀ value, program.run = .ok value ↔
      ∃ tree : Expression, program = tree.postorder ∧ tree.value = value ∧ value.isFinite = true) ∧
    (∀ tree other : Expression, program = tree.postorder → program = other.postorder → tree = other) ∧
    (∀ value, program.run = .error (.notFinite value) ↔
      ∃ tree : Expression, program = tree.postorder ∧ tree.value = value ∧ value.isFinite = false) ∧
    (∀ k, (∃ values, values.length = k ∧ program.run = .error (.leftover values)) ↔
      2 ≤ k ∧ ∃ trees, trees.length = k ∧ program = listing trees) ∧
    (program.run = .error .nothingLeft ↔ program = []) ∧
    (∀ instruction error, instruction.shortage? = some error → (program.run = .error error ↔
      ∃ i, program[i]? = some instruction ∧ program.FirstShortAt i)) ∧
    ∀ name, program.run ≠ .error (.unknownName name) := by
  refine ⟨fun value => run_eq_ok_iff known, ?_, fun value => run_eq_notFinite_iff known, ?_,
    run_eq_nothingLeft_iff known, fun instruction error names => run_eq_shortage_iff known names, ?_⟩
  · intro tree other listed otherListed
    exact postorder_injective (listed.symm.trans otherListed)
  · intro k
    constructor
    · rintro ⟨values, rfl, run⟩
      obtain ⟨trees, listed, rfl, several⟩ := (run_eq_leftover_iff known).mp run
      exact ⟨by simpa using several, trees, by simp, listed⟩
    · rintro ⟨several, trees, rfl, listed⟩
      exact ⟨trees.map Expression.value, by simp,
        (run_eq_leftover_iff known).mpr ⟨trees, listed, rfl, several⟩⟩
  · intro name run
    cases verdict_of_run known run with
    | @short _ i instruction _ first there names => cases instruction <;> cases names

end Functions

theorem run_outcome_second_operator :
    (∀ instruction ∈ ([.operand .pi, .operand .pi, .binary "*", .binary "+"] : Program), instruction.IsKnown) ∧
      run [.operand .pi, .operand .pi, .binary "*", .binary "+"] = .error (.operatorUnderflow "+") := by
  have known : ∀ instruction ∈ ([.operand .pi, .operand .pi, .binary "*", .binary "+"] : Program),
      instruction.IsKnown := by
    simp only [List.forall_mem_cons, List.not_mem_nil, false_implies, implies_true, and_true]
    exact ⟨trivial, trivial, ⟨.mul, rfl⟩, ⟨.add, rfl⟩⟩
  refine ⟨known, ?_⟩
  obtain ⟨_, _, _, _, _, shortage, _⟩ := run_outcome known
  refine (shortage (.binary "+") _ rfl).mpr ⟨3, rfl, ?_, ?_⟩
  · exact ⟨.binary "+", [.binary .mul (.operand .pi) (.operand .pi)], rfl, rfl, by decide⟩
  · rintro j before ⟨instruction, trees, there, listed, few⟩
    obtain rfl | rfl | rfl : j = 0 ∨ j = 1 ∨ j = 2 := by omega
    · cases there
      exact absurd few (Nat.not_lt_zero _)
    · cases there
      exact absurd few (Nat.not_lt_zero _)
    · cases there
      have two : listing trees = listing [.operand .pi, .operand .pi] := listed.symm
      rw [listing_injective two] at few
      exact absurd few (by decide)

end Reckoner.Program

import Reckoner.Elementary.Rounded
import Reckoner.Proofs.Conservation
import Reckoner.Proofs.PatternSearch
import Reckoner.Proofs.RunOutcome
import Reckoner.Proofs.StrictAcceptance

namespace Reckoner

section Records

variable {record : LogRecord} {strict : Bool} {expression : Value}

theorem conversionRecords_mild {result : Except ConversionError Program} (member : record ∈ conversionRecords result) :
    record.severe = false := by
  unfold conversionRecords at member
  split at member
  · rw [List.mem_singleton.mp member]
  · rw [List.mem_singleton.mp member]
  · cases member

theorem runRecords_mild {program : Program} {result : Except RunError Binary64}
    (member : record ∈ runRecords program result) : record.severe = false := by
  unfold runRecords at member
  split at member
  · rw [List.mem_singleton.mp member]
  · cases member

/-- A severe line in the log means a failure that no fault of an expression explains. -/
theorem failure_of_severe [ElementaryFunctions] (member : record ∈ evaluationRecords strict expression)
    (severe : record.severe = true) :
    ∃ failure, evaluate strict expression = .error failure ∧ failure.isOrdinary = false := by
  rcases List.mem_append.mp member with stage | last
  · -- What the stages themselves write is never severe.
    have mild : record.severe = false := by
      split at stage
      · cases stage
      · rcases List.mem_append.mp stage with converting | running
        · exact conversionRecords_mild converting
        · split at running
          · exact runRecords_mild running
          · cases running
    cases mild.symm.trans severe
  · cases evaluated : evaluate strict expression with
    | ok value =>
      rw [evaluated] at last
      cases last
    | error failure =>
      rw [evaluated] at last
      rw [List.mem_singleton.mp last] at severe
      exact ⟨failure, rfl, by simpa using severe⟩

end Records

variable {source : String} {program : Program}

/-- A program of known instructions ends in a finite value or in a report other than of an unknown name. -/
theorem run_of_isKnown [ElementaryFunctions] (known : ∀ instruction ∈ program, instruction.IsKnown) :
    (∃ value, program.run = .ok value ∧ value.isFinite = true) ∨
      ∃ error, program.run = .error error ∧ ∀ name, error ≠ .unknownName name := by
  have verdict := Program.run_verdict known
  generalize program.run = result at verdict
  cases verdict with
  | value tree finite => exact Or.inl ⟨_, rfl, finite⟩
  | notFinite | leftover | nothing => exact Or.inr ⟨_, rfl, nofun⟩
  | @short _ i instruction _ _ _ names =>
    refine Or.inr ⟨_, rfl, ?_⟩
    cases instruction <;> cases names <;> nofun

theorem known_scan (source : String) : ∀ token ∈ scan source, token.HasKnownSymbol :=
  fun _ member => known_of_mem_scan member

theorem refused_or_convert (strict : Bool) (source : String) :
    (∃ complaint position, strict = true ∧ convert strict (scan source) = .error (.refused complaint position)) ∨
      ∃ program, convert strict (scan source) = .ok program ∧ ∀ instruction ∈ program, instruction.IsKnown := by
  obtain ⟨program, lenient⟩ := exists_convert_lenient (known_scan source)
  have programKnown := (inserted_of_convert lenient).isKnown (known_scan source)
  cases strict with
  | false => exact Or.inr ⟨program, lenient, programKnown⟩
  | true =>
    rcases convert_strict (scan source) with ⟨complaint, position, refused⟩ | same
    · exact Or.inl ⟨complaint, position, rfl, refused⟩
    · exact Or.inr ⟨program, same.trans lenient, programKnown⟩

theorem evaluate_text_cases [ElementaryFunctions] (strict : Bool) (source : String) :
    (∃ value, evaluate strict (.text source) = .ok value ∧ value.isFinite = true) ∨
      (∃ complaint position, strict = true ∧
        evaluate strict (.text source) = .error (.conversion (.refused complaint position))) ∨
      ∃ error, evaluate strict (.text source) = .error (.running error) ∧ ∀ name, error ≠ .unknownName name := by
  rcases refused_or_convert strict source with ⟨complaint, position, isStrict, refused⟩ | ⟨program, converted, known⟩
  · exact Or.inr (Or.inl ⟨complaint, position, isStrict, evaluate_of_convert_error rfl refused⟩)
  · have run : evaluate strict (.text source) = program.run.mapError .running := evaluate_of_convert rfl converted
    rcases run_of_isKnown known with ⟨value, ran, finite⟩ | ⟨error, ran, named⟩
    · rw [ran] at run
      exact Or.inl ⟨value, run, finite⟩
    · rw [ran] at run
      exact Or.inr (Or.inr ⟨error, run, named⟩)

/-- Every failure of a text is a fault of the expression in it. -/
theorem isOrdinary_of_evaluate [ElementaryFunctions] {strict : Bool} {failure : Failure}
    (failed : evaluate strict (.text source) = .error failure) : failure.isOrdinary = true := by
  rcases evaluate_text_cases strict source with
    ⟨value, evaluated, _⟩ | ⟨complaint, position, _, refused⟩ | ⟨error, stopped, named⟩
  · cases evaluated.symm.trans failed
  · cases refused.symm.trans failed
    rfl
  · cases stopped.symm.trans failed
    cases error with
    | unknownName name => exact absurd rfl (named name)
    | operatorUnderflow | functionUnderflow | nothingLeft | leftover | notFinite => rfl

/-- Strict rules let through listings of single expressions only, besides nothing at all. -/
theorem exists_postorder_of_strict (some_token : scan source ≠ []) (converted : convert true (scan source) = .ok program) :
    ∃ tree : Expression, program = tree.postorder := by
  have verdict := strict_verdict (known_scan source)
  rw [converted] at verdict
  cases verdict with
  | empty none => exact absurd none some_token
  | accepted derivation => exact ⟨_, rfl⟩

/-- No stage hands on what the next one does not know. A text ends in a finite value, in a complaint of strict rules or
in a report of the run, and the log has no severe line about it. When strict rules let some tokens through, nothing is
left to report but a result that is not finite. -/
theorem evaluate_text_ordinary [ElementaryFunctions] (strict : Bool) (source : String) :
    ((∃ value, evaluate strict (.text source) = .ok value ∧ value.isFinite = true) ∨
      (∃ complaint position, strict = true ∧
        evaluate strict (.text source) = .error (.conversion (.refused complaint position))) ∨
      ∃ error, evaluate strict (.text source) = .error (.running error) ∧ ∀ name, error ≠ .unknownName name) ∧
    (∀ record ∈ evaluationRecords strict (.text source), record.severe = false) ∧
    (scan source ≠ [] → ∀ program, convert true (scan source) = .ok program →
      (∃ value, evaluate true (.text source) = .ok value) ∨
        ∃ value, evaluate true (.text source) = .error (.running (.notFinite value))) := by
  refine ⟨evaluate_text_cases strict source, ?_, ?_⟩
  · intro record member
    rw [← Bool.not_eq_true]
    intro severe
    obtain ⟨failure, failed, strange⟩ := failure_of_severe member severe
    cases strange.symm.trans (isOrdinary_of_evaluate failed)
  · intro some_token program converted
    obtain ⟨tree, rfl⟩ := exists_postorder_of_strict some_token converted
    have run : evaluate true (.text source) = tree.postorder.run.mapError .running := evaluate_of_convert rfl converted
    rw [run_postorder] at run
    split at run
    · exact Or.inl ⟨tree.value, run⟩
    · exact Or.inr ⟨tree.value, run⟩

theorem evaluate_text_ordinary_quotient :
    scan "pi/(pi-pi)" ≠ [] ∧
      convert true (scan "pi/(pi-pi)") =
        .ok [.operand .pi, .operand .pi, .operand .pi, .binary "-", .binary "/"] ∧
      ∃ value, evaluate true (.text "pi/(pi-pi)") = .error (.running (.notFinite value)) := by
  have tokens : scan "pi/(pi-pi)" = [⟨.identifier "pi", 0⟩, ⟨.operator "/", 2⟩, ⟨.openParen, 3⟩, ⟨.identifier "pi", 4⟩,
      ⟨.operator "-", 6⟩, ⟨.identifier "pi", 7⟩, ⟨.closeParen, 9⟩] := by decide +kernel
  have some_token : scan "pi/(pi-pi)" ≠ [] := by simp [tokens]
  have converted : convert true (scan "pi/(pi-pi)") =
      .ok [.operand .pi, .operand .pi, .operand .pi, .binary "-", .binary "/"] := by
    rw [tokens]
    rfl
  refine ⟨some_token, converted, ?_⟩
  rcases (evaluate_text_ordinary true _).2.2 some_token _ converted with ⟨value, evaluated⟩ | infinite
  · have quotient : Binary64.div .pi (.sub .pi .pi) = .infinity false := by decide +kernel
    have run : Program.run [.operand .pi, .operand .pi, .operand .pi, .binary "-", .binary "/"] =
        resultOf [Binary64.div .pi (.sub .pi .pi)] := rfl
    rw [evaluate_of_convert rfl converted, run, quotient] at evaluated
    cases evaluated
  · exact infinite

end Reckoner

import Reckoner.Proofs.Figures
import Reckoner.Proofs.Pieces
import Reckoner.Proofs.StrictAcceptance
import Reckoner.Proofs.TextFailures

namespace Reckoner

/-- Text that no reader of lines cuts. -/
def OneLine (text : String) : Prop := '\n' ∉ text.toList ∧ '\r' ∉ text.toList

instance (text : String) : Decidable (OneLine text) := inferInstanceAs (Decidable (_ ∧ _))

theorem OneLine.append {text more : String} (first : OneLine text) (second : OneLine more) :
    OneLine (text ++ more) := by
  simp only [OneLine, String.toList_append, List.mem_append, not_or]
  exact ⟨⟨first.1, second.1⟩, first.2, second.2⟩

theorem oneLine_of_forall {text : String} (belongs : Char → Bool) (all : ∀ c ∈ text.toList, belongs c = true)
    (noFeed : belongs '\n' = false) (noReturn : belongs '\r' = false) : OneLine text := by
  constructor
  · intro member
    rw [all _ member] at noFeed
    cases noFeed
  · intro member
    rw [all _ member] at noReturn
    cases noReturn

theorem oneLine_of_isFigure {text : String} (figures : ∀ c ∈ text.toList, isFigure c = true) : OneLine text :=
  oneLine_of_forall isFigure figures (by decide) (by decide)

theorem Binary64.oneLine_text (x : Binary64) : OneLine x.text := by
  cases x with
  | nan => decide
  | infinity negative => cases negative <;> decide
  | finite negative m => exact oneLine_of_isFigure fun _ => isFigure_of_mem_text

theorem oneLine_withoutDigits {x : Binary64} : OneLine ((withoutDigits x).getD "") := by
  cases x with
  | nan => decide
  | infinity negative => cases negative <;> decide
  | finite negative m => exact ⟨nofun, nofun⟩

/-- What is shown for a double stands on one line. -/
theorem Settings.oneLine_display {settings : Settings} {asked : Option Int} {x : Binary64} {text : String}
    (shown : settings.display asked x = .ok text) : OneLine text := by
  have laidOut (digits : Nat) (shown : settings.layOut digits x = .ok text) : OneLine text := by
    unfold Settings.layOut at shown
    split at shown
    · split at shown
      · cases shown
      · split at shown
        · cases shown
          exact oneLine_of_isFigure fun _ => isFigure_of_mem_signedText fun _ => isFigure_of_mem_scientificText
        · cases shown
          exact oneLine_withoutDigits
    · split at shown
      · cases shown
      · split at shown
        · cases shown
          exact oneLine_of_isFigure fun _ => isFigure_of_mem_signedText fun _ => isFigure_of_mem_positionalText
        · cases shown
          exact oneLine_withoutDigits
  unfold Settings.display at shown
  split at shown
  · cases shown
    decide
  · simp only at shown
    split at shown
    · cases shown
    · split at shown
      · exact laidOut _ shown
      · cases shown

section Reasons

/-- The text that a token carries. -/
def TokenKind.word : TokenKind → String
  | identifier name => name
  | operator symbol => symbol
  | comma mark | period mark => mark
  | number _ | openParen | closeParen => ""

variable {source : String} {strict : Bool}

theorem Leads.oneLine_word {text lexeme : List Char} {kind : TokenKind} (leads : Leads text lexeme kind) :
    OneLine kind.word := by
  cases leads with
  | number => exact ⟨nofun, nofun⟩
  | letters _ longest =>
    refine oneLine_of_forall isNameChar (fun c member => ?_) (by decide) (by decide)
    rw [TokenKind.word, String.toList_ofList] at member
    exact longest.member.2 c member
  | symbol _ _ _ kinds =>
    have all : ∀ entry ∈ symbolKinds, OneLine entry.2.word := by decide
    exact all _ kinds

theorem oneLine_word {token : Token} (member : token ∈ scan source) : OneLine token.kind.word := by
  obtain ⟨pieces, cut, scanned⟩ := exists_cut_scan source
  rw [scanned] at member
  obtain ⟨piece, isPiece, rfl⟩ := List.mem_map.mp member
  exact (cut.leads piece isPiece).oneLine_word

theorem oneLine_of_refuses {next : Option TokenKind} {state : Conversion} {token : Token} {complaint : Complaint}
    (refuses : Refuses next state token complaint) (word : OneLine token.kind.word) : OneLine complaint.message := by
  cases refuses with
  | @number value _ _ => exact OneLine.append (by decide) value.oneLine_text
  | name | unknown | functionWithoutGroup | operator | comma | period =>
    exact .append (.append (by decide) word) (by decide)
  | openParen | closeParen | unmatched => decide

theorem oneLine_of_shortage {instruction : Instruction} {error : RunError} (known : instruction.IsKnown)
    (names : instruction.shortage? = some error) : OneLine error.message := by
  cases instruction with
  | operand value => cases names
  | binary symbol =>
    obtain ⟨op, found⟩ := known
    cases names
    rw [Operator.symbol_of_ofSymbol? found]
    cases op <;> decide
  | unary name =>
    obtain ⟨f, found⟩ := known
    cases names
    rw [UnaryFunction.name_of_ofName? found]
    cases f <;> decide

theorem oneLine_of_run [ElementaryFunctions] {program : Program} {error : RunError}
    (known : ∀ instruction ∈ program, instruction.IsKnown) (failed : program.run = .error error) :
    OneLine error.message := by
  have verdict := Program.verdict_of_run known failed
  cases verdict with
  | notFinite tree _ => exact OneLine.append (by decide) tree.value.oneLine_text
  | leftover trees _ =>
    have count : OneLine (toString (trees.map Expression.value).length) := by
      refine oneLine_of_isFigure fun c member => ?_
      rw [Nat.toString_eq_ofList_toDigits, String.toList_ofList] at member
      exact isFigure_of_isDigit (isDigit_of_mem_toDigits member)
    exact .append (.append (by decide) count) (by decide)
  | nothing => decide
  | short _ there names => exact oneLine_of_shortage (known _ (List.mem_of_getElem? there)) names

/-- Every reason why a text has no value stands on one line, whatever the text. -/
theorem oneLine_reason [ElementaryFunctions] {failure : Failure}
    (failed : evaluate strict (.text source) = .error failure) : OneLine failure.reason := by
  rcases refused_or_convert strict source with ⟨complaint, position, rfl, refused⟩ | ⟨program, converted, known⟩
  · cases (evaluate_of_convert_error rfl refused).symm.trans failed
    have verdict := strict_verdict (known_scan source)
    rw [refused] at verdict
    cases verdict with
    | @refused _ _ token _ _ split _ _ refuses _ =>
      have member : token ∈ scan source := by rw [split]; simp
      exact oneLine_of_refuses refuses (oneLine_word member)
    | endsWithoutOperand =>
      have fixed : OneLine Complaint.endsWithoutOperand.message := by decide
      exact fixed
    | unmatchedOpen =>
      have fixed : OneLine Complaint.unmatchedOpen.message := by decide
      exact fixed
  · have evaluated : evaluate strict (.text source) = program.run.mapError .running := evaluate_of_convert rfl converted
    have run := evaluated.symm.trans failed
    cases ran : program.run with
    | ok value =>
      rw [ran] at run
      cases run
    | error error =>
      rw [ran] at run
      cases run
      exact oneLine_of_run known ran

end Reasons

end Reckoner

import Reckoner.CommandLine
import Reckoner.Elementary.Rounded
import Reckoner.Proofs.AcceptedSettings
import Reckoner.Proofs.LineFiles
import Reckoner.Proofs.SavedTable

namespace Reckoner

/-- An expression as a line of input may hold it: not empty, without blanks around it and without line ends in it, and
not one of the words that end the input. -/
structure IsEntry (expression : String) : Prop where
  filled : expression ≠ ""
  stripped : strip expression.toList = expression.toList
  oneLine : OneLine expression
  noQuit : isQuit expression = false

/-- Text that holds expressions one per line. Lines end as they do on any system, and the last one need not end. -/
inductive OnePerLine : List String → List Char → Prop
  | nil : OnePerLine [] []
  | last (expression : String) : OnePerLine [expression] expression.toList
  | line {expressions : List String} {rest : List Char} (expression : String) (ending : List Char)
    (ends : ending ∈ [['\n'], ['\r'], ['\r', '\n']]) (more : OnePerLine expressions rest) :
    OnePerLine (expression :: expressions) (expression.toList ++ ending ++ rest)

theorem isLineEnd_of_oneLine {text : String} (oneLine : OneLine text) : ∀ c ∈ text.toList, isLineEnd c = false := by
  intro c member
  rw [← Bool.not_eq_true, isLineEnd_iff]
  rintro (rfl | rfl)
  · exact oneLine.1 member
  · exact oneLine.2 member

theorem IsEntry.isContent {expression : String} (entry : IsEntry expression) : IsContent expression :=
  ⟨entry.filled, entry.stripped, isLineEnd_of_oneLine entry.oneLine⟩

theorem OnePerLine.laidOut {expressions : List String} {text : List Char} (laid : OnePerLine expressions text) :
    LaidOut expressions text := by
  have noSpaces : Spaces [] := nofun
  induction laid with
  | nil => exact .nil
  | last expression =>
    have line : LaidOut [expression] ([] ++ expression.toList ++ [] ++ [] ++ []) :=
      .line noSpaces noSpaces (Or.inr ⟨rfl, rfl⟩) .nil
    simpa using line
  | @line expressions rest expression ending ends more ih =>
    have line : LaidOut (expression :: expressions) ([] ++ expression.toList ++ [] ++ ending ++ rest) :=
      .line noSpaces noSpaces (Or.inl ends) ih
    simpa using line

theorem OnePerLine.contents {expressions : List String} {text : List Char} (laid : OnePerLine expressions text)
    (entries : ∀ expression ∈ expressions, IsEntry expression) : contents text = expressions :=
  laid.laidOut.contents fun expression member => (entries expression member).isContent

section Runs

variable {settings : Settings} {options : Options} {folder : Folder} {expressions : List String}
  {answer : String → Answer}

/-- Under columns of different names a table keeps its rows as they are. -/
theorem Settings.Agree.table [ElementaryFunctions] (agree : settings.Agree) (asked : Option Bool)
    (expressions : List (Option String)) :
    settings.table asked expressions =
      .ok ⟨settings.columns, expressions.map (Row.ofExpression (settings.strictness asked))⟩ := by
  have kept (row : Row) : settings.keptRow row = row := if_neg agree.expressionColumn.2
  rw [Settings.table, if_neg agree.resultColumn, if_neg agree.expressionColumn.1.symm,
    List.map_congr_left fun row _ => kept row, List.map_id']

end Runs

end Reckoner

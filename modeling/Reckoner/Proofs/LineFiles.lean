import Mathlib.Data.List.TakeWhile
import Reckoner.Loading
import Reckoner.Proofs.ContentLines

namespace Reckoner

/-- An expression as a line may hold it: not empty, without blanks around it and without line ends in it. -/
structure IsContent (expression : String) : Prop where
  filled : expression ≠ ""
  stripped : strip expression.toList = expression.toList
  oneLine : ∀ c ∈ expression.toList, isLineEnd c = false

instance (expression : String) : Decidable (IsContent expression) :=
  decidable_of_iff (expression ≠ "" ∧ strip expression.toList = expression.toList ∧
      expression.toList.all fun c => !isLineEnd c)
    ⟨fun ⟨filled, stripped, oneLine⟩ => ⟨filled, stripped, by simpa using oneLine⟩,
      fun ⟨filled, stripped, oneLine⟩ => ⟨filled, stripped, by simpa using oneLine⟩⟩

/-- The ends of lines. The last line need not end. -/
def EndsLine (ending rest : List Char) : Prop :=
  ending ∈ [['\n'], ['\r'], ['\r', '\n']] ∨ ending = [] ∧ rest = []

instance (ending rest : List Char) : Decidable (EndsLine ending rest) := inferInstanceAs (Decidable (_ ∨ _))

/-- Blanks that stay within a line. -/
def Spaces (text : List Char) : Prop := ∀ c ∈ text, isBlank c = true ∧ isLineEnd c = false

instance (text : List Char) : Decidable (Spaces text) :=
  decidable_of_iff (text.all fun c => isBlank c && !isLineEnd c) (by simp [Spaces])

/-- Texts that hold expressions one per line and in their order, with any spaces around each, among lines of spaces. -/
inductive LaidOut : List String → List Char → Prop
  | nil : LaidOut [] []
  | spaces {expressions : List String} {spaces ending rest : List Char} : Spaces spaces → EndsLine ending rest →
      LaidOut expressions rest → LaidOut expressions (spaces ++ ending ++ rest)
  | line {expressions : List String} {expression : String} {before after ending rest : List Char} : Spaces before →
      Spaces after → EndsLine ending rest → LaidOut expressions rest →
      LaidOut (expression :: expressions) (before ++ expression.toList ++ after ++ ending ++ rest)

section Strip

variable {line : List Char}

/-- What is cut off a line are blanks. -/
theorem exists_strip (line : List Char) : ∃ before after, (∀ c ∈ before, isBlank c = true) ∧
    (∀ c ∈ after, isBlank c = true) ∧ line = before ++ strip line ++ after := by
  obtain ⟨rest, isRest⟩ : ∃ rest, rest = line.dropWhile isBlank := ⟨_, rfl⟩
  refine ⟨line.takeWhile isBlank, (rest.reverse.takeWhile isBlank).reverse, fun c => List.mem_takeWhile_imp,
    fun c member => List.mem_takeWhile_imp (List.mem_reverse.mp member), ?_⟩
  have whole : rest = strip line ++ (rest.reverse.takeWhile isBlank).reverse := by
    rw [strip, ← isRest, ← List.reverse_append, List.takeWhile_append_dropWhile, List.reverse_reverse]
  rw [List.append_assoc, ← whole, isRest, List.takeWhile_append_dropWhile]

theorem strip_strip (line : List Char) : strip (strip line) = strip line := by
  obtain ⟨before, after, blankBefore, blankAfter, whole⟩ := exists_strip line
  have cut : strip (before ++ strip line ++ after) = strip (strip line) := by
    rw [strip_append_blank blankAfter, strip_blank_append blankBefore]
  rw [← whole] at cut
  exact cut.symm

end Strip

theorem contents_ends {line ending rest : List Char} (inside : ∀ c ∈ line, isLineEnd c = false)
    (ends : EndsLine ending rest) : contents (line ++ ending ++ rest) = (content? line).toList ++ contents rest := by
  rcases ends with ends | ⟨rfl, rfl⟩
  · rw [contents_append_ending ends, contents_line inside]
  · rw [List.append_nil, List.append_nil, contents_line inside, contents_nil, List.append_nil]

theorem IsContent.content {expression : String} (isContent : IsContent expression) :
    content? expression.toList = some expression := by
  have filled : (strip expression.toList).isEmpty = false := by
    rw [isContent.stripped, List.isEmpty_eq_false_iff, ne_eq, String.toList_eq_nil_iff]
    exact isContent.filled
  rw [content?, filled, isContent.stripped, String.ofList_toList]
  rfl

theorem isContent_of_content {line : List Char} {expression : String} (inside : ∀ c ∈ line, isLineEnd c = false)
    (held : content? line = some expression) :
    IsContent expression ∧ ∃ before after, Spaces before ∧ Spaces after ∧
      line = before ++ expression.toList ++ after := by
  rw [content?] at held
  split at held
  · cases held
  · rename_i filled
    obtain rfl := Option.some.inj held
    obtain ⟨before, after, blankBefore, blankAfter, whole⟩ := exists_strip line
    have within {part : List Char} (belongs : ∀ c ∈ part, c ∈ line) : ∀ c ∈ part, isLineEnd c = false :=
      fun c member => inside c (belongs c member)
    have parts : ∀ c, (c ∈ before ∨ c ∈ strip line) ∨ c ∈ after → c ∈ line := by
      intro c member
      rw [whole, List.mem_append, List.mem_append]
      exact member
    rw [String.toList_ofList]
    refine ⟨⟨?_, ?_, ?_⟩, before, after, ?_, ?_, whole⟩
    · rw [ne_eq, ← String.toList_eq_nil_iff, String.toList_ofList]
      exact fun empty => filled (by rw [empty]; rfl)
    · rw [String.toList_ofList, strip_strip]
    · rw [String.toList_ofList]
      exact within fun c member => parts c (Or.inl (Or.inr member))
    · exact fun c member => ⟨blankBefore c member, inside c (parts c (Or.inl (Or.inl member)))⟩
    · exact fun c member => ⟨blankAfter c member, inside c (parts c (Or.inr member))⟩

theorem content_of_spaces {spaces : List Char} (blanks : Spaces spaces) : content? spaces = none := by
  rw [← List.nil_append spaces, content?_append_blank fun c member => (blanks c member).1]
  rfl

theorem spaces_of_content {line : List Char} (inside : ∀ c ∈ line, isLineEnd c = false) (held : content? line = none) :
    Spaces line := by
  rw [content?] at held
  split at held
  · rename_i nothing
    obtain ⟨before, after, blankBefore, blankAfter, whole⟩ := exists_strip line
    rw [List.isEmpty_iff.mp nothing, List.append_nil] at whole
    intro c member
    refine ⟨?_, inside c member⟩
    rw [whole] at member
    rcases List.mem_append.mp member with front | behind
    · exact blankBefore c front
    · exact blankAfter c behind
  · cases held

theorem LaidOut.contents {expressions : List String} {text : List Char} (laid : LaidOut expressions text)
    (all : ∀ expression ∈ expressions, IsContent expression) : contents text = expressions := by
  induction laid with
  | nil => rfl
  | @spaces expressions spaces ending rest blanks ends _ ih =>
    rw [contents_ends (fun c member => (blanks c member).2) ends, content_of_spaces blanks, ih all]
    rfl
  | @line expressions expression before after ending rest blankBefore blankAfter ends _ ih =>
    have isContent := all expression List.mem_cons_self
    have inside : ∀ c ∈ before ++ expression.toList ++ after, isLineEnd c = false := by
      intro c member
      rcases List.mem_append.mp member with front | behind
      · rcases List.mem_append.mp front with first | middle
        · exact (blankBefore c first).2
        · exact isContent.oneLine c middle
      · exact (blankAfter c behind).2
    have held : content? (before ++ expression.toList ++ after) = some expression := by
      rw [content?_append_blank fun c member => (blankAfter c member).1,
        content?_blank_append fun c member => (blankBefore c member).1, isContent.content]
    rw [contents_ends inside ends, held, ih fun other member => all other (List.mem_cons_of_mem _ member)]
    rfl

/-- Where a line stops, it ends. A carriage return goes with a line feed behind it. -/
theorem exists_ending {text : List Char} (stops : ∀ c ∈ text.head?, isLineEnd c = true) :
    ∃ ending rest, text = ending ++ rest ∧ EndsLine ending rest ∧ (ending = ['\r'] → rest.head? ≠ some '\n') := by
  cases text with
  | nil => exact ⟨[], [], rfl, Or.inr ⟨rfl, rfl⟩, nofun⟩
  | cons c more =>
    rcases isLineEnd_iff.mp (stops c rfl) with rfl | rfl
    · exact ⟨['\n'], more, rfl, Or.inl (by simp), by simp⟩
    · by_cases pair : more.head? = some '\n'
      · obtain ⟨rest, rfl⟩ := List.head?_eq_some_iff.mp pair
        exact ⟨['\r', '\n'], rest, rfl, Or.inl (by simp), by simp⟩
      · exact ⟨['\r'], more, rfl, Or.inl (by simp), fun _ => pair⟩

theorem EndsLine.length_lt {line ending rest : List Char} (ends : EndsLine ending rest)
    (some_text : line ++ ending ++ rest ≠ []) : rest.length < (line ++ ending ++ rest).length := by
  have positive := List.length_pos_iff.mpr some_text
  simp only [List.length_append] at positive ⊢
  rcases ends with member | ⟨rfl, rfl⟩
  · have filled : 0 < ending.length := by
      simp only [List.mem_cons, List.not_mem_nil, or_false] at member
      rcases member with rfl | rfl | rfl <;> simp
    omega
  · exact positive

theorem exists_firstLine {text : List Char} (some_text : text ≠ []) :
    ∃ line ending rest, text = line ++ ending ++ rest ∧ (∀ c ∈ line, isLineEnd c = false) ∧ EndsLine ending rest ∧
      rest.length < text.length := by
  obtain ⟨line, behind, rfl, inside, stops⟩ := exists_span isLineEnd text
  obtain ⟨ending, rest, rfl, ends, -⟩ := exists_ending stops
  rw [← List.append_assoc] at some_text ⊢
  exact ⟨line, ending, rest, rfl, inside, ends, ends.length_lt some_text⟩

/-- Every text is laid out for the expressions that are found in it. -/
theorem laidOut_contents (text : List Char) :
    LaidOut (contents text) text ∧ ∀ expression ∈ contents text, IsContent expression := by
  by_cases empty : text = []
  · subst empty
    exact ⟨.nil, nofun⟩
  · obtain ⟨line, ending, rest, whole, inside, ends, shorter⟩ := exists_firstLine empty
    obtain ⟨laid, all⟩ := laidOut_contents rest
    rw [whole, contents_ends inside ends]
    cases held : content? line with
    | none =>
      exact ⟨.spaces (spaces_of_content inside held) ends laid, all⟩
    | some expression =>
      obtain ⟨isContent, before, after, blankBefore, blankAfter, rfl⟩ := isContent_of_content inside held
      refine ⟨.line blankBefore blankAfter ends laid, fun other member => ?_⟩
      rcases List.mem_cons.mp member with rfl | later
      · exact isContent
      · exact all other later
termination_by text.length

/-- A file of lines, whatever is in it, gives the expressions that it is laid out for, and there is one list of them. -/
theorem expressions_of_lines {folder : Folder} {path text : String} (noTable : isTablePath path = false)
    (stored : folder.read path = .ok text.toUTF8) (column : String) :
    ∃ expressions, folder.expressions path column = .ok expressions ∧
      ∀ listed, (LaidOut listed text.toList ∧ ∀ expression ∈ listed, IsContent expression) ↔ listed = expressions := by
  have read : folder.expressions path column = .ok (contents text.toList) := by
    rw [Folder.expressions, noTable, stored]
    simp only [Bool.false_eq_true, if_false, bind, Except.bind, Except.mapError, decodeUtf8_toUTF8]
    rw [contentLines_eq_contents]
    rfl
  refine ⟨_, read, fun listed => ⟨fun ⟨laid, all⟩ => (laid.contents all).symm, ?_⟩⟩
  rintro rfl
  exact laidOut_contents text.toList

/-- Separators, a next line, a line separator and a no-break space are blanks around lines and within them, and end
none. -/
theorem expressions_of_lines_separators :
    (⟨[("sums.txt", "\x1c1+1\u2028 \r\u0085\r\n\n2\u20293\u00a0".toUTF8)], []⟩ : Folder).read "sums.txt" =
        .ok "\x1c1+1\u2028 \r\u0085\r\n\n2\u20293\u00a0".toUTF8 ∧
      LaidOut ["1+1", "2\u20293"] "\x1c1+1\u2028 \r\u0085\r\n\n2\u20293\u00a0".toList ∧
      (⟨[("sums.txt", "\x1c1+1\u2028 \r\u0085\r\n\n2\u20293\u00a0".toUTF8)], []⟩ : Folder).expressions "sums.txt"
        "expression" = .ok ["1+1", "2\u20293"] := by
  have stored : (⟨[("sums.txt", "\x1c1+1\u2028 \r\u0085\r\n\n2\u20293\u00a0".toUTF8)], []⟩ : Folder).read "sums.txt" =
      .ok "\x1c1+1\u2028 \r\u0085\r\n\n2\u20293\u00a0".toUTF8 := by decide +kernel
  have last : LaidOut ["2\u20293"] ([] ++ "2\u20293".toList ++ ['\u00a0'] ++ [] ++ []) :=
    .line (by decide) (by decide) (Or.inr ⟨rfl, rfl⟩) .nil
  have middle : LaidOut ["2\u20293"] (['\u0085'] ++ ['\r', '\n'] ++ ([] ++ ['\n'] ++ _)) :=
    .spaces (by decide) (Or.inl (by decide)) (.spaces (by decide) (Or.inl (by decide)) last)
  have laid : LaidOut ["1+1", "2\u20293"] (['\x1c'] ++ "1+1".toList ++ ['\u2028', ' '] ++ ['\r'] ++ _) :=
    .line (by decide) (by decide) (Or.inl (by decide)) middle
  have isContent : ∀ expression ∈ ["1+1", "2\u20293"], IsContent expression := by decide
  obtain ⟨expressions, read, only⟩ := expressions_of_lines (by decide +kernel) stored "expression"
  refine ⟨stored, laid, ?_⟩
  rw [read, (only _).mp ⟨laid, isContent⟩]

end Reckoner

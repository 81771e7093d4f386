import Mathlib.Data.List.Induction
import Mathlib.Data.List.TakeWhile
import Reckoner.Text.Lines

namespace Reckoner

/-- The characters that end a line. -/
def isLineEnd (c : Char) : Bool := c == '\n' || c == '\r'

theorem isLineEnd_iff {c : Char} : isLineEnd c = true ↔ c = '\n' ∨ c = '\r' := by simp [isLineEnd]

/-- A text up to where the first character of a kind stands. -/
theorem exists_span (stops : Char → Bool) (text : List Char) : ∃ before rest, text = before ++ rest ∧
    (∀ c ∈ before, stops c = false) ∧ ∀ c ∈ rest.head?, stops c = true := by
  refine ⟨text.takeWhile fun c => !stops c, text.dropWhile fun c => !stops c,
    List.takeWhile_append_dropWhile.symm, fun c member => by simpa using List.mem_takeWhile_imp member, ?_⟩
  intro c first
  have notInside := List.head?_dropWhile_not (fun c => !stops c) text
  rw [Option.mem_def.mp first] at notInside
  simpa using notInside

section Strip

variable {text blank : List Char}

theorem strip_blank_append (blanks : ∀ c ∈ blank, isBlank c = true) : strip (blank ++ text) = strip text := by
  rw [strip, List.dropWhile_append_of_pos blanks, strip]

theorem strip_append_blank (blanks : ∀ c ∈ blank, isBlank c = true) : strip (text ++ blank) = strip text := by
  have turned : ∀ c ∈ blank.reverse, isBlank c = true := fun c member => blanks c (List.mem_reverse.mp member)
  rw [strip, strip, List.dropWhile_append]
  split
  · rename_i empty
    have nothing : blank.dropWhile isBlank = [] := by
      rw [← List.append_nil blank, List.dropWhile_append_of_pos blanks]
      rfl
    rw [List.isEmpty_iff.mp empty, nothing]
  · rw [List.reverse_append, List.dropWhile_append_of_pos turned]

end Strip

/-- A line without the blanks around it, when there is more. -/
def content? (line : List Char) : Option String :=
  if (strip line).isEmpty then none else some (String.ofList (strip line))

theorem content?_blank_append {blank line : List Char} (blanks : ∀ c ∈ blank, isBlank c = true) :
    content? (blank ++ line) = content? line := by
  rw [content?, strip_blank_append blanks, content?]

theorem content?_append_blank {line blank : List Char} (blanks : ∀ c ∈ blank, isBlank c = true) :
    content? (line ++ blank) = content? line := by
  rw [content?, strip_append_blank blanks, content?]

theorem linesFrom_append_done (line : List Char) (done earlier : List (List Char)) (text : List Char) :
    linesFrom line (done ++ earlier) text = earlier.reverse ++ linesFrom line done text := by
  fun_induction linesFrom line done text with
  | case1 line done => simp [linesFrom]
  | case2 line done rest ih =>
    rw [linesFrom]
    exact ih
  | case3 line done c rest notPair isEnd ih =>
    rw [linesFrom.eq_3 _ _ _ _ notPair, if_pos isEnd]
    exact ih
  | case4 line done c rest notPair inside ih =>
    rw [linesFrom.eq_3 _ _ _ _ notPair, if_neg inside]
    exact ih

/-- What lines hold beside blanks, when some of the first line has been read, the latest character first. -/
def contentsFrom (line text : List Char) : List String := (linesFrom line [] text).filterMap content?

/-- What the lines of a text hold beside blanks. -/
def contents (text : List Char) : List String := contentsFrom [] text

theorem contentLines_eq_contents (text : String) : contentLines text = contents text.toList := by
  rw [contentLines, contents, contentsFrom, List.filterMap_map]
  rfl

section Contents

variable {line text before after blank : List Char} {c : Char}

theorem contentsFrom_nil : contentsFrom line [] = (content? line.reverse).toList := by
  simp only [contentsFrom, linesFrom, List.reverse_cons, List.reverse_nil, List.nil_append]
  cases content : content? line.reverse <;> simp [content]

theorem contentsFrom_cons (inside : isLineEnd c = false) :
    contentsFrom line (c :: text) = contentsFrom (c :: line) text := by
  have noEnd : ¬(c = '\n' ∨ c = '\r') := by
    rw [← isLineEnd_iff, inside]
    exact Bool.false_ne_true
  have notPair : ∀ rest, c = '\r' → text = '\n' :: rest → False := fun rest isReturn _ => noEnd (Or.inr isReturn)
  rw [contentsFrom, linesFrom.eq_3 _ _ _ _ notPair, if_neg noEnd, contentsFrom]

theorem filterMap_linesFrom_nil_done :
    (linesFrom [] [line] text).filterMap content? = (content? line).toList ++ contents text := by
  rw [← List.nil_append [line], linesFrom_append_done, List.filterMap_append, contents, contentsFrom]
  cases content : content? line <;> simp [content]

theorem contents_lineFeed : contents ('\n' :: text) = contents text := by
  have notPair : ∀ rest, '\n' = '\r' → text = '\n' :: rest → False := fun _ isReturn _ => absurd isReturn (by decide)
  rw [contents, contentsFrom, linesFrom.eq_3 _ _ _ _ notPair, if_pos (Or.inl rfl), List.reverse_nil,
    filterMap_linesFrom_nil_done]
  rfl

/-- A line end closes a line. A pair of line ends counts for one, and the line between them would hold nothing. -/
theorem contentsFrom_lineEnd (isEnd : isLineEnd c = true) :
    contentsFrom line (c :: text) = (content? line.reverse).toList ++ contents text := by
  by_cases pair : ∃ rest, c = '\r' ∧ text = '\n' :: rest
  · obtain ⟨rest, rfl, rfl⟩ := pair
    rw [contentsFrom, linesFrom, filterMap_linesFrom_nil_done, contents_lineFeed]
  · have notPair : ∀ rest, c = '\r' → text = '\n' :: rest → False :=
      fun rest isReturn begins => pair ⟨rest, isReturn, begins⟩
    rw [contentsFrom, linesFrom.eq_3 _ _ _ _ notPair, if_pos (isLineEnd_iff.mp isEnd), filterMap_linesFrom_nil_done]

theorem contentsFrom_append_lineEnd (isEnd : isLineEnd c = true) :
    contentsFrom line (before ++ c :: after) = contentsFrom line before ++ contents after := by
  induction before generalizing line with
  | nil => rw [List.nil_append, contentsFrom_lineEnd isEnd, contentsFrom_nil]
  | cons d before ih =>
    rw [List.cons_append]
    by_cases closes : isLineEnd d = true
    · rw [contentsFrom_lineEnd closes, contentsFrom_lineEnd closes, contents, ih, List.append_assoc, ← contents]
    · rw [Bool.not_eq_true] at closes
      rw [contentsFrom_cons closes, contentsFrom_cons closes, ih]

/-- What stands before a line end and what stands after it are read apart. -/
theorem contents_append_lineEnd (isEnd : isLineEnd c = true) :
    contents (before ++ c :: after) = contents before ++ contents after := contentsFrom_append_lineEnd isEnd

theorem contents_nil : contents [] = [] := rfl

theorem contents_lineEnd_cons (isEnd : isLineEnd c = true) : contents (c :: after) = contents after := by
  rw [← List.nil_append (c :: after), contents_append_lineEnd isEnd, contents_nil, List.nil_append]

theorem contents_append_ending {before after ending : List Char} (ends : ending ∈ [['\n'], ['\r'], ['\r', '\n']]) :
    contents (before ++ ending ++ after) = contents before ++ contents after := by
  simp only [List.mem_cons, List.not_mem_nil, or_false] at ends
  rw [List.append_assoc]
  rcases ends with rfl | rfl | rfl
  · exact contents_append_lineEnd (by decide)
  · exact contents_append_lineEnd (by decide)
  · have feed : contents ('\n' :: after) = contents after := contents_lineEnd_cons (by decide)
    rw [← feed]
    exact contents_append_lineEnd (by decide)

theorem contents_line (inside : ∀ c ∈ text, isLineEnd c = false) : contents text = (content? text).toList := by
  have read (line : List Char) : contentsFrom line text = (content? (line.reverse ++ text)).toList := by
    induction text generalizing line with
    | nil => rw [contentsFrom_nil, List.append_nil]
    | cons c text ih =>
      rw [contentsFrom_cons (inside c List.mem_cons_self), ih fun d member => inside d (List.mem_cons_of_mem _ member),
        List.reverse_cons, List.append_assoc, List.singleton_append]
  exact read []

end Contents

end Reckoner

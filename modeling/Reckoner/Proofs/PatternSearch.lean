import Reckoner.Proofs.LongestMatch

namespace Reckoner

namespace Pattern

section Classes

variable {belongs : Char → Bool} {c : Char} {rest : List Char}

theorem many?_cons_of_pos (first : belongs c = true) :
    many? belongs (c :: rest) = some (c :: rest.takeWhile belongs) := by
  rw [many?, List.takeWhile_cons_of_pos first]

theorem many?_cons_of_neg (first : belongs c = false) : many? belongs (c :: rest) = none := by
  rw [many?, List.takeWhile_cons_of_neg (by simp [first])]

theorem take_length_takeWhile (belongs : Char → Bool) (text : List Char) :
    text.take (text.takeWhile belongs).length = text.takeWhile belongs :=
  (List.prefix_iff_eq_take.mp (List.takeWhile_prefix belongs)).symm

end Classes

section First

variable {c : Char} {rest : List Char}

/-- Digits with a point behind them go on with the digits behind the point. -/
theorem number?_of_point {fraction : List Char} (digit : c.isDigit = true)
    (point : rest.drop (rest.takeWhile Char.isDigit).length = '.' :: fraction) :
    number? (c :: rest) = some (c :: rest.take (lexemeExtent c rest)) := by
  have run := take_length_takeWhile Char.isDigit rest
  have extent : lexemeExtent c rest =
      (rest.takeWhile Char.isDigit).length + ((fraction.takeWhile Char.isDigit).length + 1) := by
    rw [lexemeExtent, if_pos digit, point]
    exact Nat.add_right_comm _ _ _
  rw [number?, wholeNumber?, many?_cons_of_pos digit, Option.map_some, Option.some_or, List.length_cons,
    List.drop_succ_cons, point, extent, List.take_add, run, point, List.take_succ_cons, take_length_takeWhile]
  rfl

theorem number?_of_no_point (digit : c.isDigit = true)
    (noPoint : ∀ fraction, rest.drop (rest.takeWhile Char.isDigit).length ≠ '.' :: fraction) :
    number? (c :: rest) = some (c :: rest.take (lexemeExtent c rest)) := by
  have extent : lexemeExtent c rest = (rest.takeWhile Char.isDigit).length := by
    rw [lexemeExtent, if_pos digit]
    split
    · exact absurd ‹_› (noPoint _)
    · rfl
  rw [number?, wholeNumber?, many?_cons_of_pos digit, Option.map_some, Option.some_or, List.length_cons,
    List.drop_succ_cons, extent, take_length_takeWhile]
  split
  · exact absurd ‹_› (noPoint _)
  · rfl

theorem number?_of_digit (digit : c.isDigit = true) :
    number? (c :: rest) = some (c :: rest.take (lexemeExtent c rest)) := by
  by_cases pointed : ∃ fraction, rest.drop (rest.takeWhile Char.isDigit).length = '.' :: fraction
  · obtain ⟨fraction, point⟩ := pointed
    exact number?_of_point digit point
  · exact number?_of_no_point digit (not_exists.mp pointed)

theorem number?_point (rest : List Char) :
    number? ('.' :: rest) = (many? Char.isDigit rest).map fun fraction => '.' :: fraction := by
  rw [number?, wholeNumber?, many?_cons_of_neg rfl, Option.map_none, Option.none_or, pointNumber?]

theorem number?_of_neither (noDigit : c.isDigit = false) (noPoint : c ≠ '.') : number? (c :: rest) = none := by
  rw [number?, wholeNumber?, many?_cons_of_neg noDigit, Option.map_none, Option.none_or, pointNumber?]
  rintro _ ⟨rfl, _⟩
  exact noPoint rfl

/-- A character alone has a meaning when it is a symbol. -/
theorem ofLexeme_alone (noDigit : c.isDigit = false) (noLetter : isNameChar c = false) :
    TokenKind.ofLexeme? [c] = if isSymbol c then some (.ofSymbol c) else none := by
  by_cases symbol : c ∈ ['^', '+', '-', '*', '/', '%', '(', ')', ',', '.']
  · simp only [List.mem_cons, List.not_mem_nil, or_false] at symbol
    rcases symbol with rfl | rfl | rfl | rfl | rfl | rfl | rfl | rfl | rfl | rfl <;> rfl
  · have unknown : Unrecognised c := ⟨noDigit, noLetter, symbol⟩
    rw [unknown.ofLexeme, isSymbol, if_neg (by simpa using symbol)]

/-- A point alone is a mark, and before digits it begins a number. -/
theorem exists_lexeme?_point (rest : List Char) :
    ∃ kind, TokenKind.ofLexeme? ('.' :: rest.takeWhile Char.isDigit) = some kind ∧
      lexeme? ('.' :: rest) = some ('.' :: rest.takeWhile Char.isDigit, kind) := by
  rw [lexeme?, number?_point, many?]
  cases rest.takeWhile Char.isDigit with
  | nil => exact ⟨.period ".", rfl, rfl⟩
  | cons d digits => exact ⟨_, rfl, rfl⟩

theorem lexeme?_of_other (noDigit : c.isDigit = false) (noPoint : c ≠ '.') (noLetter : isNameChar c = false) :
    lexeme? (c :: rest) = if isSymbol c then some ([c], .ofSymbol c) else none := by
  rw [lexeme?, number?_of_neither noDigit noPoint, name?, many?_cons_of_neg noLetter]
  cases symbol : isSymbol c <;> simp [symbol]

end First

/-- The first alternative that matches takes what a single pass takes, and none matches at a character that no lexeme
holds. -/
theorem lexeme?_cases (c : Char) (rest : List Char) :
    (Unrecognised c ∧ lexeme? (c :: rest) = none) ∨
      ∃ lexeme kind, lexeme? (c :: rest) = some (lexeme, kind) ∧ Takes c rest lexeme kind := by
  by_cases digit : c.isDigit = true
  · have plain : c ∈ ['.', ',', '(', ')'] → rest.take (lexemeExtent c rest) ≠ [] := by
      intro mark
      simp only [List.mem_cons, List.not_mem_nil, or_false] at mark
      rcases mark with rfl | rfl | rfl | rfl <;> cases digit
    refine Or.inr ⟨_, _, ?_, rfl, ofLexeme_of_plain plain |>.trans (by rw [digit]; rfl)⟩
    rw [lexeme?, number?_of_digit digit]
  rw [Bool.not_eq_true] at digit
  by_cases point : c = '.'
  · subst point
    obtain ⟨kind, meaning, read⟩ := exists_lexeme?_point rest
    have extent : lexemeExtent '.' rest = (rest.takeWhile Char.isDigit).length := rfl
    exact Or.inr ⟨_, kind, read, by rw [extent, take_length_takeWhile], meaning⟩
  by_cases letter : isNameChar c = true
  · have letters : ∀ d ∈ c :: rest.takeWhile isNameChar, isNameChar d = true :=
      List.forall_mem_cons.mpr ⟨letter, fun d member => List.mem_takeWhile_imp member⟩
    refine Or.inr ⟨_, _, ?_, by rw [lexemeExtent_of_letter letter, take_length_takeWhile], ofLexeme_name letters⟩
    rw [lexeme?, number?_of_neither digit point, name?, many?_cons_of_pos letter]
  · rw [Bool.not_eq_true] at letter
    cases symbol : isSymbol c with
    | true =>
      refine Or.inr ⟨[c], .ofSymbol c, ?_, ?_, ?_⟩
      · rw [lexeme?_of_other digit point letter, if_pos symbol]
      · rw [lexemeExtent_of_other digit point letter, List.take_zero]
      · rw [ofLexeme_alone digit letter, if_pos symbol]
    | false =>
      have unknown : Unrecognised c := ⟨digit, letter, by simpa [isSymbol] using symbol⟩
      refine Or.inl ⟨unknown, ?_⟩
      rw [lexeme?_of_other digit point letter, symbol]
      rfl

end Pattern

/-- Searching for lexemes finds the tokens of a single pass. -/
theorem searchFrom_eq_scanFrom (position : Nat) (found : List Token) (text : List Char) :
    searchFrom position found text = scanFrom position found text := by
  match text with
  | [] => rw [searchFrom, scanFrom]
  | c :: rest =>
    rw [searchFrom, scanFrom]
    rcases Pattern.lexeme?_cases c rest with ⟨unknown, none⟩ | ⟨lexeme, kind, some, takes⟩
    · rw [unknown.lexemeExtent, List.take_zero, unknown.ofLexeme]
      split
      · rename_i found
        cases none.symm.trans found
      · exact searchFrom_eq_scanFrom _ _ _
    · have length := takes.length
      obtain ⟨taken, meaning⟩ := takes
      rw [← taken, meaning]
      split
      · rename_i found
        cases some.symm.trans found
        rw [length, List.drop_succ_cons]
        exact searchFrom_eq_scanFrom _ _ _
      · rename_i none
        cases none.symm.trans some
termination_by text.length
decreasing_by all_goals simp only [List.length_drop, List.length_cons]; omega

theorem scan_eq (source : String) : scan source = scanFrom 0 [] source.toList := searchFrom_eq_scanFrom 0 [] _

/-- No two tokens of a text share a position. -/
theorem scan_position_injective {source : String} {i j : Nat} {token other : Token}
    (here : (scan source)[i]? = some token) (there : (scan source)[j]? = some other)
    (same : token.position = other.position) : i = j := by
  rw [scan_eq] at here there
  obtain ⟨inside, rfl⟩ := List.getElem?_eq_some_iff.mp here
  obtain ⟨otherInside, rfl⟩ := List.getElem?_eq_some_iff.mp there
  have ordered := List.pairwise_iff_getElem.mp (scanFrom_pairwise 0 source.toList)
  rcases Nat.lt_trichotomy i j with before | equal | after
  · have less := ordered i j inside otherInside before
    exact absurd same (Int.ne_of_lt less)
  · exact equal
  · have less := ordered j i otherInside inside after
    exact absurd same.symm (Int.ne_of_lt less)

theorem known_of_mem_scan {source : String} {token : Token} (member : token ∈ scan source) : token.HasKnownSymbol := by
  rw [scan_eq] at member
  refine @forall_mem_scanFrom (fun _ token => token.HasKnownSymbol) ?_ (fun _ _ _ _ known => known) 0 source.toList
    token member
  intro position c rest token found symbol carries
  obtain ⟨kind, meaning, rfl⟩ := Option.map_eq_some_iff.mp found
  obtain rfl : kind = .operator symbol := carries
  exact ofLexeme_operator meaning

end Reckoner

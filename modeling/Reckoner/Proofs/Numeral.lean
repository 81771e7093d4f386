import Reckoner.Proofs.Scanning

namespace Reckoner

/-- What follows a word and does not go on with it. -/
def EndsWord (rest : List Char) : Prop :=
  ∀ c ∈ rest.head?, c.isDigit = false ∧ c ≠ '.' ∧ isNameChar c = false

/-- What follows a numeral and does not go on with it. -/
def EndsNumeral (rest : List Char) : Prop := ∀ c ∈ rest.head?, c.isDigit = false ∧ c ≠ '.'

theorem EndsWord.endsNumeral {rest : List Char} (ends : EndsWord rest) : EndsNumeral rest :=
  fun c first => ⟨(ends c first).1, (ends c first).2.1⟩

theorem takeWhile_append_of_stop {belongs : Char → Bool} {word rest : List Char}
    (all : ∀ c ∈ word, belongs c = true) (stop : ∀ c ∈ rest.head?, belongs c = false) :
    (word ++ rest).takeWhile belongs = word := by
  rw [List.takeWhile_append_of_pos all]
  cases rest with
  | nil => simp
  | cons c rest => simp [stop c rfl]

theorem dropWhile_append_of_stop {belongs : Char → Bool} {word rest : List Char}
    (all : ∀ c ∈ word, belongs c = true) (stop : ∀ c ∈ rest.head?, belongs c = false) :
    (word ++ rest).dropWhile belongs = rest := by
  rw [List.dropWhile_append_of_pos all]
  cases rest with
  | nil => rfl
  | cons c rest => simp [stop c rfl]

/-- A lexeme that is no mark alone is told by its first character. -/
theorem ofLexeme_of_plain {c : Char} {rest : List Char} (plain : c ∈ ['.', ',', '(', ')'] → rest ≠ []) :
    TokenKind.ofLexeme? (c :: rest) =
      if c.isDigit || c == '.' then some (.number ((numeralValue (c :: rest)).nearest false))
      else if isNameChar c then some (.identifier (String.ofList (c :: rest)))
      else (Operator.ofSymbol? (String.ofList (c :: rest))).map fun _ => .operator (String.ofList (c :: rest)) := by
  have noMark (mark : Char) (isMark : mark ∈ ['.', ',', '(', ')']) : c = mark → rest = [] → False := by
    rintro rfl alone
    exact plain isMark alone
  rw [TokenKind.ofLexeme?]
  all_goals exact noMark _ (by decide)

/-- A number as it is written: digits that a point with or without more digits may follow, or a point and digits. -/
structure Numeral where
  whole : List Char
  fraction : Option (List Char)
  whole_digits : ∀ c ∈ whole, c.isDigit = true
  fraction_digits : ∀ c ∈ fraction.getD [], c.isDigit = true
  has_digit : whole = [] → fraction.getD [] ≠ []

namespace Numeral

def behind (numeral : Numeral) : List Char :=
  match numeral.fraction with
  | none => []
  | some digits => '.' :: digits

def text (numeral : Numeral) : List Char := numeral.whole ++ numeral.behind

/-- All digits as one number, scaled down by the digits behind the point. -/
def decimal (numeral : Numeral) : Decimal :=
  ⟨Nat.ofDigitChars 10 (numeral.whole ++ numeral.fraction.getD []) 0, -((numeral.fraction.getD []).length : Int)⟩

def value (numeral : Numeral) : Binary64 := numeral.decimal.nearest false

variable (numeral : Numeral)

theorem behind_stops {c : Char} (first : c ∈ numeral.behind.head?) : c.isDigit = false := by
  unfold behind at first
  split at first
  · cases first
  · cases first
    rfl

theorem drop_behind : numeral.behind.drop 1 = numeral.fraction.getD [] := by
  unfold behind
  split
  · rename_i none
    rw [none]
    rfl
  · rename_i digits some
    rw [some]
    rfl

theorem numeralValue_text : numeralValue numeral.text = numeral.decimal := by
  have stop : ∀ c ∈ numeral.behind.head?, c.isDigit = false := fun c first => numeral.behind_stops first
  simp only [numeralValue, text, takeWhile_append_of_stop numeral.whole_digits stop,
    dropWhile_append_of_stop numeral.whole_digits stop, drop_behind, decimal]

theorem fraction_of_whole_nil (bare : numeral.whole = []) : ∃ c digits, numeral.fraction = some (c :: digits) := by
  have digits := numeral.has_digit bare
  cases written : numeral.fraction with
  | none =>
    rw [written] at digits
    exact absurd rfl digits
  | some fraction =>
    rw [written] at digits
    obtain ⟨c, rest, rfl⟩ := List.exists_cons_of_ne_nil digits
    exact ⟨c, rest, rfl⟩

theorem text_ne_nil : numeral.text ≠ [] := by
  intro empty
  obtain ⟨bare, noBehind⟩ := List.append_eq_nil_iff.mp empty
  obtain ⟨c, digits, written⟩ := numeral.fraction_of_whole_nil bare
  rw [behind, written] at noBehind
  cases noBehind

variable {numeral} {c : Char} {tail rest : List Char}

theorem lexemeExtent_text (split : numeral.text = c :: tail) (ends : EndsNumeral rest) :
    lexemeExtent c (tail ++ rest) = tail.length := by
  have stop : ∀ d ∈ rest.head?, d.isDigit = false := fun d first => (ends d first).1
  cases start : numeral.whole with
  | nil =>
    obtain ⟨d, digits, written⟩ := numeral.fraction_of_whole_nil start
    have fractionDigits : ∀ e ∈ d :: digits, e.isDigit = true := by simpa [written] using numeral.fraction_digits
    rw [text, behind, start, written] at split
    cases split
    have run : (d :: digits ++ rest).takeWhile Char.isDigit = d :: digits :=
      takeWhile_append_of_stop fractionDigits stop
    simp only [lexemeExtent, run]
    rfl
  | cons first more =>
    rw [text, start, List.cons_append] at split
    obtain ⟨rfl, rfl⟩ := List.cons.inj split
    have digits : ∀ d ∈ first :: more, d.isDigit = true := start ▸ numeral.whole_digits
    have run (tail : List Char) (stop : ∀ d ∈ tail.head?, d.isDigit = false) :
        (more ++ tail).takeWhile Char.isDigit = more :=
      takeWhile_append_of_stop (fun d member => digits d (List.mem_cons_of_mem _ member)) stop
    rw [lexemeExtent, if_pos (digits first List.mem_cons_self)]
    cases written : numeral.fraction with
    | none =>
      have noPoint : numeral.behind = [] := by rw [behind, written]
      rw [noPoint, List.append_nil, run rest stop, List.drop_left]
      split
      · exact absurd rfl (ends '.' rfl).2
      · rfl
    | some fraction =>
      have fractionDigits : ∀ d ∈ fraction, d.isDigit = true := by simpa [written] using numeral.fraction_digits
      have point : ∀ d ∈ ('.' :: (fraction ++ rest)).head?, d.isDigit = false := by
        intro d same
        cases same
        rfl
      have pointed : numeral.behind = '.' :: fraction := by rw [behind, written]
      rw [pointed, List.append_assoc, List.cons_append, run _ point, List.drop_left]
      simp only [takeWhile_append_of_stop fractionDigits stop, List.length_append, List.length_cons]
      omega

theorem ofLexeme_text : TokenKind.ofLexeme? numeral.text = some (.number numeral.value) := by
  have meaning := numeral.numeralValue_text
  cases start : numeral.whole with
  | nil =>
    obtain ⟨d, digits, written⟩ := numeral.fraction_of_whole_nil start
    have spelled : numeral.text = '.' :: d :: digits := by rw [text, behind, start, written]; rfl
    rw [spelled] at meaning ⊢
    rw [ofLexeme_of_plain (by simp), meaning]
    rfl
  | cons first more =>
    have digit : first.isDigit = true := numeral.whole_digits first (by rw [start]; exact List.mem_cons_self)
    have spelled : numeral.text = first :: (more ++ numeral.behind) := by rw [text, start]; rfl
    have plain : first ∈ ['.', ',', '(', ')'] → more ++ numeral.behind ≠ [] := by
      intro mark
      simp only [List.mem_cons, List.not_mem_nil, or_false] at mark
      rcases mark with rfl | rfl | rfl | rfl <;> cases digit
    rw [spelled] at meaning ⊢
    rw [ofLexeme_of_plain plain, digit, Bool.true_or, if_pos rfl, meaning]
    rfl

end Numeral

end Reckoner

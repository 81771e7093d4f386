import Mathlib.Data.List.TakeWhile
import Reckoner.Proofs.Lexemes

namespace Reckoner

/-- The longest beginning of a text among those with a property. -/
structure Longest (holds : List Char → Prop) (lexeme text : List Char) : Prop where
  member : holds lexeme
  beginning : lexeme <+: text
  longest : ∀ other, other <+: text → holds other → other.length ≤ lexeme.length

def IsNumeral (lexeme : List Char) : Prop := ∃ numeral : Numeral, numeral.text = lexeme

def IsLetters (lexeme : List Char) : Prop := lexeme ≠ [] ∧ ∀ c ∈ lexeme, isNameChar c = true

/-- The symbols with what they stand for. -/
def symbolKinds : List (Char × TokenKind) :=
  [('^', .operator "^"), ('+', .operator "+"), ('-', .operator "-"), ('*', .operator "*"), ('/', .operator "/"),
    ('%', .operator "%"), ('(', .openParen), (')', .closeParen), (',', .comma ","), ('.', .period ".")]

/-- The lexeme that a text begins with, and its kind: the longest number, else the longest run of letters, else one
symbol. -/
inductive Leads (text : List Char) : List Char → TokenKind → Prop
  | number (numeral : Numeral) : Longest IsNumeral numeral.text text → Leads text numeral.text (.number numeral.value)
  | letters {lexeme : List Char} : (∀ other, other <+: text → ¬IsNumeral other) → Longest IsLetters lexeme text →
      Leads text lexeme (.identifier (String.ofList lexeme))
  | symbol {c : Char} {kind : TokenKind} : (∀ other, other <+: text → ¬IsNumeral other) →
      (∀ other, other <+: text → ¬IsLetters other) → [c] <+: text → (c, kind) ∈ symbolKinds → Leads text [c] kind

variable {c : Char} {rest text lexeme : List Char} {kind : TokenKind}

/-- A beginning of one class of characters lies within the run of that class. -/
theorem length_le_run {belongs : Char → Bool} (beginning : lexeme <+: text) (all : ∀ c ∈ lexeme, belongs c = true) :
    lexeme.length ≤ (text.takeWhile belongs).length := by
  obtain ⟨behindIt, rfl⟩ := beginning
  rw [List.takeWhile_append_of_pos all, List.length_append]
  omega

namespace Numeral

theorem head_text (numeral : Numeral) : ∃ first more, numeral.text = first :: more ∧
    (first.isDigit = true ∨ (first = '.' ∧ ∃ d ∈ more.head?, d.isDigit = true)) := by
  by_cases bare : numeral.whole = []
  · obtain ⟨d, digits, written⟩ := numeral.fraction_of_whole_nil bare
    have digit : d.isDigit = true := numeral.fraction_digits d (by simp [written])
    refine ⟨'.', d :: digits, ?_, Or.inr ⟨rfl, d, rfl, digit⟩⟩
    rw [text, behind, bare, written]
    rfl
  · obtain ⟨first, more, split⟩ := List.exists_cons_of_ne_nil bare
    have digit : first.isDigit = true := numeral.whole_digits first (by simp [split])
    exact ⟨first, more ++ numeral.behind, by rw [text, split]; rfl, Or.inl digit⟩

theorem digit_or_point (numeral : Numeral) {c : Char} (member : c ∈ numeral.text) : c.isDigit = true ∨ c = '.' := by
  rcases List.mem_append.mp member with whole | behindIt
  · exact Or.inl (numeral.whole_digits c whole)
  · unfold behind at behindIt
    split at behindIt
    · cases behindIt
    · rename_i digits written
      rcases List.mem_cons.mp behindIt with point | digit
      · exact Or.inr point
      · exact Or.inl (numeral.fraction_digits c (by rwa [written]))

/-- No number at the beginning is longer than what scanning takes. -/
theorem length_le_extent (numeral : Numeral) (beginning : numeral.text <+: c :: rest) :
    numeral.text.length ≤ lexemeExtent c rest + 1 := by
  obtain ⟨behindIt, split⟩ := beginning
  by_cases bare : numeral.whole = []
  · obtain ⟨d, digits, written⟩ := numeral.fraction_of_whole_nil bare
    have spelled : numeral.text = '.' :: (d :: digits) := by
      rw [text, behind, bare, written]
      rfl
    rw [spelled, List.cons_append] at split
    obtain ⟨rfl, rfl⟩ := List.cons.inj split
    have run : (d :: digits).length ≤ ((d :: digits ++ behindIt).takeWhile Char.isDigit).length :=
      length_le_run (List.prefix_append _ _) (by simpa [written] using numeral.fraction_digits)
    rw [spelled, List.length_cons]
    exact Nat.succ_le_succ run
  · obtain ⟨first, more, whole⟩ := List.exists_cons_of_ne_nil bare
    have digits : ∀ d ∈ first :: more, d.isDigit = true := whole ▸ numeral.whole_digits
    rw [text, whole, List.append_assoc, List.cons_append] at split
    obtain ⟨rfl, rfl⟩ := List.cons.inj split
    rw [lexemeExtent, if_pos (digits first List.mem_cons_self), text, whole]
    have moreDigits : ∀ d ∈ more, d.isDigit = true := fun d member => digits d (List.mem_cons_of_mem _ member)
    cases written : numeral.fraction with
    | none =>
      have noPoint : numeral.behind = [] := by rw [behind, written]
      have run : more.length ≤ ((more ++ (numeral.behind ++ behindIt)).takeWhile Char.isDigit).length :=
        length_le_run (List.prefix_append _ _) moreDigits
      rw [noPoint] at run ⊢
      simp only [List.append_nil, List.length_cons]
      split <;> omega
    | some fraction =>
      have pointed : numeral.behind = '.' :: fraction := by rw [behind, written]
      have fractionDigits : ∀ d ∈ fraction, d.isDigit = true := by simpa [written] using numeral.fraction_digits
      have stop : ∀ d ∈ ('.' :: (fraction ++ behindIt)).head?, d.isDigit = false := by
        rintro d ⟨⟩
        rfl
      have run := length_le_run (List.prefix_append fraction behindIt) fractionDigits
      simp only [pointed, List.cons_append, takeWhile_append_of_stop moreDigits stop, List.drop_left,
        List.length_append, List.length_cons]
      omega

/-- What scanning takes from a digit on, or from a point before a digit, is a number. -/
theorem exists_text_eq_take (starts : c.isDigit = true ∨ (c = '.' ∧ ∃ d ∈ rest.head?, d.isDigit = true)) :
    ∃ numeral : Numeral, numeral.text = c :: rest.take (lexemeExtent c rest) := by
  have runDigits (text : List Char) : ∀ d ∈ text.takeWhile Char.isDigit, d.isDigit = true :=
    fun d member => List.mem_takeWhile_imp member
  rcases starts with digit | ⟨rfl, d, first, digit⟩
  · have wholeDigits : ∀ d ∈ c :: rest.takeWhile Char.isDigit, d.isDigit = true := by
      intro d member
      rcases List.mem_cons.mp member with rfl | later
      · exact digit
      · exact runDigits rest d later
    have parts := List.takeWhile_append_dropWhile (p := Char.isDigit) (l := rest)
    generalize run : rest.takeWhile Char.isDigit = digits at wholeDigits parts
    generalize rest.dropWhile Char.isDigit = behindIt at parts
    rw [lexemeExtent, if_pos digit, run]
    subst parts
    rw [List.drop_left]
    split
    · rename_i fraction
      refine ⟨⟨c :: digits, some (fraction.takeWhile Char.isDigit), wholeDigits, runDigits fraction, by simp⟩, ?_⟩
      have cut := List.prefix_iff_eq_take.mp (List.takeWhile_prefix (l := fraction) Char.isDigit)
      rw [text, behind, List.take_append, Nat.add_assoc, List.take_of_length_le (by omega)]
      simp [Nat.add_comm 1, ← cut]
    · refine ⟨⟨c :: digits, none, wholeDigits, by simp, by simp⟩, ?_⟩
      rw [text, behind, List.take_left, List.append_nil]
  · have nonempty : rest.takeWhile Char.isDigit ≠ [] := by
      cases rest with
      | nil => cases first
      | cons e more =>
        cases first
        simp [digit]
    have cut := List.prefix_iff_eq_take.mp (List.takeWhile_prefix (l := rest) Char.isDigit)
    refine ⟨⟨[], some (rest.takeWhile Char.isDigit), by simp, runDigits rest, fun _ => nonempty⟩, ?_⟩
    have extent : lexemeExtent '.' rest = (rest.takeWhile Char.isDigit).length := rfl
    rw [extent, ← cut]
    rfl

end Numeral

theorem not_isNumeral_of_prefix (noDigit : c.isDigit = false) (noPoint : c = '.' → ∀ d ∈ rest.head?, d.isDigit = false)
    {other : List Char} (beginning : other <+: c :: rest) : ¬IsNumeral other := by
  rintro ⟨numeral, rfl⟩
  obtain ⟨first, more, split, digit | ⟨rfl, d, next, digit⟩⟩ := numeral.head_text
  · rw [split] at beginning
    obtain ⟨rfl, _⟩ := List.cons_prefix_cons.mp beginning
    rw [noDigit] at digit
    cases digit
  · rw [split] at beginning
    obtain ⟨rfl, ⟨behindIt, rfl⟩⟩ := List.cons_prefix_cons.mp beginning
    have same : (more ++ behindIt).head? = some d := by simp [List.head?_append, Option.mem_def.mp next]
    have none := noPoint rfl d same
    rw [none] at digit
    cases digit

theorem not_isLetters_of_prefix (noLetter : isNameChar c = false) {other : List Char}
    (beginning : other <+: c :: rest) : ¬IsLetters other := by
  rintro ⟨nonempty, letters⟩
  obtain ⟨first, more, rfl⟩ := List.exists_cons_of_ne_nil nonempty
  obtain ⟨rfl, _⟩ := List.cons_prefix_cons.mp beginning
  have letter := letters first List.mem_cons_self
  rw [noLetter] at letter
  cases letter

theorem lexemeExtent_le (c : Char) (rest : List Char) : lexemeExtent c rest ≤ rest.length := by
  have digits := (List.takeWhile_prefix (l := rest) Char.isDigit).length_le
  have letters := (List.takeWhile_prefix (l := rest) isNameChar).length_le
  rw [lexemeExtent]
  split
  · split
    · rename_i fraction pointed
      have more := (List.takeWhile_prefix (l := fraction) Char.isDigit).length_le
      have length := congrArg List.length pointed
      simp only [List.length_drop, List.length_cons] at length
      omega
    · exact digits
  split
  · exact digits
  split
  · exact letters
  · exact Nat.zero_le _

/-- What scanning takes for the first lexeme, and the kind it gives to it. -/
def Takes (c : Char) (rest lexeme : List Char) (kind : TokenKind) : Prop :=
  lexeme = c :: rest.take (lexemeExtent c rest) ∧ TokenKind.ofLexeme? lexeme = some kind

theorem Takes.length (takes : Takes c rest lexeme kind) : lexeme.length = lexemeExtent c rest + 1 := by
  have within := lexemeExtent_le c rest
  rw [takes.1, List.length_cons, List.length_take]
  omega

theorem leads_number (starts : c.isDigit = true ∨ (c = '.' ∧ ∃ d ∈ rest.head?, d.isDigit = true)) :
    ∃ lexeme kind, Leads (c :: rest) lexeme kind ∧ Takes c rest lexeme kind := by
  obtain ⟨numeral, taken⟩ := Numeral.exists_text_eq_take starts
  have beginning : numeral.text <+: c :: rest := taken ▸ List.cons_prefix_cons.mpr ⟨rfl, List.take_prefix _ _⟩
  refine ⟨numeral.text, .number numeral.value, .number numeral ⟨⟨numeral, rfl⟩, beginning, ?_⟩, taken,
    numeral.ofLexeme_text⟩
  rintro _ within ⟨other, rfl⟩
  have bound := other.length_le_extent within
  have room := within.length_le
  have length := congrArg List.length taken
  simp only [List.length_cons, List.length_take] at length room
  omega

theorem leads_letters (letter : isNameChar c = true) :
    ∃ lexeme kind, Leads (c :: rest) lexeme kind ∧ Takes c rest lexeme kind := by
  have noPoint : c ≠ '.' := ne_of_isNameChar letter rfl
  have cut := List.prefix_iff_eq_take.mp (List.takeWhile_prefix (l := rest) isNameChar)
  have letters : ∀ d ∈ c :: rest.takeWhile isNameChar, isNameChar d = true := by
    intro d member
    rcases List.mem_cons.mp member with rfl | later
    · exact letter
    · exact List.mem_takeWhile_imp later
  have longest : Longest IsLetters (c :: rest.takeWhile isNameChar) (c :: rest) := by
    refine ⟨⟨List.cons_ne_nil _ _, letters⟩, List.cons_prefix_cons.mpr ⟨rfl, List.takeWhile_prefix _⟩, ?_⟩
    rintro other within ⟨_, all⟩
    have bound := length_le_run within all
    rwa [List.takeWhile_cons_of_pos letter] at bound
  refine ⟨_, _, .letters (fun other within => ?_) longest, ?_, ofLexeme_name letters⟩
  · exact not_isNumeral_of_prefix (isDigit_of_isNameChar letter) (fun point => absurd point noPoint) within
  · rw [lexemeExtent_of_letter letter, ← cut]

theorem leads_symbol (kinds : (c, kind) ∈ symbolKinds) (noPoint : c = '.' → ∀ d ∈ rest.head?, d.isDigit = false) :
    Leads (c :: rest) [c] kind ∧ Takes c rest [c] kind := by
  have noWord : c.isDigit = false ∧ isNameChar c = false ∧ TokenKind.ofLexeme? [c] = some kind := by
    simp only [symbolKinds, List.mem_cons, Prod.mk.injEq, List.not_mem_nil, or_false] at kinds
    rcases kinds with ⟨rfl, rfl⟩ | ⟨rfl, rfl⟩ | ⟨rfl, rfl⟩ | ⟨rfl, rfl⟩ | ⟨rfl, rfl⟩ | ⟨rfl, rfl⟩ | ⟨rfl, rfl⟩ |
      ⟨rfl, rfl⟩ | ⟨rfl, rfl⟩ | ⟨rfl, rfl⟩ <;> decide
  obtain ⟨noDigit, noLetter, meaning⟩ := noWord
  have extent : lexemeExtent c rest = 0 := by
    by_cases point : c = '.'
    · subst point
      have noDigits : rest.takeWhile Char.isDigit = [] := by
        cases rest with
        | nil => rfl
        | cons d more => exact List.takeWhile_cons_of_neg (by simp [noPoint rfl d rfl])
      show (rest.takeWhile Char.isDigit).length = 0
      rw [noDigits, List.length_nil]
    · exact lexemeExtent_of_other noDigit point noLetter
  refine ⟨.symbol (fun _ => not_isNumeral_of_prefix noDigit noPoint) (fun _ => not_isLetters_of_prefix noLetter)
    ⟨rest, rfl⟩ kinds, ?_, meaning⟩
  rw [extent, List.take_zero]

/-- A character begins a lexeme, the longest there is, or no lexeme holds it. -/
theorem unrecognised_or_leads (c : Char) (rest : List Char) :
    Unrecognised c ∨ ∃ lexeme kind, Leads (c :: rest) lexeme kind ∧ Takes c rest lexeme kind := by
  by_cases number : c.isDigit = true ∨ (c = '.' ∧ ∃ d ∈ rest.head?, d.isDigit = true)
  · exact Or.inr (leads_number number)
  by_cases letter : isNameChar c = true
  · exact Or.inr (leads_letters letter)
  by_cases symbol : c ∈ ['^', '+', '-', '*', '/', '%', '(', ')', ',', '.']
  · obtain ⟨⟨_, kind⟩, kinds, rfl⟩ : ∃ entry ∈ symbolKinds, entry.1 = c := List.mem_map.mp symbol
    refine Or.inr ⟨_, kind, leads_symbol kinds fun point d next => ?_⟩
    rw [← Bool.not_eq_true]
    exact fun digit => number (Or.inr ⟨point, d, next, digit⟩)
  · refine Or.inl ⟨?_, ?_, symbol⟩
    · rw [← Bool.not_eq_true]
      exact fun digit => number (Or.inl digit)
    · rwa [← Bool.not_eq_true]

theorem isNumeral_point_digit {d : Char} (digit : d.isDigit = true) : IsNumeral ['.', d] :=
  ⟨⟨[], some [d], nofun, by simp [digit], by simp⟩, rfl⟩

namespace Leads

theorem beginning (leads : Leads text lexeme kind) : lexeme <+: text := by
  cases leads with
  | number numeral longest => exact longest.beginning
  | letters _ longest => exact longest.beginning
  | symbol _ _ first _ => exact first

theorem ne_nil (leads : Leads text lexeme kind) : lexeme ≠ [] := by
  cases leads with
  | number numeral _ => exact numeral.text_ne_nil
  | letters _ longest => exact longest.member.1
  | symbol _ _ _ _ => exact List.cons_ne_nil _ _

theorem recognised (leads : Leads text lexeme kind) (member : c ∈ lexeme) : ¬Unrecognised c := by
  rintro ⟨noDigit, noLetter, noSymbol⟩
  cases leads with
  | number numeral _ =>
    rcases numeral.digit_or_point member with digit | rfl
    · rw [noDigit] at digit
      cases digit
    · exact noSymbol (by decide)
  | letters _ longest =>
    have letter := longest.member.2 c member
    rw [noLetter] at letter
    cases letter
  | symbol _ _ _ kinds =>
    obtain rfl := List.mem_singleton.mp member
    exact noSymbol (List.mem_map_of_mem (f := Prod.fst) kinds)

/-- A character of the lexeme is the character of the text at its place. -/
theorem getElem? (leads : Leads (text.drop start) lexeme kind) {i : Nat} (inside : i < lexeme.length) :
    text[start + i]? = lexeme[i]? := by
  obtain ⟨behindIt, split⟩ := leads.beginning
  rw [← List.getElem?_drop, ← split, List.getElem?_append_left inside]

theorem period {mark : String} (leads : Leads text lexeme (.period mark)) :
    lexeme = ['.'] ∧ ∀ other, other <+: text → ¬IsNumeral other := by
  cases leads with
  | @symbol c _ noNumber _ _ kinds =>
    have point : c = '.' := And.left (by simpa [symbolKinds] using kinds)
    exact ⟨by rw [point], noNumber⟩

/-- A point in a lexeme belongs to a number, or it is a mark of its own. -/
theorem of_point (leads : Leads text lexeme kind) {i : Nat} (point : lexeme[i]? = some '.') :
    (IsNumeral lexeme ∧ (i = 0 → ∃ d ∈ text[1]?, d.isDigit = true)) ∨ (i = 0 ∧ kind = .period ".") := by
  cases leads with
  | number numeral longest =>
    refine Or.inl ⟨longest.member, fun first => ?_⟩
    subst first
    obtain ⟨c, more, split, starts⟩ := numeral.head_text
    obtain ⟨behindIt, whole⟩ := longest.beginning
    rw [split] at point whole
    obtain rfl : c = '.' := Option.some.inj point
    rcases starts with digit | ⟨_, d, next, digit⟩
    · cases digit
    · refine ⟨d, ?_, digit⟩
      rw [← whole, List.cons_append, List.getElem?_cons_succ, ← List.head?_eq_getElem?, List.head?_append,
        Option.mem_def.mp next]
      rfl
  | letters _ longest =>
    have letter := longest.member.2 '.' (List.mem_of_getElem? point)
    cases letter
  | @symbol c _ _ _ _ kinds =>
    obtain ⟨inside, same⟩ := List.getElem?_eq_some_iff.mp point
    obtain rfl : i = 0 := by simpa using inside
    obtain rfl : c = '.' := same
    exact Or.inr ⟨rfl, by simpa [symbolKinds] using kinds⟩

end Leads

end Reckoner

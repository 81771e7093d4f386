import Mathlib.Data.List.Chain
import Reckoner.Proofs.Numeral

namespace Reckoner

/-- The pieces that formulas are written with. -/
inductive Lexeme
  | number (numeral : Numeral)
  | constant (spelling : String) (spelled : spelling ∈ piSpellings)
  | function (f : UnaryFunction)
  | operator (op : Operator)
  | openParen
  | closeParen

namespace Lexeme

def text : Lexeme → List Char
  | number numeral => numeral.text
  | constant spelling _ => spelling.toList
  | function f => f.name.toList
  | operator op => op.symbol.toList
  | openParen => ['(']
  | closeParen => [')']

def kind : Lexeme → TokenKind
  | number numeral => .number numeral.value
  | constant spelling _ => .identifier spelling
  | function f => .identifier f.name
  | operator op => .operator op.symbol
  | openParen => .openParen
  | closeParen => .closeParen

/-- Whether more characters may make a lexeme longer. -/
def isWord : Lexeme → Bool
  | number _ | constant _ _ | function _ => true
  | operator _ | openParen | closeParen => false

/-- Lexemes that are told apart without anything between them. -/
def Apart (lexeme next : Lexeme) : Prop := lexeme.isWord = false ∨ next.isWord = false

end Lexeme

/-- Characters that no lexeme holds. -/
def Unrecognised (c : Char) : Prop :=
  c.isDigit = false ∧ isNameChar c = false ∧ c ∉ ['^', '+', '-', '*', '/', '%', '(', ')', ',', '.']

/-- Texts that spell lexemes, with unrecognised characters anywhere between them. -/
inductive Spells : List Char → List Lexeme → Prop
  | done : Spells [] []
  | skip {c : Char} {text : List Char} {lexemes : List Lexeme} : Unrecognised c → Spells text lexemes →
      Spells (c :: text) lexemes
  | piece {text : List Char} {lexemes : List Lexeme} (lexeme : Lexeme) : Spells text lexemes →
      Spells (lexeme.text ++ text) (lexeme :: lexemes)

variable {c : Char} {tail rest text : List Char} {lexemes : List Lexeme}

theorem isDigit_of_isNameChar (letter : isNameChar c = true) : c.isDigit = false := by
  rw [← Bool.not_eq_true]
  intro digit
  have most : c.val ≤ '9'.val := of_decide_eq_true ((Bool.and_eq_true _ _).mp digit).2
  rcases (Bool.or_eq_true _ _).mp letter with alpha | underscore
  · rcases (Bool.or_eq_true _ _).mp alpha with upper | lower
    · have least : 'A'.val ≤ c.val := (of_decide_eq_true upper).1
      exact absurd (UInt32.le_trans least most) (by decide)
    · have least : 'a'.val ≤ c.val := of_decide_eq_true ((Bool.and_eq_true _ _).mp lower).1
      exact absurd (UInt32.le_trans least most) (by decide)
  · obtain rfl := eq_of_beq underscore
    cases digit

theorem ne_of_isNameChar {mark : Char} (letter : isNameChar c = true) (noLetter : isNameChar mark = false) :
    c ≠ mark := by
  rintro rfl
  rw [letter] at noLetter
  cases noLetter

theorem lexemeExtent_of_letter (letter : isNameChar c = true) :
    lexemeExtent c rest = (rest.takeWhile isNameChar).length := by
  have noPoint : (c == '.') = false := beq_eq_false_iff_ne.mpr (ne_of_isNameChar letter rfl)
  rw [lexemeExtent, isDigit_of_isNameChar letter, noPoint, letter]
  rfl

theorem lexemeExtent_of_other (noDigit : c.isDigit = false) (noPoint : c ≠ '.') (noLetter : isNameChar c = false) :
    lexemeExtent c rest = 0 := by
  rw [lexemeExtent, noDigit, beq_eq_false_iff_ne.mpr noPoint, noLetter]
  rfl

theorem lexemeExtent_name (letters : ∀ d ∈ c :: tail, isNameChar d = true) (ends : EndsWord rest) :
    lexemeExtent c (tail ++ rest) = tail.length := by
  have run : (tail ++ rest).takeWhile isNameChar = tail :=
    takeWhile_append_of_stop (fun d member => letters d (List.mem_cons_of_mem _ member)) fun d first =>
      (ends d first).2.2
  rw [lexemeExtent_of_letter (letters c List.mem_cons_self), run]

theorem ofLexeme_name (letters : ∀ d ∈ c :: tail, isNameChar d = true) :
    TokenKind.ofLexeme? (c :: tail) = some (.identifier (String.ofList (c :: tail))) := by
  have letter := letters c List.mem_cons_self
  have noPoint : (c == '.') = false := beq_eq_false_iff_ne.mpr (ne_of_isNameChar letter rfl)
  have plain (mark : c ∈ ['.', ',', '(', ')']) : tail ≠ [] := by
    simp only [List.mem_cons, List.not_mem_nil, or_false] at mark
    rcases mark with rfl | rfl | rfl | rfl <;> cases letter
  rw [ofLexeme_of_plain plain, isDigit_of_isNameChar letter, noPoint, letter]
  rfl

def IsName (name : String) : Prop := ∃ c tail, name.toList = c :: tail ∧ ∀ d ∈ c :: tail, isNameChar d = true

theorem isName_of_piSpelling {spelling : String} (spelled : spelling ∈ piSpellings) : IsName spelling := by
  simp only [piSpellings, List.mem_cons, List.not_mem_nil, or_false] at spelled
  rcases spelled with rfl | rfl | rfl | rfl <;> exact ⟨_, _, rfl, List.all_eq_true.mp rfl⟩

theorem isName_name (f : UnaryFunction) : IsName f.name := by
  cases f <;> exact ⟨_, _, rfl, List.all_eq_true.mp rfl⟩

/-- A name that nothing makes longer is read as a whole. -/
theorem IsName.scans {name : String} (isName : IsName name) (ends : EndsWord rest) :
    ∃ c tail, name.toList = c :: tail ∧ lexemeExtent c (tail ++ rest) = tail.length ∧
      TokenKind.ofLexeme? (c :: tail) = some (.identifier name) := by
  obtain ⟨c, tail, split, letters⟩ := isName
  have whole : String.ofList (c :: tail) = name := by rw [← split, String.ofList_toList]
  have meaning := ofLexeme_name letters
  rw [whole] at meaning
  exact ⟨c, tail, split, lexemeExtent_name letters ends, meaning⟩

namespace Lexeme

/-- A lexeme that nothing makes longer is read as a whole. -/
theorem scans (lexeme : Lexeme) (ends : lexeme.isWord = true → EndsWord rest) :
    ∃ c tail, lexeme.text = c :: tail ∧ lexemeExtent c (tail ++ rest) = tail.length ∧
      TokenKind.ofLexeme? (c :: tail) = some lexeme.kind := by
  cases lexeme with
  | number numeral =>
    obtain ⟨c, tail, split⟩ := List.exists_cons_of_ne_nil numeral.text_ne_nil
    have meaning : TokenKind.ofLexeme? numeral.text = some (.number numeral.value) := Numeral.ofLexeme_text
    rw [split] at meaning
    exact ⟨c, tail, split, Numeral.lexemeExtent_text split (ends rfl).endsNumeral, meaning⟩
  | constant spelling spelled => exact (isName_of_piSpelling spelled).scans (ends rfl)
  | function f => exact (isName_name f).scans (ends rfl)
  | operator op => cases op <;> exact ⟨_, [], rfl, rfl, rfl⟩
  | openParen | closeParen => exact ⟨_, [], rfl, rfl, rfl⟩

theorem endsWord {lexeme : Lexeme} (noWord : lexeme.isWord = false) (text : List Char) :
    EndsWord (lexeme.text ++ text) := by
  cases lexeme with
  | number | constant | function => cases noWord
  | operator op => cases op <;> (rintro c ⟨⟩; decide)
  | openParen | closeParen =>
    rintro c ⟨⟩
    decide

end Lexeme

namespace Unrecognised

theorem endsWord (unknown : Unrecognised c) (text : List Char) : EndsWord (c :: text) := by
  rintro d ⟨⟩
  obtain ⟨noDigit, noLetter, noSymbol⟩ := unknown
  refine ⟨noDigit, ?_, noLetter⟩
  rintro rfl
  exact noSymbol (by decide)

theorem lexemeExtent (unknown : Unrecognised c) (rest : List Char) : lexemeExtent c rest = 0 := by
  obtain ⟨noDigit, noPoint, noLetter⟩ := unknown.endsWord rest c rfl
  exact lexemeExtent_of_other noDigit noPoint noLetter

theorem ofLexeme (unknown : Unrecognised c) : TokenKind.ofLexeme? [c] = none := by
  obtain ⟨noDigit, noPoint, noLetter⟩ := unknown.endsWord [] c rfl
  obtain ⟨_, _, noSymbol⟩ := unknown
  have marks : ∀ mark ∈ ['.', ',', '(', ')'], mark ∈ ['^', '+', '-', '*', '/', '%', '(', ')', ',', '.'] := by simp
  have noOperator : Operator.ofSymbol? (String.ofList [c]) = none := by
    cases found : Operator.ofSymbol? (String.ofList [c]) with
    | none => rfl
    | some op =>
      have letters := congrArg String.toList (Operator.symbol_of_ofSymbol? found)
      rw [String.toList_ofList] at letters
      cases op <;> cases letters <;> exact absurd (by decide) noSymbol
  rw [ofLexeme_of_plain fun mark => absurd (marks c mark) noSymbol, noDigit, beq_eq_false_iff_ne.mpr noPoint,
    noLetter, noOperator]
  rfl

end Unrecognised

/-- Behind a word comes an unrecognised character or a lexeme that is no word. -/
theorem Spells.endsWord (spells : Spells text lexemes) (noWord : ∀ lexeme ∈ lexemes.head?, lexeme.isWord = false) :
    EndsWord text := by
  cases spells with
  | done => nofun
  | skip unknown _ => exact unknown.endsWord _
  | piece lexeme _ => exact Lexeme.endsWord (noWord lexeme rfl) _

/-- Scanning finds the lexemes of a text, and nothing else. -/
theorem scanFrom_spells (spells : Spells text lexemes) (apart : lexemes.IsChain Lexeme.Apart) (position : Nat) :
    (scanFrom position [] text).map Token.kind = lexemes.map Lexeme.kind := by
  induction spells generalizing position with
  | done => simp [scanFrom]
  | @skip c text lexemes unknown _ ih =>
    rw [scanFrom_cons, firstToken?, unknown.lexemeExtent, List.take_zero, unknown.ofLexeme]
    exact ih apart _
  | @piece text lexemes lexeme spelled ih =>
    obtain ⟨first, later⟩ := List.isChain_cons.mp apart
    have ends : lexeme.isWord = true → EndsWord text := by
      intro isWord
      refine spelled.endsWord fun next isNext => (first next isNext).resolve_left ?_
      rw [isWord]
      exact Bool.noConfusion
    obtain ⟨c, tail, split, extent, meaning⟩ := lexeme.scans ends
    rw [split, List.cons_append, scanFrom_cons, firstToken?, extent, List.take_left, List.drop_left, meaning,
      List.map_append, ih later]
    rfl

end Reckoner

import Reckoner.Operator
import Reckoner.Decimal

namespace Reckoner

/-- What a lexeme stands for. A token made by hand may carry a symbol or a mark that no text gives. -/
inductive TokenKind
  | number (value : Binary64)
  | identifier (name : String)
  | operator (symbol : String)
  | openParen
  | closeParen
  | comma (mark : String)
  | period (mark : String)
deriving DecidableEq

/-- A lexeme and the place of its first character, counted in characters from zero. -/
structure Token where
  kind : TokenKind
  position : Int
deriving DecidableEq

/-- The letters of names: those of ASCII and the underscore. -/
def isNameChar (c : Char) : Bool := c.isAlpha || c == '_'

/-- The exact value of digits with at most one point among them. -/
def numeralValue (lexeme : List Char) : Decimal :=
  let whole := lexeme.takeWhile Char.isDigit
  let fraction := (lexeme.dropWhile Char.isDigit).drop 1
  ⟨Nat.ofDigitChars 10 (whole ++ fraction) 0, -(fraction.length : Int)⟩

/-- What a symbol stands for: an operator of the table, or one of the four marks. -/
def TokenKind.ofSymbol (c : Char) : TokenKind :=
  let text := String.ofList [c]
  if (Operator.ofSymbol? text).isSome then .operator text
  else match c with
    | '(' => .openParen
    | ')' => .closeParen
    | ',' => .comma text
    | _ => .period text

/-! The pattern of lexemes. Each function takes what its part of the pattern matches at the beginning of a text, and a
run of a class of characters goes as far as it can. -/

namespace Pattern

/-- One character of a class or more. -/
def many? (belongs : Char → Bool) (text : List Char) : Option (List Char) :=
  match text.takeWhile belongs with
  | [] => none
  | run => some run

/-- The part `[0-9]+(\.[0-9]*)?`. -/
def wholeNumber? (text : List Char) : Option (List Char) :=
  (many? Char.isDigit text).map fun whole =>
    match text.drop whole.length with
    | '.' :: rest => whole ++ '.' :: rest.takeWhile Char.isDigit
    | _ => whole

/-- The part `\.[0-9]+`. -/
def pointNumber? : List Char → Option (List Char)
  | '.' :: rest => (many? Char.isDigit rest).map fun fraction => '.' :: fraction
  | _ => none

/-- A number, in the first of its two forms that matches. -/
def number? (text : List Char) : Option (List Char) := (wholeNumber? text).or (pointNumber? text)

/-- The part `[A-Za-z_]+`. -/
def name? (text : List Char) : Option (List Char) := many? isNameChar text

/-- The part `[\^+\-*/%(),.]`. -/
def isSymbol (c : Char) : Bool := ['^', '+', '-', '*', '/', '%', '(', ')', ',', '.'].contains c

/-- The lexeme that a text begins with, and what it stands for: a number, else a name, else a symbol. The number comes
first, so that a point before a digit is no symbol. -/
def lexeme? (text : List Char) : Option (List Char × TokenKind) :=
  match number? text with
  | some lexeme => some (lexeme, .number ((numeralValue lexeme).nearest false))
  | none =>
    match name? text with
    | some lexeme => some (lexeme, .identifier (String.ofList lexeme))
    | none => (text.head?.filter isSymbol).map fun c => ([c], .ofSymbol c)

theorem length_pos_of_many? {belongs : Char → Bool} {text run : List Char} (found : many? belongs text = some run) :
    0 < run.length := by
  unfold many? at found
  split at found
  · cases found
  · rename_i nonempty
    cases found
    exact List.length_pos_iff.mpr nonempty

theorem length_pos_of_number? {text lexeme : List Char} (found : number? text = some lexeme) : 0 < lexeme.length := by
  rcases Option.or_eq_some_iff.mp found with whole | ⟨_, point⟩
  · obtain ⟨run, digits, rfl⟩ := Option.map_eq_some_iff.mp whole
    have positive := length_pos_of_many? digits
    split
    · exact List.length_pos_iff.mpr (by simp)
    · exact positive
  · unfold pointNumber? at point
    split at point
    · obtain ⟨run, _, rfl⟩ := Option.map_eq_some_iff.mp point
      simp
    · cases point

/-- No lexeme is empty. -/
theorem length_pos_of_lexeme? {text lexeme : List Char} {kind : TokenKind}
    (found : lexeme? text = some (lexeme, kind)) : 0 < lexeme.length := by
  unfold lexeme? at found
  split at found
  · cases found
    exact length_pos_of_number? ‹_›
  · split at found
    · cases found
      exact length_pos_of_many? ‹_›
    · obtain ⟨c, _, same⟩ := Option.map_eq_some_iff.mp found
      cases same
      exact Nat.zero_lt_one

end Pattern

/-- Searches the characters from `position` on for lexemes and collects their tokens, the latest first. A lexeme begins
as far to the left as it can, and the search goes on behind it. -/
def searchFrom (position : Nat) (found : List Token) : List Char → List Token
  | [] => found.reverse
  | c :: rest =>
    match here : Pattern.lexeme? (c :: rest) with
    | some (lexeme, kind) =>
      searchFrom (position + lexeme.length) (⟨kind, position⟩ :: found) ((c :: rest).drop lexeme.length)
    | none => searchFrom (position + 1) found rest
termination_by text => text.length
decreasing_by
  · have positive := Pattern.length_pos_of_lexeme? here
    simp only [List.length_drop, List.length_cons]
    omega
  · simp

/-- The tokens of a text. What is in no lexeme is passed over. -/
def scan (text : String) : List Token := searchFrom 0 [] text.toList

end Reckoner

import Reckoner.Outcome
import Reckoner.Settings

namespace Reckoner

inductive DisplayError
  | missingDigits
  | malformedDigits (text : String)
  | manyDigits
  | countlessDigits
  | noDigits
  | noDigitsScientific
  | textDigits
  | textDigitsScientific
deriving DecidableEq

def DisplayError.message : DisplayError → String
  | missingDigits => "Format specifier missing precision"
  | malformedDigits text => s!"Invalid format specifier '.{text}g' for object of type 'float'"
  | manyDigits => "precision too big"
  | countlessDigits => "Too many decimal digits in format string"
  | noDigits => "precision must be greater than 0 if fractional=False"
  | noDigitsScientific => "precision must be >= 0"
  | textDigits => "'<' not supported between instances of 'str' and 'int'"
  | textDigitsScientific => "unsupported operand type(s) for -: 'str' and 'int'"

/-- Refuses numbers of digits beyond those that can be counted with 31 binary digits. -/
def countableDigits (digits : Nat) : Except DisplayError Nat :=
  if 0x7fffffff < digits then .error .manyDigits else .ok digits

/-- Reads a number of digits from text. With 63 binary digits the reading itself ends. -/
def digitsInText (text : String) : Except DisplayError Nat :=
  let digits := text.toList.takeWhile Char.isDigit
  let count := Nat.ofDigitChars 10 digits 0
  if digits.isEmpty then .error .missingDigits
  else if 0x7fffffffffffffff < count then .error .countlessDigits
  else if digits.length < text.length then .error (.malformedDigits text)
  else countableDigits count

/-- The number of digits that a value stands for. Only whole numbers and their texts do. -/
def digitsIn (precision : Value) : Except DisplayError Nat := digitsInText precision.shown

namespace Magnitude

/-- The decimal that is shown: the shortest one that reads back when the digits suffice for it, and otherwise the
value rounded to as many digits as there are. -/
def significant (m : Magnitude) (digits : Nat) : Decimal :=
  let shortest := m.shortest
  if shortest.digits.length ≤ digits then shortest else (m.rounded digits).trim

/-- Whether several digits were asked for and rounding down left one digit and zeros. -/
def endsInZeros (m : Magnitude) (digits : Nat) : Bool :=
  let shown := m.significant digits
  let (numerator, denominator) := m.ratioAt shown.exponent
  1 < digits && digits < m.shortest.digits.length && shown.digits.length == 1 &&
    shown.coefficient * denominator < numerator

end Magnitude

/-- All digits in their places, and a point only when digits follow it. -/
def positionalText (d : Decimal) : List Char :=
  let (whole, fraction) := d.split
  if fraction.isEmpty then whole else whole ++ '.' :: fraction

/-- One digit before the point and an exponent. The point is left out when no digit follows it, unless digits were
there and have been dropped for being zeros. -/
def scientificText (droppedZeros : Bool) (d : Decimal) : List Char :=
  match d.digits with
  | [digit] => (if droppedZeros then [digit, '.'] else [digit]) ++ exponentText d.leading
  | digit :: more => digit :: '.' :: more ++ exponentText d.leading
  | [] => []

def withoutDigits : Binary64 → Option String
  | .nan => some "nan"
  | .infinity negative => some (if negative then "-inf" else "inf")
  | .finite _ _ => none

def signedText (negative : Bool) (text : List Char) : String :=
  String.ofList (if negative then '-' :: text else text)

/-- A value as wide as the display, which decides the layout. No double has more than 767 significant digits. -/
def Binary64.roundedMagnitude (x : Binary64) (digits : Nat) : Binary64 :=
  match x with
  | .finite _ m => (m.rounded (min (max digits 1) 800)).nearest false
  | other => other.abs

/-- Whether a value is shown with an exponent: below the lower threshold, or not below the upper one. -/
def Settings.isScientific (settings : Settings) (x : Binary64) (digits : Nat) : Bool :=
  let magnitude := x.roundedMagnitude digits
  magnitude.lt settings.sciLower || !magnitude.isNaN && !settings.sciUpper.isNaN && !magnitude.lt settings.sciUpper

/-- The digits to use: those asked for, or the setting when none are asked for. -/
def Settings.digitsFor (settings : Settings) (asked : Option Int) : Value :=
  match asked with
  | some digits => if digits = 0 then settings.precision else .int digits
  | none => settings.precision

/-- The text shown for a double with a number of digits, in the layout of its magnitude. -/
def Settings.layOut (settings : Settings) (digits : Nat) (x : Binary64) : Except DisplayError String :=
  if settings.isScientific x digits then
    if digits = 0 then .error .noDigitsScientific
    else match x with
      | .finite negative m =>
        .ok (signedText negative (scientificText (m.endsInZeros digits) (m.significant digits)))
      | other => .ok ((withoutDigits other).getD "")
  else if digits = 0 then .error .noDigits
  else match x with
    | .finite negative m => .ok (signedText negative (positionalText (m.significant digits)))
    | other => .ok ((withoutDigits other).getD "")

/-- The text shown for a double. A number of digits given as text is good for the choice of the layout only. -/
def Settings.display (settings : Settings) (asked : Option Int) (x : Binary64) : Except DisplayError String :=
  if x.isZero then .ok "0"
  else
    let precision := settings.digitsFor asked
    match digitsIn precision with
    | .error error => .error error
    | .ok digits =>
      match precision with
      | .int _ => settings.layOut digits x
      | _ => .error (if settings.isScientific x digits then .textDigitsScientific else .textDigits)

/-- The text shown for a result. A text is shown as it is, whatever the settings and the digits asked for. -/
def Settings.displayCell (settings : Settings) (asked : Option Int) : Cell → Except DisplayError String
  | .double x => settings.display asked x
  | .text text => .ok text

def Settings.displayEvaluated [ElementaryFunctions] (settings : Settings) (asked : Option Bool) (expression : Value) :
    Except DisplayError String :=
  settings.displayCell none (evaluatedCell (settings.strictness asked) expression)

end Reckoner

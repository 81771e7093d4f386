import Reckoner.Text.Printable

namespace Reckoner

/-- The low digits of a number to the base sixteen, as many as asked for. -/
def hexText : (width number : Nat) → List Char
  | 0, _ => []
  | width + 1, number => hexText width (number / 16) ++ [Nat.digitChar (number % 16)]

/-- A character inside quoted text. The quote in use and the backslash get a backslash, and what cannot be shown
is named by its code point with two, four or eight digits. -/
def quotedChar (quote c : Char) : List Char :=
  if c == quote || c == '\\' then ['\\', c]
  else if c == '\n' then ['\\', 'n']
  else if c == '\r' then ['\\', 'r']
  else if c == '\t' then ['\\', 't']
  else if isPrintable c then [c]
  else if c.toNat < 0x100 then '\\' :: 'x' :: hexText 2 c.toNat
  else if c.toNat < 0x10000 then '\\' :: 'u' :: hexText 4 c.toNat
  else '\\' :: 'U' :: hexText 8 c.toNat

/-- Text between single quotes, or between double quotes when it holds single quotes and no double ones. -/
def quoted (text : String) : String :=
  let single : Char := '\x27'
  let double : Char := '\x22'
  let chars := text.toList
  let quote := if chars.contains single && !chars.contains double then double else single
  String.ofList (quote :: chars.flatMap (quotedChar quote) ++ [quote])

end Reckoner

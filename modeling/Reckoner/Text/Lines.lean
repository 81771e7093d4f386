import Reckoner.Text.Blank

namespace Reckoner

/-- Cuts text at line feeds, carriage returns, and pairs of a carriage return and a line feed. The current line and
the lines before it stand with the latest first. -/
def linesFrom (line : List Char) (done : List (List Char)) : List Char → List (List Char)
  | [] => (line.reverse :: done).reverse
  | '\r' :: '\n' :: rest => linesFrom [] (line.reverse :: done) rest
  | c :: rest =>
    if c = '\n' ∨ c = '\r' then linesFrom [] (line.reverse :: done) rest else linesFrom (c :: line) done rest

def lines (text : List Char) : List (List Char) := linesFrom [] [] text

/-- The lines that hold more than blanks, without the blanks around them. -/
def contentLines (text : String) : List String :=
  ((lines text.toList).map strip).filterMap fun line =>
    if line.isEmpty then none else some (String.ofList line)

end Reckoner

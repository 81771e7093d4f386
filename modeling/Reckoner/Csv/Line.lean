namespace Reckoner

/-- A record is a list of fields, a field a list of characters. -/
abbrev CsvRecord := List (List Char)

/-- A quote inside quotes is written twice. -/
def doubleQuotes (field : List Char) : List Char := field.flatMap fun c => if c = '\x22' then [c, c] else [c]

/-- A field stands between quotes when a comma, a quote or a line feed in it would be taken for more than itself. -/
def csvField (field : List Char) : List Char :=
  if field.any fun c => c == ',' || c == '\x22' || c == '\n' then
    '\x22' :: doubleQuotes field ++ ['\x22']
  else field

def csvLine (fields : CsvRecord) : List Char := [','].intercalate (fields.map csvField) ++ ['\n']

end Reckoner

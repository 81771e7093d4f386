import Reckoner.Decimal

namespace Reckoner

namespace Decimal

/-- The digits before and after the point when the number is written out. Places that no digit reaches are zeros. -/
def split (d : Decimal) : List Char × List Char :=
  let digits := d.digits
  if 0 ≤ d.exponent then (digits ++ List.replicate d.exponent.toNat '0', [])
  else
    let places := (-d.exponent).toNat
    if places < digits.length then digits.splitAt (digits.length - places)
    else (['0'], List.replicate (places - digits.length) '0' ++ digits)

end Decimal

/-- The mark of an exponent, its sign and at least two digits. -/
def exponentText (exponent : Int) : List Char :=
  let digits := Nat.toDigits 10 exponent.natAbs
  'e' :: (if exponent < 0 then '-' else '+') :: (if digits.length < 2 then '0' :: digits else digits)

/-- The text of a finite number from its shortest decimal: positional with at least one place after the point from
`10 ^ -4` up to below `10 ^ 16`, and otherwise one digit before the point and an exponent. -/
def finiteText (d : Decimal) : List Char :=
  let leading := d.leading
  if -4 ≤ leading ∧ leading < 16 then
    let (whole, fraction) := d.split
    whole ++ '.' :: (if fraction.isEmpty then ['0'] else fraction)
  else
    match d.digits with
    | [digit] => digit :: exponentText leading
    | digit :: more => digit :: '.' :: more ++ exponentText leading
    | [] => []

/-- The text of a double in messages, records and tables. It reads back as the same double. -/
def Binary64.text : Binary64 → String
  | .nan => "nan"
  | .infinity negative => if negative then "-inf" else "inf"
  | .finite negative m =>
    let number := if m.rank = 0 then ['0', '.', '0'] else finiteText m.shortest
    String.ofList (if negative then '-' :: number else number)

end Reckoner

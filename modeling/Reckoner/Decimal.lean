import Reckoner.Nearest

namespace Reckoner

/-- The decimal number `coefficient * 10 ^ exponent`. -/
structure Decimal where
  coefficient : Nat
  exponent : Int
deriving DecidableEq

namespace Decimal

def digits (d : Decimal) : List Char := Nat.toDigits 10 d.coefficient

def leading (d : Decimal) : Int := d.exponent + d.digits.length - 1

/-- Moves zeros at the end of the coefficient into the exponent. -/
def trim (d : Decimal) : Decimal :=
  if d.coefficient ≠ 0 ∧ d.coefficient % 10 = 0 then trim ⟨d.coefficient / 10, d.exponent + 1⟩ else d
termination_by d.coefficient
decreasing_by omega

def rank (d : Decimal) : Nat :=
  nearestRank (d.coefficient * tenTo d.exponent.toNat * quantaPerUnit) (tenTo (-d.exponent).toNat)

def nearest (negative : Bool) (d : Decimal) : Binary64 := .ofRank negative d.rank

end Decimal

/-- How many decimal digits a number has; zero has one. Long numbers lose sixteen digits at a time. -/
def digitCount (n : Nat) : Nat :=
  if n < 10 then 1
  else if n < 10000000000000000 then digitCount (n / 10) + 1
  else digitCount (n / 10000000000000000) + 16
termination_by n
decreasing_by all_goals omega

namespace Magnitude

/-- The value over a power of ten, as a ratio. -/
def ratioAt (m : Magnitude) (exponent : Int) : Nat × Nat :=
  (m.quanta * tenTo (-exponent).toNat, quantaPerUnit * tenTo exponent.toNat)

/-- The exponent of the leading decimal digit of a magnitude other than zero. The least of them is above
`10 ^ -324`, so the whole part of the value times `10 ^ 324` shows the place. -/
def leading (m : Magnitude) : Int := (digitCount (m.quanta * tenTo 324 / quantaPerUnit) : Int) - 325

/-- The exact value rounded to a multiple of a power of ten; a half goes to the even multiple. -/
def roundedAt (m : Magnitude) (exponent : Int) : Decimal :=
  let (numerator, denominator) := m.ratioAt exponent
  ⟨nearestEven numerator denominator, exponent⟩

/-- The exact value rounded to a positive number of significant digits. -/
def rounded (m : Magnitude) (digits : Nat) : Decimal := m.roundedAt (m.leading + 1 - digits)

/-- Of the two multiples of a power of ten next to the value, the nearer one that reads back as the value. -/
def readableAt? (m : Magnitude) (exponent : Int) : Option Decimal :=
  let (numerator, denominator) := m.ratioAt exponent
  let below := numerator / denominator
  let near := nearestEven numerator denominator
  let far := if near = below then below + 1 else below
  [near, far].findSome? fun coefficient =>
    let decimal : Decimal := ⟨coefficient, exponent⟩
    if decimal.rank = m.rank then some decimal else none

/-- Tries finer and finer powers of ten. -/
def shortestFrom (m : Magnitude) : (fuel : Nat) → (exponent : Int) → Decimal
  | 0, exponent => m.roundedAt exponent
  | fuel + 1, exponent => (m.readableAt? exponent).getD (m.shortestFrom fuel (exponent - 1))

/-- The shortest decimal that reads back as the value, and the nearest among the shortest. Seventeen digits always
read back. -/
def shortest (m : Magnitude) : Decimal := (m.shortestFrom 16 m.leading).trim

end Magnitude

end Reckoner

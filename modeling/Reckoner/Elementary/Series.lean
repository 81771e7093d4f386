import Reckoner.Elementary.Bracket

namespace Reckoner

/-- Sums `power / odd` over the odd numbers, each power being `factor` times the one before. While `factor` is
at most a half in size, what is left out is less than twice the next power. -/
def sumOverOdd (precision : Nat) (factor : Bracket) : (terms odd : Nat) → (power sum : Bracket) → Bracket
  | 0, _, power, sum => sum.widen (2 * power.reach)
  | terms + 1, odd, power, sum =>
    sumOverOdd precision factor terms (odd + 2) (power.mul precision factor) (sum.add (power.divNat odd))

/-- The area hyperbolic tangent of a number of size at most a third. -/
def artanhSeries (precision : Nat) (x : Bracket) : Bracket :=
  sumOverOdd precision (x.mul precision x) (precision / 3 + 2) 1 x ⟨0, 0⟩

/-- The angle whose tangent is a number of size at most a quarter. -/
def arctanSeries (precision : Nat) (x : Bracket) : Bracket :=
  sumOverOdd precision (x.mul precision x).neg (precision / 4 + 2) 1 x ⟨0, 0⟩

/-- Sums the terms `term`, `term * factor / ((n + 1) * (n + 2))` and so on. With `factor` of size at most one,
what is left out is less than twice the next term. -/
def sumOverFactorial (precision : Nat) (factor : Bracket) : (terms n : Nat) → (term sum : Bracket) → Bracket
  | 0, _, term, sum => sum.widen (2 * term.reach)
  | terms + 1, n, term, sum =>
    sumOverFactorial precision factor terms (n + 2)
      ((term.mul precision factor).divNat ((n + 1) * (n + 2))) (sum.add term)

/-- The sine of an angle of size at most one. Of larger angles no more is said than that a sine is at most one. -/
def sineSeries (precision : Nat) (x : Bracket) : Bracket :=
  if twoTo precision < x.reach then .unit precision
  else sumOverFactorial precision (x.mul precision x).neg (precision / 8 + 10) 1 x ⟨0, 0⟩

/-- The cosine, to the same extent. -/
def cosineSeries (precision : Nat) (x : Bracket) : Bracket :=
  if twoTo precision < x.reach then .unit precision
  else sumOverFactorial precision (x.mul precision x).neg (precision / 8 + 10) 0 (.one precision) ⟨0, 0⟩

/-- The exponential of a number of size at most one, as its even terms and its odd terms. -/
def exponentialSeries (precision : Nat) (x : Bracket) : Bracket :=
  let square := x.mul precision x
  (sumOverFactorial precision square (precision / 8 + 10) 0 (.one precision) ⟨0, 0⟩).add
    (sumOverFactorial precision square (precision / 8 + 10) 1 x ⟨0, 0⟩)

/-- The ratio of a circle to its diameter, as `16 arctan (1 / 5) - 4 arctan (1 / 239)`. -/
def piBracket (precision : Nat) : Bracket :=
  ((arctanSeries precision (.ofRatio precision 1 5)).scale 16).sub
    ((arctanSeries precision (.ofRatio precision 1 239)).scale 4)

/-- The natural logarithm of two, as `2 artanh (1 / 3)`. -/
def logTwoBracket (precision : Nat) : Bracket := (artanhSeries precision (.ofRatio precision 1 3)).scale 2

/-- The natural logarithm of ten, as that of eight and that of five quarters together. It is above two, so that the
bounds stay away from zero. -/
def logTenBracket (precision : Nat) : Bracket :=
  (((logTwoBracket precision).scale 3).add ((artanhSeries precision (.ofRatio precision 1 9)).scale 2)).atLeast
    precision 2

end Reckoner

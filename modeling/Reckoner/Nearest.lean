import Reckoner.Binary64

namespace Reckoner

/-- The whole number nearest to a ratio. A half goes to the even neighbour. -/
def nearestEven (numerator denominator : Nat) : Nat :=
  let floor := numerator / denominator
  let twice := 2 * (numerator % denominator)
  if twice < denominator then floor
  else if denominator < twice then floor + 1
  else floor + floor % 2

/-- The rank of the magnitude nearest to a ratio of quanta, in a format without upper end. The spacing is
the least power of two that leaves fewer than 53 binary digits before the point. When rounding carries
into the next power of two, the sum is the rank of that power without a further case. -/
def nearestRank (numerator denominator : Nat) : Nat :=
  let scale := Nat.log2 (numerator / denominator) - 52
  scale * ranksPerBinade + nearestEven numerator (denominator * twoTo scale)

namespace Binary64

/-- The double nearest to a ratio of quanta with the given sign. From half a spacing above the largest
magnitude on it is infinity. -/
def nearest (negative : Bool) (numerator denominator : Nat) : Binary64 :=
  ofRank negative (nearestRank numerator denominator)

/-- The double nearest to `mantissa * 2 ^ exponent`. -/
def nearestScaled (mantissa exponent : Int) : Binary64 :=
  let shift := exponent + 1074
  nearest (mantissa < 0) (mantissa.natAbs * twoTo shift.toNat) (twoTo (-shift).toNat)

end Binary64

end Reckoner

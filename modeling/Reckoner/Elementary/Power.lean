import Reckoner.Elementary.Exponential

namespace Reckoner

/-- An odd whole number times a power of two. -/
structure Dyadic where
  odd : Nat
  exponent : Int

namespace Dyadic

/-- Takes factors of two out of a number, at most as many as it has binary digits. -/
def takeTwos : (fuel number : Nat) → (exponent : Int) → Dyadic
  | 0, number, exponent => ⟨number, exponent⟩
  | fuel + 1, number, exponent =>
    if number % 2 = 0 then takeTwos fuel (number / 2) (exponent + 1) else ⟨number, exponent⟩

def ofMagnitude (m : Magnitude) : Dyadic := takeTwos 53 m.significand ((m.scale : Int) - 1074)

/-- The square root, when it is an odd number times a power of two again. -/
def root? (x : Dyadic) : Option Dyadic :=
  let root := wholeRoot x.odd
  if x.exponent % 2 = 0 && root * root == x.odd then some ⟨root, x.exponent / 2⟩ else none

def roots? : (times : Nat) → Dyadic → Option Dyadic
  | 0, x => some x
  | times + 1, x => x.root?.bind (roots? times)

/-- The number of factors of a power, once the roots are taken which the denominator of the exponent asks for. -/
def times (exponent : Dyadic) : Nat := exponent.odd * twoTo exponent.exponent.toNat

/-- The power when it may be a double or half-way between two. A denominator `2 ^ k` of the exponent asks for `k`
square roots. Of the power `n` of an odd number above one, the last binary digit is too far from the first to
round without loss when `n` is above 40, and its reciprocal is no finite binary number at all. -/
def pow? (base : Dyadic) (negative : Bool) (exponent : Dyadic) : Option Binary64 :=
  (base.roots? (-exponent.exponent).toNat).bind fun base =>
    let shift := base.exponent * (if negative then -(exponent.times : Int) else exponent.times)
    if base.odd = 1 then
      some (.nearestScaled 1 (max (-3000) (min 3000 shift)))
    else if negative || 40 < exponent.times then none
    else some (.nearestScaled (Nat.pow base.odd exponent.times) shift)

def isWhole (x : Dyadic) : Bool := 0 ≤ x.exponent

def isOdd (x : Dyadic) : Bool := x.exponent = 0

end Dyadic

/-- Bounds on the logarithm of a power, for a base in quanta and an exponent in quanta with a sign. -/
def powerLogBracket (base : Nat) (exponent : Int) (precision : Nat) : Bracket :=
  ((logBracket precision base).scale exponent).divNat quantaPerUnit

namespace Binary64

/-- The exponential of a number known through bounds. A number far beyond the range of the format is not worth the sum,
its exponential overflows or vanishes for certain. -/
def expOfBounds (bounds : Nat → Bracket) : Binary64 :=
  let limit : Int := exponentLimit * twoTo firstPrecision
  if limit < (bounds firstPrecision).lower then infinity false
  else if (bounds firstPrecision).upper < -limit then zero false
  else settle fun precision => some (exponentialEnclosure precision (bounds precision))

/-- The power of two positive finite doubles, the exponent taken with a sign: it is the exponential of a product. -/
def powPositive (base : Magnitude) (negative : Bool) (exponent : Magnitude) : Binary64 :=
  ((Dyadic.ofMagnitude base).pow? negative (.ofMagnitude exponent)).getD
    (expOfBounds (powerLogBracket base.quanta (signedQuanta negative exponent)))

/-- Gives a value the sign of an odd power. -/
def signed (negative : Bool) (x : Binary64) : Binary64 := if negative then x.negate else x

/-- The power. The power zero is one, and so is every power of one, even where the other operand is no number. A
negative base has whole powers only, and the odd ones among them keep its sign, also for zero and infinity. -/
def pow (base exponent : Binary64) : Binary64 :=
  let one := ofBits 0x3ff0000000000000
  if exponent.isZero || base == one then one
  else match base, exponent with
    | nan, _ => nan
    | _, nan => nan
    | infinity _, infinity negative' => if negative' then zero false else infinity false
    | infinity negative, finite negative' m' =>
      let odd := negative && (Dyadic.ofMagnitude m').isOdd
      if negative' then zero odd else infinity odd
    | finite _ m, infinity negative' =>
      if m.quanta = quantaPerUnit then one
      else if (m.quanta < quantaPerUnit) = negative' then infinity false else zero false
    | finite negative m, finite negative' m' =>
      let exponent := Dyadic.ofMagnitude m'
      let odd := negative && exponent.isOdd
      if m.rank = 0 then if negative' then infinity odd else zero odd
      else if negative && !exponent.isWhole then nan
      else signed odd (powPositive m negative' m')

end Binary64

end Reckoner

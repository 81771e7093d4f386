import Reckoner.Arithmetic

namespace Reckoner

/-- Two bounds around a real number, counted in units of `2 ^ -precision`. Every operation rounds the lower
bound down and the upper bound up, so the exact result of exact operands stays inside. -/
structure Bracket where
  lower : Int
  upper : Int

namespace Bracket

/-- Division that rounds up, for a positive divisor. -/
def ceilDiv (numerator divisor : Int) : Int := -(-numerator / divisor)

def ofRatio (precision : Nat) (numerator : Int) (denominator : Nat) : Bracket :=
  let scaled := numerator * twoTo precision
  ⟨scaled / denominator, ceilDiv scaled denominator⟩

def one (precision : Nat) : Bracket := ⟨twoTo precision, twoTo precision⟩

/-- The bounds of all numbers of size at most one. -/
def unit (precision : Nat) : Bracket := ⟨-twoTo precision, twoTo precision⟩

def neg (x : Bracket) : Bracket := ⟨-x.upper, -x.lower⟩

def add (x y : Bracket) : Bracket := ⟨x.lower + y.lower, x.upper + y.upper⟩

def sub (x y : Bracket) : Bracket := x.add y.neg

/-- The size that no number within the bounds exceeds. -/
def reach (x : Bracket) : Int := max (-x.lower) x.upper

def widen (x : Bracket) (slack : Int) : Bracket := ⟨x.lower - slack, x.upper + slack⟩

/-- The bounds of a number that is known to be at least a whole number. -/
def atLeast (precision : Nat) (bound : Nat) (x : Bracket) : Bracket := ⟨max (bound * twoTo precision) x.lower, x.upper⟩

def scale (factor : Int) (x : Bracket) : Bracket :=
  if factor < 0 then ⟨factor * x.upper, factor * x.lower⟩ else ⟨factor * x.lower, factor * x.upper⟩

def divNat (x : Bracket) (divisor : Nat) : Bracket := ⟨x.lower / divisor, ceilDiv x.upper divisor⟩

/-- Drops binary digits at the end. -/
def coarsen (x : Bracket) (digits : Nat) : Bracket := x.divNat (twoTo digits)

def mul (precision : Nat) (x y : Bracket) : Bracket :=
  let a := x.lower * y.lower
  let b := x.lower * y.upper
  let c := x.upper * y.lower
  let d := x.upper * y.upper
  coarsen ⟨min (min a b) (min c d), max (max a b) (max c d)⟩ precision

/-- The quotient by a bracket that lies above zero. -/
def div (precision : Nat) (x y : Bracket) : Bracket :=
  let low := x.lower * twoTo precision
  let high := x.upper * twoTo precision
  ⟨low / (if low < 0 then y.lower else y.upper), ceilDiv high (if high < 0 then y.upper else y.lower)⟩

/-- The quotient, when the bounds of the divisor show that it is positive. -/
def div? (precision : Nat) (x y : Bracket) : Option Bracket := if 0 < y.lower then some (x.div precision y) else none

/-- The square root of a bracket that does not lie below zero. -/
def root (precision : Nat) (x : Bracket) : Bracket :=
  ⟨wholeRoot (x.lower.toNat * twoTo precision), wholeRoot (x.upper.toNat * twoTo precision) + 1⟩

end Bracket

/-- Bounds on a real number with a common binary exponent. -/
structure Enclosure where
  bounds : Bracket
  exponent : Int

/-- The double nearest to the lower bound. -/
def Enclosure.rounded (e : Enclosure) : Binary64 := .nearestScaled e.bounds.lower e.exponent

/-- The double to which both bounds round, if it is one. The number between them rounds to it as well. -/
def Enclosure.agreed? (e : Enclosure) : Option Binary64 :=
  if e.rounded = .nearestScaled e.bounds.upper e.exponent then some e.rounded else none

/-- Rounds a real number known through bounds of any precision: the precision is doubled until both bounds
round alike. After the last doubling the lower bound decides alone, and without bounds there is no result. -/
def settleWithin (enclose : Nat → Option Enclosure) : (doublings precision : Nat) → Binary64
  | 0, precision => (enclose precision).elim .nan Enclosure.rounded
  | doublings + 1, precision =>
    match (enclose precision).bind Enclosure.agreed? with
    | some result => result
    | none => settleWithin enclose doublings (2 * precision)

def firstPrecision : Nat := 128

/-- The last attempt works with more than sixteen thousand binary digits, many times what the smallest results and the
closest calls of the functions need. -/
def mostDoublings : Nat := 7

/-- The nearest double to the number that the bounds enclose. -/
def settle (enclose : Nat → Option Enclosure) : Binary64 := settleWithin enclose mostDoublings firstPrecision

/-- Bounds in units of `2 ^ -precision`. -/
def Enclosure.fixed (precision : Nat) (bounds : Bracket) : Enclosure := ⟨bounds, -precision⟩

/-- The nearest double to the number with the given bounds in units of `2 ^ -precision`. -/
def settleFixed (bounds : Nat → Bracket) : Binary64 :=
  settle fun precision => some (.fixed precision (bounds precision))

end Reckoner

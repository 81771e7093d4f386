import Reckoner.Nearest

namespace Reckoner

/-- One step of Newton's iteration for the square root, repeated while it still goes down. -/
def rootBelow (square guess : Nat) : Nat :=
  let next := (guess + square / guess) / 2
  if next < guess then rootBelow square next else guess
termination_by guess

/-- The whole part of a square root. The first guess is a power of two above it. -/
def wholeRoot (square : Nat) : Nat :=
  if square = 0 then 0 else rootBelow square (twoTo (Nat.log2 square / 2 + 1))

namespace Binary64

def negate : Binary64 → Binary64
  | nan => nan
  | infinity negative => infinity (!negative)
  | finite negative m => finite (!negative) m

/-- The sum of two finite doubles. An exact zero is negative only when both summands are. -/
def addFinite (negative : Bool) (m : Magnitude) (negative' : Bool) (m' : Magnitude) : Binary64 :=
  let sum := signedQuanta negative m + signedQuanta negative' m'
  if sum = 0 then zero (negative && negative') else nearest (sum < 0) sum.natAbs 1

def add : Binary64 → Binary64 → Binary64
  | nan, _ => nan
  | _, nan => nan
  | infinity negative, infinity negative' => if negative = negative' then infinity negative else nan
  | infinity negative, finite _ _ => infinity negative
  | finite _ _, infinity negative => infinity negative
  | finite negative m, finite negative' m' => addFinite negative m negative' m'

def sub (a b : Binary64) : Binary64 := add a b.negate

def mul : Binary64 → Binary64 → Binary64
  | nan, _ => nan
  | _, nan => nan
  | infinity negative, infinity negative' => infinity (negative ^^ negative')
  | infinity negative, finite negative' m => if m.rank = 0 then nan else infinity (negative ^^ negative')
  | finite negative m, infinity negative' => if m.rank = 0 then nan else infinity (negative ^^ negative')
  | finite negative m, finite negative' m' =>
    nearest (negative ^^ negative') (m.quanta * m'.quanta) quantaPerUnit

/-- The quotient. A number over zero is infinite with the product of the signs, zero over zero is no number. -/
def div : Binary64 → Binary64 → Binary64
  | nan, _ => nan
  | _, nan => nan
  | infinity _, infinity _ => nan
  | infinity negative, finite negative' _ => infinity (negative ^^ negative')
  | finite negative _, infinity negative' => zero (negative ^^ negative')
  | finite negative m, finite negative' m' =>
    if m'.rank = 0 then if m.rank = 0 then nan else infinity (negative ^^ negative')
    else nearest (negative ^^ negative') (m.quanta * quantaPerUnit) m'.quanta

/-- The remainder of the division that truncates toward zero. It is exact and has the sign of the dividend. -/
def rem : Binary64 → Binary64 → Binary64
  | nan, _ => nan
  | _, nan => nan
  | infinity _, _ => nan
  | finite negative m, infinity _ => finite negative m
  | finite negative m, finite _ m' =>
    if m'.rank = 0 then nan else nearest negative (m.quanta % m'.quanta) 1

/-- The square root. Twice the whole root, made odd when the root is not whole, lies on the same side of every
boundary between two doubles as twice the root itself. -/
def sqrt : Binary64 → Binary64
  | nan => nan
  | infinity negative => if negative then nan else infinity false
  | finite negative m =>
    if m.rank = 0 then finite negative m
    else if negative then nan
    else
      let square := m.quanta * quantaPerUnit
      let root := wholeRoot square
      nearest false (if root * root = square then 2 * root else 2 * root + 1) 2

end Binary64

end Reckoner

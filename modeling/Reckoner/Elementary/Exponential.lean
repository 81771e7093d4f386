import Reckoner.Elementary.Series

namespace Reckoner

/-- The natural logarithm of a positive number of quanta. The number is written as a power of two times a factor
near one, and the factor `f` has the logarithm `2 artanh ((f - 1) / (f + 1))`. -/
def logBracket (precision quanta : Nat) : Bracket :=
  let log := Nat.log2 quanta
  let exponent := if twoTo (2 * log + 1) < quanta * quanta then log + 1 else log
  let nearOne := artanhSeries precision (.ofRatio precision ((quanta : Int) - twoTo exponent) (quanta + twoTo exponent))
  (nearOne.scale 2).add ((logTwoBracket precision).scale ((exponent : Int) - 1074))

/-- The exponential of a number known through bounds in units of `2 ^ -precision`: a whole number of doublings is
split off, and the rest has a size below a half. Bounds so far apart that the rest may exceed one are not worth the
sum, and a power of four is what lies above the exponential for certain. -/
def exponentialEnclosure (precision : Nat) (x : Bracket) : Enclosure :=
  let logTwo := logTwoBracket precision
  let doublings := (2 * x.lower + logTwo.lower) / (2 * logTwo.lower)
  let rest := x.sub (logTwo.scale doublings)
  if twoTo precision < rest.reach then ⟨⟨0, 1⟩, 2 * (max 0 (x.upper / twoTo precision) + 1)⟩
  else ⟨exponentialSeries precision rest, doublings - precision⟩

namespace Binary64

/-- Beyond this size of the exponent the exponential is infinity or zero for certain. -/
def exponentLimit : Nat := 800

/-- The exponential. Only at zero is it a double or half-way between two. -/
def exp : Binary64 → Binary64
  | nan => nan
  | infinity negative => if negative then zero false else infinity false
  | finite negative m =>
    if m.rank = 0 then ofBits 0x3ff0000000000000
    else if exponentLimit * quantaPerUnit < m.quanta then if negative then zero false else infinity false
    else settle fun precision =>
      some (exponentialEnclosure precision (.ofRatio precision (signedQuanta negative m) quantaPerUnit))

/-- The natural logarithm. Only at one is it a double or half-way between two. -/
def ln : Binary64 → Binary64
  | nan => nan
  | infinity negative => if negative then nan else infinity false
  | finite negative m =>
    if m.rank = 0 then infinity true
    else if negative then nan
    else if m.quanta = quantaPerUnit then zero false
    else settleFixed fun precision => logBracket precision m.quanta

/-- The power of ten that a number of quanta is, if the exponent is whole and not negative. -/
def wholePowerOfTen? (quanta : Nat) : Option Nat :=
  (List.range 23).find? fun exponent => quanta == tenTo exponent * quantaPerUnit

/-- The logarithm to the base ten. It is whole at the powers of ten and irrational at every other double. -/
def log10 : Binary64 → Binary64
  | nan => nan
  | infinity negative => if negative then nan else infinity false
  | finite negative m =>
    if m.rank = 0 then infinity true
    else if negative then nan
    else match wholePowerOfTen? m.quanta with
      | some exponent => nearest false (exponent * quantaPerUnit) 1
      | none => settleFixed fun precision => (logBracket precision m.quanta).div precision (logTenBracket precision)

end Binary64

end Reckoner

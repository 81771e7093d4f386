import Reckoner.Elementary.Series

namespace Reckoner

/-- How many quarter turns are nearest to an angle that is given in quanta, and the angle that is left over. The
circle ratio is taken with as many more digits as the angle has before its point. -/
def quarterTurns (precision quanta : Nat) : Int × Bracket :=
  let extra := Nat.log2 quanta - 1074 + 8
  let fine := precision + extra
  let pi := piBracket fine
  let angle := Bracket.ofRatio fine quanta quantaPerUnit
  let turns := (4 * angle.lower + pi.lower) / (2 * pi.lower)
  (turns, (((angle.scale 2).sub (pi.scale turns)).divNat 2).coarsen extra)

/-- The sine of an angle in quanta, moved ahead by some quarter turns. -/
def sineBracket (ahead precision quanta : Nat) : Bracket :=
  let (turns, rest) := quarterTurns precision quanta
  match (turns + ahead) % 4 with
  | 0 => sineSeries precision rest
  | 1 => cosineSeries precision rest
  | 2 => (sineSeries precision rest).neg
  | _ => (cosineSeries precision rest).neg

/-- The tangent of an angle in quanta, once the cosine is known to be other than zero. -/
def tangentBracket? (precision quanta : Nat) : Option Bracket :=
  let sine := sineBracket 0 precision quanta
  let cosine := sineBracket 1 precision quanta
  (sine.div? precision cosine).or (sine.neg.div? precision cosine.neg)

/-- Half the angle has the tangent `x / (1 + √(1 + x²))`. -/
def halfAngleTangent (precision : Nat) (x : Bracket) : Bracket :=
  let one := Bracket.one precision
  x.div precision (one.add ((one.add (x.mul precision x)).root precision))

/-- The angle whose tangent lies between zero and one, by way of a quarter of the angle. -/
def arctanBracket (precision : Nat) (x : Bracket) : Bracket :=
  (arctanSeries precision (halfAngleTangent precision (halfAngleTangent precision x))).scale 4

/-- The angle whose tangent is given in quanta. Above one it is what the reciprocal leaves of a quarter turn. -/
def arctanOfQuanta (precision quanta : Nat) : Bracket :=
  if quanta ≤ quantaPerUnit then arctanBracket precision (.ofRatio precision quanta quantaPerUnit)
  else ((piBracket precision).divNat 2).sub (arctanBracket precision (.ofRatio precision quantaPerUnit quanta))

/-- The angle whose sine is given in quanta, at most one. Half of it has the tangent `x / (1 + √(1 - x²))`. -/
def arcsinBracket (precision quanta : Nat) : Bracket :=
  let unit := quantaPerUnit
  let cosine := (Bracket.ofRatio precision ((unit : Int) * unit - quanta * quanta) (unit * unit)).root precision
  let tangent := (Bracket.ofRatio precision quanta unit).div precision ((Bracket.one precision).add cosine)
  (arctanBracket precision tangent).scale 2

/-- The angle whose cosine is given in quanta, of size at most one: what the angle of the sine leaves of a
quarter turn. -/
def arccosBracket (precision : Nat) (negative : Bool) (quanta : Nat) : Bracket :=
  let arcsin := arcsinBracket precision quanta
  ((piBracket precision).divNat 2).add (if negative then arcsin else arcsin.neg)

namespace Binary64

/-- An odd function that is zero at zero, from its values at positive numbers. -/
def oddly (positive : Magnitude → Binary64) (negative : Bool) (m : Magnitude) : Binary64 :=
  if m.rank = 0 then finite negative m else if negative then (positive m).negate else positive m

def sin : Binary64 → Binary64
  | nan => nan
  | infinity _ => nan
  | finite negative m =>
    oddly (fun m => settleFixed fun precision => sineBracket 0 precision m.quanta) negative m

def cos : Binary64 → Binary64
  | nan => nan
  | infinity _ => nan
  | finite _ m =>
    if m.rank = 0 then ofBits 0x3ff0000000000000
    else settleFixed fun precision => sineBracket 1 precision m.quanta

def tan : Binary64 → Binary64
  | nan => nan
  | infinity _ => nan
  | finite negative m =>
    oddly (fun m => settle fun precision =>
      (tangentBracket? precision m.quanta).map (.fixed precision)) negative m

def atan : Binary64 → Binary64
  | nan => nan
  | infinity negative => if negative then (ofBits 0x3ff921fb54442d18).negate else ofBits 0x3ff921fb54442d18
  | finite negative m =>
    oddly (fun m => settleFixed fun precision => arctanOfQuanta precision m.quanta) negative m

def asin : Binary64 → Binary64
  | nan => nan
  | infinity _ => nan
  | finite negative m =>
    if quantaPerUnit < m.quanta then nan
    else oddly (fun m => settleFixed fun precision => arcsinBracket precision m.quanta) negative m

def acos : Binary64 → Binary64
  | nan => nan
  | infinity _ => nan
  | finite negative m =>
    if quantaPerUnit < m.quanta then nan
    else if m.quanta = quantaPerUnit && !negative then zero false
    else settleFixed fun precision => arccosBracket precision negative m.quanta

end Binary64

end Reckoner

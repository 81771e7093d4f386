import Reckoner.Elementary.Power
import Reckoner.Elementary.Trigonometric
import Reckoner.ElementaryFunctions

namespace Reckoner

/-- The functions as the program runs with them: each settles on the double nearest to the exact result. -/
instance roundedFunctions : ElementaryFunctions where
  sin := Binary64.sin
  cos := Binary64.cos
  tan := Binary64.tan
  asin := Binary64.asin
  acos := Binary64.acos
  atan := Binary64.atan
  ln := Binary64.ln
  log10 := Binary64.log10
  exp := Binary64.exp
  pow := Binary64.pow

end Reckoner

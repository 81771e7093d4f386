import Reckoner.Binary64

namespace Reckoner

/-- The functions whose last digit the format leaves open. Programs run with any such functions. -/
class ElementaryFunctions where
  sin : Binary64 → Binary64
  cos : Binary64 → Binary64
  tan : Binary64 → Binary64
  asin : Binary64 → Binary64
  acos : Binary64 → Binary64
  atan : Binary64 → Binary64
  ln : Binary64 → Binary64
  log10 : Binary64 → Binary64
  exp : Binary64 → Binary64
  pow : Binary64 → Binary64 → Binary64

namespace ElementaryFunctions

/-- What is known of them where there is no number to give. All but the power pass on what is not a number. No logarithm
of a negative number is one, and no angle has a sine or a cosine beyond one. -/
class Lawful [ElementaryFunctions] : Prop where
  sin_nan : sin .nan = .nan
  cos_nan : cos .nan = .nan
  tan_nan : tan .nan = .nan
  asin_nan : asin .nan = .nan
  acos_nan : acos .nan = .nan
  atan_nan : atan .nan = .nan
  ln_nan : ln .nan = .nan
  log10_nan : log10 .nan = .nan
  exp_nan : exp .nan = .nan
  ln_of_lt_zero {x : Binary64} : x.lt (.zero false) = true → ln x = .nan
  log10_of_lt_zero {x : Binary64} : x.lt (.zero false) = true → log10 x = .nan
  asin_of_one_lt_abs {x : Binary64} : (Binary64.ofBits 0x3ff0000000000000).lt x.abs = true → asin x = .nan
  acos_of_one_lt_abs {x : Binary64} : (Binary64.ofBits 0x3ff0000000000000).lt x.abs = true → acos x = .nan

end ElementaryFunctions

end Reckoner

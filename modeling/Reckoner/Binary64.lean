import Reckoner.Powers

namespace Reckoner

/-- How many magnitudes lie from a power of two up to the next one: `2 ^ 52`. -/
def ranksPerBinade : Nat := 0x10000000000000

/-- The rank at which the finite magnitudes end and infinity stands. -/
def infinityRank : Nat := 0x7ff0000000000000

/-- A finite magnitude of the binary64 format. Magnitudes are numbered in increasing order, so that the
next larger one has the next rank, also where the spacing doubles. -/
structure Magnitude where
  rank : Nat
  rank_lt : rank < infinityRank
deriving DecidableEq

/-- The spacing at this magnitude is `2 ^ scale` quanta. -/
def Magnitude.scale (m : Magnitude) : Nat := m.rank / ranksPerBinade - 1

def Magnitude.significand (m : Magnitude) : Nat := m.rank - m.scale * ranksPerBinade

/-- The exact value, counted in quanta of `2 ^ -1074`. Every finite magnitude is a whole number of them. -/
def Magnitude.quanta (m : Magnitude) : Nat := m.significand * twoTo m.scale

def quantaPerUnit : Nat := twoTo 1074

/-- A double. All values that are not numbers count as one, and zero has a sign. -/
inductive Binary64
  | nan
  | infinity (negative : Bool)
  | finite (negative : Bool) (magnitude : Magnitude)
deriving DecidableEq

namespace Binary64

/-- The magnitude with the given rank, or infinity when the ranks are exhausted. -/
def ofRank (negative : Bool) (rank : Nat) : Binary64 :=
  if h : rank < infinityRank then .finite negative ⟨rank, h⟩ else .infinity negative

def zero (negative : Bool) : Binary64 := .finite negative ⟨0, by decide⟩

def isFinite : Binary64 → Bool
  | finite _ _ => true
  | _ => false

def isNaN : Binary64 → Bool
  | nan => true
  | _ => false

theorem isNaN_of_isFinite {x : Binary64} (finite : x.isFinite = true) : x.isNaN = false := by
  cases x with
  | nan | infinity => cases finite
  | finite => rfl

def isZero : Binary64 → Bool
  | finite _ m => m.rank == 0
  | _ => false

def abs : Binary64 → Binary64
  | nan => nan
  | infinity _ => infinity false
  | finite _ m => finite false m

/-- The place on the number line in ranks, zero of either sign at `0`. -/
def signedRank? : Binary64 → Option Int
  | nan => none
  | infinity negative => some (if negative then -infinityRank else infinityRank)
  | finite negative m => some (if negative then -m.rank else m.rank)

/-- A value that is not a number is neither below nor above anything. -/
def lt (a b : Binary64) : Bool :=
  match a.signedRank?, b.signedRank? with
  | some x, some y => x < y
  | _, _ => false

/-- The exact value of a finite double in quanta, with its sign. -/
def signedQuanta (negative : Bool) (m : Magnitude) : Int := if negative then -m.quanta else m.quanta

/-- The weight of the sign in the interchange format: `2 ^ 63`. -/
def signUnit : Nat := 0x8000000000000000

/-- Reads the interchange format: the sign in the highest bit, the rank below it. -/
def ofBits (bits : UInt64) : Binary64 :=
  let negative := signUnit ≤ bits.toNat
  let rank := bits.toNat % signUnit
  if infinityRank < rank then nan else ofRank negative rank

/-- Writes the interchange format; a value that is not a number gets the quiet pattern without sign. -/
def toBits : Binary64 → UInt64
  | nan => 0x7ff8000000000000
  | infinity negative => UInt64.ofNat ((if negative then signUnit else 0) + infinityRank)
  | finite negative m => UInt64.ofNat ((if negative then signUnit else 0) + m.rank)

/-- The double nearest to the ratio of a circle to its diameter. -/
def pi : Binary64 := ofBits 0x400921fb54442d18

end Binary64

end Reckoner

import Reckoner.Conversion
import Reckoner.Proofs.Expression

namespace Reckoner

/-- The kinds of phrases, from the loosest to the tightest. -/
inductive Level
  | sum
  | product
  | power
  | atom
deriving DecidableEq

namespace Level

def next : Level → Level
  | sum => product
  | product => power
  | power => atom
  | atom => atom

/-- The precedence of the loosest operator that a phrase may hold outside parentheses. -/
def strength : Level → Nat
  | sum => 2
  | product => 3
  | power => 4
  | atom => 5

theorem strength_le_next (level : Level) : level.strength ≤ level.next.strength := by cases level <;> decide

theorem strength_injective : Function.Injective strength := by
  intro level other same
  cases level <;> cases other <;> first | rfl | cases same

theorem next_strength_le {loose tight : Level} (less : loose.strength < tight.strength) :
    loose.next.strength ≤ tight.strength := by
  cases loose <;> cases tight <;> revert less <;> decide

theorem strength_lt_next {loose tight : Level} (less : loose.strength < tight.strength) :
    loose.strength < loose.next.strength := by
  cases loose <;> cases tight <;> revert less <;> decide

theorem sum_strength_le (level : Level) : sum.strength ≤ level.strength := by cases level <;> decide

theorem strength_le_atom (level : Level) : level.strength ≤ atom.strength := by cases level <;> decide

end Level

namespace Operator

def level : Operator → Level
  | add | sub => .sum
  | mul | div | rem => .product
  | pow => .power

/-- Operators that group to the left take a phrase of their own kind on that side only. -/
def leftLevel (op : Operator) : Level :=
  match op.associativity with
  | .left => op.level
  | .right => op.level.next

def rightLevel (op : Operator) : Level :=
  match op.associativity with
  | .left => op.level.next
  | .right => op.level

theorem symbol_injective : Function.Injective symbol := by
  intro op other same
  have found := ofSymbol?_symbol op
  rw [same, ofSymbol?_symbol other] at found
  exact (Option.some.inj found).symm

theorem level_le_leftLevel (op : Operator) : op.level.strength ≤ op.leftLevel.strength := by cases op <;> decide

theorem level_le_rightLevel (op : Operator) : op.level.strength ≤ op.rightLevel.strength := by cases op <;> decide

theorem rightLevel_lt_atom (op : Operator) : op.rightLevel.strength < Level.atom.strength := by cases op <;> decide

/-- An operator lets go of what may stand on its left. -/
theorem yieldsTo_iff (current earlier : Operator) :
    current.yieldsTo earlier = true ↔ current.leftLevel.strength ≤ earlier.level.strength := by
  cases current <;> cases earlier <;> decide

/-- An operator holds on to what may stand on the right of the earlier one. -/
theorem not_yieldsTo_iff (current earlier : Operator) :
    current.yieldsTo earlier = false ↔ earlier.rightLevel.strength ≤ current.level.strength := by
  cases current <;> cases earlier <;> decide

end Operator

def piSpellings : List String := ["pi", "pI", "Pi", "PI"]

theorem toLower_of_isUpper {c : Char} (upper : c.isUpper = true) :
    c.toLower.val = c.val + ('a'.val - 'A'.val) := congrArg Char.val (dif_pos (of_decide_eq_true upper))

theorem toLower_of_not_isUpper {c : Char} (other : c.isUpper = false) : c.toLower = c :=
  dif_neg (of_decide_eq_false other)

theorem toLower_eq_iff {c small large : Char} (fixed : small.toLower = small) (lowered : large.toLower = small)
    (upper : large.isUpper = true) : c.toLower = small ↔ c = small ∨ c = large := by
  constructor
  · intro same
    cases raised : c.isUpper with
    | true =>
      have shifted := congrArg Char.val (same.trans lowered.symm)
      rw [toLower_of_isUpper raised, toLower_of_isUpper upper] at shifted
      exact Or.inr (Char.ext (UInt32.add_left_inj _ |>.mp shifted))
    | false =>
      rw [toLower_of_not_isUpper raised] at same
      exact Or.inl same
  · rintro (rfl | rfl)
    · exact fixed
    · exact lowered

theorem isPiName_iff {name : String} : isPiName name = true ↔ name ∈ piSpellings := by
  have letterP (c : Char) : c.toLower = 'p' ↔ c = 'p' ∨ c = 'P' := toLower_eq_iff rfl rfl rfl
  have letterI (c : Char) : c.toLower = 'i' ↔ c = 'i' ∨ c = 'I' := toLower_eq_iff rfl rfl rfl
  constructor
  · intro isPi
    simp only [isPiName, beq_iff_eq, List.map_eq_cons_iff, List.map_eq_nil_iff, letterP, letterI] at isPi
    obtain ⟨p, _, spelled, first, i, _, rfl, second, rfl⟩ := isPi
    have whole : name = String.ofList [p, i] := by rw [← spelled, String.ofList_toList]
    subst whole
    rcases first with rfl | rfl <;> rcases second with rfl | rfl <;> decide
  · intro member
    simp only [piSpellings, List.mem_cons, List.not_mem_nil, or_false] at member
    rcases member with rfl | rfl | rfl | rfl <;> decide

/-- The tokens of a phrase with the expression that they mean:
`sum ::= [sum ("+" | "-")] product`, `product ::= [product ("*" | "/" | "%")] power`,
`power ::= atom ["^" power]`, and an atom is a number, the constant, a sum in parentheses, or a function before one. -/
inductive Derives : Level → List Token → Expression → Prop
  | number {value : Binary64} {position : Int} : Derives .atom [⟨.number value, position⟩] (.operand value)
  | constant {name : String} {position : Int} : name ∈ piSpellings →
      Derives .atom [⟨.identifier name, position⟩] (.operand .pi)
  | group {tokens : List Token} {tree : Expression} {first last : Int} : Derives .sum tokens tree →
      Derives .atom (⟨.openParen, first⟩ :: (tokens ++ [⟨.closeParen, last⟩])) tree
  | call {f : UnaryFunction} {tokens : List Token} {tree : Expression} {position first last : Int} :
      Derives .sum tokens tree →
      Derives .atom (⟨.identifier f.name, position⟩ :: ⟨.openParen, first⟩ :: (tokens ++ [⟨.closeParen, last⟩]))
        (.call f tree)
  | lift {level : Level} {tokens : List Token} {tree : Expression} : Derives level.next tokens tree →
      Derives level tokens tree
  | chain {op : Operator} {before after : List Token} {left right : Expression} {position : Int} :
      Derives op.leftLevel before left → Derives op.rightLevel after right →
      Derives op.level (before ++ ⟨.operator op.symbol, position⟩ :: after) (.binary op left right)

theorem Derives.loosen {tight loose : Level} {tokens : List Token} {tree : Expression}
    (derivation : Derives tight tokens tree) (looser : loose.strength ≤ tight.strength) :
    Derives loose tokens tree := by
  by_cases same : loose = tight
  · rwa [same]
  · have less := Nat.lt_of_le_of_ne looser fun equal => same (Level.strength_injective equal)
    exact .lift (derivation.loosen (Level.next_strength_le less))
termination_by tight.strength - loose.strength
decreasing_by
  have grows : loose.strength < loose.next.strength := Level.strength_lt_next less
  omega

end Reckoner

import Reckoner.Display
import Reckoner.Elementary.Rounded
import Reckoner.Proofs.Leniency
import Reckoner.Proofs.PhraseRun
import Reckoner.Proofs.RoundedDomains
import Reckoner.Proofs.RunOutcome

namespace Reckoner

/-- Every operator but the power passes on what is not a number. -/
theorem Operator.apply_nan_left [ElementaryFunctions] {op : Operator} (noPower : op ≠ .pow) (right : Binary64) :
    op.apply .nan right = .nan := by
  cases op with
  | pow => exact absurd rfl noPower
  | add | sub | mul | div | rem => rfl

theorem Operator.apply_nan_right [ElementaryFunctions] {op : Operator} (noPower : op ≠ .pow) (left : Binary64) :
    op.apply left .nan = .nan := by
  cases op with
  | pow => exact absurd rfl noPower
  | add | sub | mul | div | rem => cases left <;> rfl

theorem UnaryFunction.apply_nan [ElementaryFunctions] [ElementaryFunctions.Lawful] (f : UnaryFunction) :
    f.apply .nan = .nan := by
  cases f with
  | sin => exact ElementaryFunctions.Lawful.sin_nan
  | cos => exact ElementaryFunctions.Lawful.cos_nan
  | tan => exact ElementaryFunctions.Lawful.tan_nan
  | asin => exact ElementaryFunctions.Lawful.asin_nan
  | acos => exact ElementaryFunctions.Lawful.acos_nan
  | atan => exact ElementaryFunctions.Lawful.atan_nan
  | ln => exact ElementaryFunctions.Lawful.ln_nan
  | log => exact ElementaryFunctions.Lawful.log10_nan
  | exp => exact ElementaryFunctions.Lawful.exp_nan
  | sqrt => rfl

namespace Expression

/-- An expression stands inside another one, and no power stands around it there. -/
inductive NoPowerAround (part : Expression) : Expression → Prop
  | whole : NoPowerAround part part
  | left {op : Operator} {left right : Expression} : op ≠ .pow → NoPowerAround part left →
      NoPowerAround part (.binary op left right)
  | right {op : Operator} {left right : Expression} : op ≠ .pow → NoPowerAround part right →
      NoPowerAround part (.binary op left right)
  | argument {f : UnaryFunction} {argument : Expression} : NoPowerAround part argument →
      NoPowerAround part (.call f argument)

/-- Expressions whose outermost operator or function is not defined for its operands: the quotient of two zeros, the
remainder by zero, the square root or a logarithm of a negative number, and the angle for a sine or a cosine beyond
one. -/
inductive OutsideDomain [ElementaryFunctions] : Expression → Prop
  | quotient {left right : Expression} : left.value.isZero = true → right.value.isZero = true →
      OutsideDomain (.binary .div left right)
  | remainder {left right : Expression} : right.value.isZero = true → OutsideDomain (.binary .rem left right)
  | root {f : UnaryFunction} {argument : Expression} : f = .sqrt ∨ f = .ln ∨ f = .log →
      argument.value.lt (.zero false) = true → OutsideDomain (.call f argument)
  | angle {f : UnaryFunction} {argument : Expression} : f = .asin ∨ f = .acos →
      (Binary64.ofBits 0x3ff0000000000000).lt argument.value.abs = true → OutsideDomain (.call f argument)

end Expression

namespace Binary64

variable {x : Binary64}

theorem exists_zero_of_isZero (zero : x.isZero = true) : ∃ negative, x = .zero negative := by
  match x with
  | .finite negative ⟨0, _⟩ => exact ⟨negative, rfl⟩
  | .finite _ ⟨_ + 1, _⟩ | .infinity _ | .nan => cases zero

theorem div_zero_zero (negative negative' : Bool) : (zero negative).div (zero negative') = nan := rfl

theorem rem_zero (x : Binary64) (negative : Bool) : x.rem (zero negative) = nan := by cases x <;> rfl

end Binary64

namespace UnaryFunction

variable [ElementaryFunctions] [ElementaryFunctions.Lawful] {f : UnaryFunction} {x : Binary64}

theorem apply_of_lt_zero (which : f = .sqrt ∨ f = .ln ∨ f = .log) (less : x.lt (.zero false) = true) :
    f.apply x = .nan := by
  rcases which with rfl | rfl | rfl
  · rcases Binary64.negative_of_lt_zero less with rfl | ⟨m, nonzero, rfl⟩
    · rfl
    · simp [apply, Binary64.sqrt, nonzero]
  · exact ElementaryFunctions.Lawful.ln_of_lt_zero less
  · exact ElementaryFunctions.Lawful.log10_of_lt_zero less

theorem apply_of_one_lt_abs (which : f = .asin ∨ f = .acos)
    (large : (Binary64.ofBits 0x3ff0000000000000).lt x.abs = true) : f.apply x = .nan := by
  rcases which with rfl | rfl
  · exact ElementaryFunctions.Lawful.asin_of_one_lt_abs large
  · exact ElementaryFunctions.Lawful.acos_of_one_lt_abs large

end UnaryFunction

namespace Expression

variable [ElementaryFunctions] [ElementaryFunctions.Lawful] {part tree : Expression}

theorem OutsideDomain.value_eq_nan (outside : part.OutsideDomain) : part.value = .nan := by
  cases outside with
  | quotient zeroLeft zeroRight =>
    obtain ⟨negative, isZero⟩ := Binary64.exists_zero_of_isZero zeroLeft
    obtain ⟨negative', isZero'⟩ := Binary64.exists_zero_of_isZero zeroRight
    rw [value, isZero, isZero']
    exact Binary64.div_zero_zero negative negative'
  | @remainder left right zero =>
    obtain ⟨negative, isZero⟩ := Binary64.exists_zero_of_isZero zero
    rw [value, isZero]
    exact Binary64.rem_zero left.value negative
  | root which less => exact UnaryFunction.apply_of_lt_zero which less
  | angle which large => exact UnaryFunction.apply_of_one_lt_abs which large

/-- Up to the outermost operator what is not a number stays none, whatever the other operands are. -/
theorem NoPowerAround.value_eq_nan (inside : part.NoPowerAround tree) (noNumber : part.value = .nan) :
    tree.value = .nan := by
  induction inside with
  | whole => exact noNumber
  | left noPower _ ih => rw [value, ih, Operator.apply_nan_left noPower]
  | right noPower _ ih => rw [value, ih, Operator.apply_nan_right noPower]
  | argument _ ih => rw [value, ih, UnaryFunction.apply_nan]

end Expression

/-- Only a power can hide a fault of domain. With none around it the listing of the whole expression runs into a result
that is no number, and so does every text with this meaning, so that the fixed entry is shown for it. -/
theorem run_indeterminate [ElementaryFunctions] [ElementaryFunctions.Lawful] {part tree : Expression}
    (inside : part.NoPowerAround tree) (fault : part.value = .nan ∨ part.OutsideDomain) :
    tree.postorder.run = .error (.notFinite .nan) ∧
    ∀ expression tokens, expression.tokens = .ok tokens → Derives .sum tokens tree →
      (∀ strict, evaluate strict expression = .error (.running (.notFinite .nan))) ∧
      ∀ (settings : Settings) asked, settings.displayEvaluated asked expression = .ok missingEntry := by
  have noNumber : tree.value = .nan := inside.value_eq_nan (fault.elim id Expression.OutsideDomain.value_eq_nan)
  have run : tree.postorder.run = .error (.notFinite .nan) := by
    rw [run_postorder, noNumber]
    rfl
  refine ⟨run, fun expression tokens read derivation => ?_⟩
  have evaluated (strict : Bool) : evaluate strict expression = .error (.running (.notFinite .nan)) := by
    rw [evaluate_of_convert read (derivation.convert strict), run]
    rfl
  refine ⟨evaluated, fun settings asked => ?_⟩
  rw [Settings.displayEvaluated, evaluatedCell, evaluated]
  rfl

/-- The angle with the sine `pi`, as a dividend. -/
theorem run_indeterminate_angle :
    (Expression.call .asin (.operand .pi)).NoPowerAround
      (.binary .div (.call .asin (.operand .pi)) (.operand .pi)) ∧
    (Expression.call .asin (.operand .pi)).OutsideDomain ∧
    Program.run [.operand .pi, .unary "asin", .operand .pi, .binary "/"] = .error (.notFinite .nan) ∧
    evaluate false (.text "asin(pi)/pi") = .error (.running (.notFinite .nan)) := by
  have inside : (Expression.call .asin (.operand .pi)).NoPowerAround
      (.binary .div (.call .asin (.operand .pi)) (.operand .pi)) := .left (by decide) .whole
  have outside : (Expression.call .asin (.operand .pi)).OutsideDomain := by
    refine .angle (Or.inl rfl) ?_
    rw [Expression.value]
    decide
  have tokens : scan "asin(pi)/pi" = [⟨.identifier "asin", 0⟩, ⟨.openParen, 4⟩, ⟨.identifier "pi", 5⟩,
      ⟨.closeParen, 7⟩, ⟨.operator "/", 8⟩, ⟨.identifier "pi", 9⟩] := by decide +kernel
  have read : (Value.text "asin(pi)/pi").tokens = .ok [⟨.identifier "asin", 0⟩, ⟨.openParen, 4⟩,
      ⟨.identifier "pi", 5⟩, ⟨.closeParen, 7⟩, ⟨.operator "/", 8⟩, ⟨.identifier "pi", 9⟩] := congrArg Except.ok tokens
  have constant (level : Level) (position : Int) : Derives level [⟨.identifier "pi", position⟩] (.operand .pi) :=
    (Derives.constant (by decide)).loosen level.strength_le_atom
  have dividend : Derives Operator.div.leftLevel
      (⟨.identifier UnaryFunction.asin.name, 0⟩ :: ⟨.openParen, 4⟩ :: ([⟨.identifier "pi", 5⟩] ++ [⟨.closeParen, 7⟩]))
      (.call .asin (.operand .pi)) := (Derives.call (constant .sum 5)).loosen (by decide)
  have quotient : Derives Operator.div.level
      (⟨.identifier UnaryFunction.asin.name, 0⟩ :: ⟨.openParen, 4⟩ :: ([⟨.identifier "pi", 5⟩] ++ [⟨.closeParen, 7⟩]) ++
        ⟨.operator Operator.div.symbol, 8⟩ :: [⟨.identifier "pi", 9⟩])
      (.binary .div (.call .asin (.operand .pi)) (.operand .pi)) := .chain dividend (constant _ 9)
  obtain ⟨run, texts⟩ := run_indeterminate inside (Or.inr outside)
  exact ⟨inside, outside, run, (texts _ _ read (quotient.loosen (by decide))).1 false⟩

end Reckoner

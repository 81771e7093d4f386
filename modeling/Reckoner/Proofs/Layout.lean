import Reckoner.Elementary.Rounded
import Reckoner.Outcome
import Reckoner.Proofs.Forest
import Reckoner.Proofs.PatternSearch

namespace Reckoner

/-- An expression with its numbers and the constant as they are written. -/
inductive Formula
  | number (numeral : Numeral)
  | constant (spelling : String) (spelled : spelling ∈ piSpellings)
  | binary (op : Operator) (left right : Formula)
  | call (f : UnaryFunction) (argument : Formula)

namespace Formula

def expression : Formula → Expression
  | number numeral => .operand numeral.value
  | constant _ _ => .operand .pi
  | binary op left right => .binary op left.expression right.expression
  | call f argument => .call f argument.expression

def root? : Formula → Option Operator
  | binary op _ _ => some op
  | _ => none

/-- The phrase that a formula makes, by whether parentheses stand around all of it. -/
def level (enclosed : Bool) (formula : Formula) : Level :=
  match enclosed, formula.root? with
  | false, some op => op.level
  | _, _ => .atom

end Formula

namespace Operator

def ParenthesizesLeft (op child : Operator) : Prop :=
  child.precedence < op.precedence ∨ (child = pow ∧ op = pow)

def ParenthesizesRight (op child : Operator) : Prop :=
  child.precedence < op.precedence ∨ (child.precedence = op.precedence ∧ op ≠ pow)

theorem parenthesizesLeft_iff (op child : Operator) :
    op.ParenthesizesLeft child ↔ child.level.strength < op.leftLevel.strength := by
  cases op <;> cases child <;>
    simp [ParenthesizesLeft, precedence, leftLevel, associativity, level, Level.next, Level.strength]

theorem parenthesizesRight_iff (op child : Operator) :
    op.ParenthesizesRight child ↔ child.level.strength < op.rightLevel.strength := by
  cases op <;> cases child <;>
    simp [ParenthesizesRight, precedence, rightLevel, associativity, level, Level.next, Level.strength]

end Operator

/-- The ways to write a formula with at least the parentheses that precedence asks for. They tell whether parentheses
stand around the whole. -/
inductive Layout : Bool → Formula → List Lexeme → Prop
  | number {numeral : Numeral} : Layout false (.number numeral) [.number numeral]
  | constant {spelling : String} {spelled : spelling ∈ piSpellings} :
      Layout false (.constant spelling spelled) [.constant spelling spelled]
  | binary {op : Operator} {left right : Formula} {enclosedLeft enclosedRight : Bool} {before after : List Lexeme} :
      Layout enclosedLeft left before → Layout enclosedRight right after →
      (∀ child ∈ left.root?, op.ParenthesizesLeft child → enclosedLeft = true) →
      (∀ child ∈ right.root?, op.ParenthesizesRight child → enclosedRight = true) →
      Layout false (.binary op left right) (before ++ .operator op :: after)
  | call {f : UnaryFunction} {argument : Formula} {enclosed : Bool} {inner : List Lexeme} :
      Layout enclosed argument inner →
      Layout false (.call f argument) (.function f :: .openParen :: (inner ++ [.closeParen]))
  | enclose {formula : Formula} {enclosed : Bool} {inner : List Lexeme} : Layout enclosed formula inner →
      Layout true formula (.openParen :: (inner ++ [.closeParen]))

namespace Layout

variable {enclosed : Bool} {formula : Formula} {lexemes : List Lexeme}

/-- An operand that has the parentheses it needs is a phrase that may stand next to the operator. -/
theorem fits {bound : Level}
    (needs : ∀ child ∈ formula.root?, child.level.strength < bound.strength → enclosed = true) :
    bound.strength ≤ (formula.level enclosed).strength := by
  unfold Formula.level
  split
  · rename_i op root
    have bare := mt (needs op root)
    simp only [Bool.false_eq_true, not_false_eq_true, forall_const] at bare
    exact Nat.not_lt.mp bare
  · exact bound.strength_le_atom

theorem apart_group {inner : List Lexeme} (apart : inner.IsChain Lexeme.Apart) :
    (Lexeme.openParen :: (inner ++ [.closeParen])).IsChain Lexeme.Apart := by
  refine List.isChain_cons.mpr ⟨fun _ _ => Or.inl rfl, List.isChain_append.mpr ⟨apart, .singleton _, ?_⟩⟩
  intro last _ first isFirst
  cases isFirst
  exact Or.inr rfl

theorem apart (layout : Layout enclosed formula lexemes) : lexemes.IsChain Lexeme.Apart := by
  induction layout with
  | number | constant => exact .singleton _
  | binary _ _ _ _ ihLeft ihRight =>
    refine List.isChain_append.mpr ⟨ihLeft, List.isChain_cons.mpr ⟨fun _ _ => Or.inl rfl, ihRight⟩, ?_⟩
    intro last _ first isFirst
    cases isFirst
    exact Or.inr rfl
  | call _ ih =>
    refine List.isChain_cons.mpr ⟨fun first isFirst => ?_, apart_group ih⟩
    cases isFirst
    exact Or.inr rfl
  | enclose _ ih => exact apart_group ih

theorem exists_group {tokens : List Token} {kinds : List TokenKind}
    (same : tokens.map Token.kind = .openParen :: (kinds ++ [.closeParen])) :
    ∃ first inner last, tokens = ⟨.openParen, first⟩ :: (inner ++ [⟨.closeParen, last⟩]) ∧
      inner.map Token.kind = kinds := by
  obtain ⟨⟨_, first⟩, _, rfl, rfl, rest⟩ := List.map_eq_cons_iff.mp same
  obtain ⟨inner, _, rfl, within, closing⟩ := List.map_eq_append_iff.mp rest
  obtain ⟨⟨_, last⟩, rfl, rfl⟩ := List.map_eq_singleton_iff.mp closing
  exact ⟨first, inner, last, rfl, within⟩

/-- Tokens that a formula is written with are a phrase that means the formula. -/
theorem derives (layout : Layout enclosed formula lexemes) {tokens : List Token}
    (same : tokens.map Token.kind = lexemes.map Lexeme.kind) :
    Derives (formula.level enclosed) tokens formula.expression := by
  induction layout generalizing tokens with
  | number =>
    obtain ⟨⟨_, position⟩, rfl, rfl⟩ := List.map_eq_singleton_iff.mp same
    exact .number
  | @constant spelling spelled =>
    obtain ⟨⟨_, position⟩, rfl, rfl⟩ := List.map_eq_singleton_iff.mp same
    exact .constant spelled
  | @binary op left right _ _ before after _ _ needsLeft needsRight ihLeft ihRight =>
    rw [List.map_append, List.map_cons] at same
    obtain ⟨leftTokens, _, rfl, sameLeft, rest⟩ := List.map_eq_append_iff.mp same
    obtain ⟨⟨_, position⟩, rightTokens, rfl, rfl, sameRight⟩ := List.map_eq_cons_iff.mp rest
    -- Parentheses missing from an operand mean that it is a phrase of the level the operator takes there.
    have leftFits := fits fun child root loose => needsLeft child root ((op.parenthesizesLeft_iff child).mpr loose)
    have rightFits := fits fun child root loose => needsRight child root ((op.parenthesizesRight_iff child).mpr loose)
    exact .chain ((ihLeft sameLeft).loosen leftFits) ((ihRight sameRight).loosen rightFits)
  | @call f argument enclosed inner _ ih =>
    rw [List.map_cons, List.map_cons, List.map_append] at same
    obtain ⟨⟨_, position⟩, _, rfl, rfl, rest⟩ := List.map_eq_cons_iff.mp same
    obtain ⟨first, within, last, rfl, sameInner⟩ := exists_group rest
    exact .call ((ih sameInner).loosen (Level.sum_strength_le _))
  | @enclose formula enclosed inner _ ih =>
    rw [List.map_cons, List.map_append] at same
    obtain ⟨first, within, last, rfl, sameInner⟩ := exists_group same
    exact .group ((ih sameInner).loosen (Level.sum_strength_le _))

end Layout

/-- A text that spells a formula in any layout has the value of the formula, with whatever rules. -/
theorem evaluate_layout [ElementaryFunctions] {source : String} {enclosed : Bool} {formula : Formula}
    {lexemes : List Lexeme} (layout : Layout enclosed formula lexemes) (spells : Spells source.toList lexemes)
    (strict : Bool) :
    (formula.expression.value.isFinite = true → evaluate strict (.text source) = .ok formula.expression.value) ∧
    (formula.expression.value.isFinite = false → ∃ failure, evaluate strict (.text source) = .error failure ∧
      failure.reason = s!"Result is not finite: {formula.expression.value.text}") := by
  have phrase := layout.derives (scanFrom_spells spells layout.apart 0)
  have converted : convert strict (scan source) = .ok formula.expression.postorder := by
    rw [scan_eq]
    exact (phrase.loosen (Level.sum_strength_le _)).convert strict
  have run : evaluate strict (.text source) = formula.expression.postorder.run.mapError .running := by
    simp only [evaluate, Value.tokens, bind, Except.bind, converted, Except.mapError]
  rw [run, run_postorder]
  refine ⟨fun finite => ?_, fun infinite => ?_⟩
  · rw [if_pos finite]
    rfl
  · rw [if_neg (by simp [infinite])]
    exact ⟨.running (.notFinite formula.expression.value), rfl, rfl⟩

theorem evaluate_layout_difference :
    ∃ formula lexemes, Layout false formula lexemes ∧ Spells "7 - (PI-pi)".toList lexemes ∧
      evaluate false (.text "7 - (PI-pi)") = .ok (Decimal.nearest false ⟨7, 0⟩) := by
  obtain ⟨seven, written, decimal⟩ : ∃ seven : Numeral, seven.text = ['7'] ∧ seven.decimal = ⟨7, 0⟩ :=
    ⟨⟨['7'], none, List.all_eq_true.mp rfl, nofun, nofun⟩, rfl, rfl⟩
  have large : "PI" ∈ piSpellings := by decide
  have small : "pi" ∈ piSpellings := by decide
  have layout : Layout false (.binary .sub (.number seven) (.binary .sub (.constant "PI" large) (.constant "pi" small)))
      ([.number seven] ++ .operator .sub ::
        .openParen :: ([.constant "PI" large] ++ .operator .sub :: [.constant "pi" small] ++ [.closeParen])) :=
    .binary .number (.enclose (.binary .constant .constant nofun nofun)) nofun fun _ _ _ => rfl
  have spells : Spells "7 - (PI-pi)".toList
      ([.number seven] ++ .operator .sub ::
        .openParen :: ([.constant "PI" large] ++ .operator .sub :: [.constant "pi" small] ++ [.closeParen])) := by
    have blank : Unrecognised ' ' := ⟨rfl, rfl, by decide⟩
    have characters : "7 - (PI-pi)".toList = seven.text ++ [' ', '-', ' ', '(', 'P', 'I', '-', 'p', 'i', ')'] := by
      rw [written]
      rfl
    rw [characters]
    exact .piece (.number seven) (.skip blank (.piece (.operator .sub) (.skip blank (.piece .openParen
      (.piece (.constant "PI" large) (.piece (.operator .sub) (.piece (.constant "pi" small)
        (.piece .closeParen .done))))))))
  refine ⟨_, _, layout, spells, ?_⟩
  have value : (Formula.binary .sub (.number seven) (.binary .sub (.constant "PI" large)
      (.constant "pi" small))).expression.value = Decimal.nearest false ⟨7, 0⟩ := by
    simp only [Formula.expression, Expression.value, Numeral.value, decimal]
    decide +kernel
  have evaluated := (evaluate_layout layout spells false).1
  rw [value] at evaluated
  exact evaluated (by decide +kernel)

end Reckoner

import Reckoner.Proofs.Refusals
import Reckoner.Proofs.Unfinished

namespace Reckoner

/-- The states that strict rules come to, with the tokens taken in. After a function an open parenthesis is due. -/
inductive StrictReach : List Token → Conversion → Prop
  | expecting {tokens : List Token} {pending : List Pending} {forest : List Expression} :
      Unfinished tokens pending forest → StrictReach tokens ⟨written forest, pending, true⟩
  | applying {tokens : List Token} {pending : List Pending} {forest : List Expression} {f : UnaryFunction}
      {position : Int} : Unfinished tokens pending forest →
      StrictReach (tokens ++ [⟨.identifier f.name, position⟩]) ⟨written forest, .function f.name :: pending, true⟩
  | filled {tokens phrase : List Token} {pending : List Pending} {forest : List Expression} {tree : Expression} :
      Unfinished tokens pending forest → Derives .atom phrase tree →
      StrictReach (tokens ++ phrase) ⟨written (tree :: forest), pending, false⟩

def Follows (state : Conversion) (next : Option TokenKind) : Prop :=
  ∀ name pending, state.pending = .function name :: pending → next = some .openParen

def Token.HasKnownSymbol (token : Token) : Prop :=
  ∀ symbol, token.kind = .operator symbol → ∃ op : Operator, op.symbol = symbol

instance (token : Token) : Decidable token.HasKnownSymbol :=
  match token with
  | ⟨.operator symbol, _⟩ =>
    match found : Operator.ofSymbol? symbol with
    | some op => isTrue fun _ same =>
      ⟨op, (Operator.symbol_of_ofSymbol? found).symm.trans (TokenKind.operator.inj same)⟩
    | none => isFalse fun known => by
      obtain ⟨op, rfl⟩ := known symbol rfl
      rw [Operator.ofSymbol?_symbol] at found
      cases found
  | ⟨.number _, _⟩ | ⟨.identifier _, _⟩ | ⟨.openParen, _⟩ | ⟨.closeParen, _⟩ | ⟨.comma _, _⟩ | ⟨.period _, _⟩ =>
    isTrue nofun

theorem Held.follows {level : Level} {pending : List Pending} (held : Held level pending) (output : Program)
    (expects : Bool) (next : Option TokenKind) : Follows ⟨output, pending, expects⟩ next := by
  intro name below same
  change pending = .function name :: below at same
  subst same
  exact False.elim held

variable {tokens phrase : List Token} {state after : Conversion} {token : Token} {next : Option TokenKind}

theorem StrictReach.start : StrictReach [] Conversion.start := .expecting .start

/-- The innermost open group is closed around the phrase in it, and a function before it is applied. -/
theorem Unfinished.closeGroup {pending below : List Pending} {forest : List Expression} {tree : Expression}
    {output : Program} (unfinished : Unfinished tokens pending forest) (derivation : Derives .atom phrase tree)
    (closed : closeGroup (written (tree :: forest)) pending = (output, some below)) (last : Int) :
    ∃ before atom whole rest outer, tokens ++ phrase ++ [⟨.closeParen, last⟩] = before ++ atom ∧
      Unfinished before outer rest ∧ Derives .atom atom whole ∧
      applyToGroup output below = (written (whole :: rest), outer) := by
  obtain ⟨ops, before, after, innermost, rest, sum, waits, split, opened, whole, emitted, bottom⟩ :=
    unfinished.collapse unfinished.held derivation
  rw [waits, closeGroup_waiting, emitted] at closed
  cases opened with
  | start => cases closed
  | operator => rcases bottom with none | ⟨_, _, none⟩ <;> cases none
  | @group before _ _ first inner =>
    cases closed
    refine ⟨before, ⟨.openParen, first⟩ :: (after ++ [⟨.closeParen, last⟩]), sum, rest, below, ?_, inner, .group whole,
      inner.held.applyToGroup _⟩
    rw [split]
    simp
  | @call before outer _ f position first inner =>
    cases closed
    refine ⟨before, ⟨.identifier f.name, position⟩ :: ⟨.openParen, first⟩ :: (after ++ [⟨.closeParen, last⟩]),
      .call f sum, rest, outer, ?_, inner, .call whole, ?_⟩
    · rw [split]
      simp
    · simp [applyToGroup, Expression.postorder]

theorem StrictReach.move (reach : StrictReach tokens state) (known : token.HasKnownSymbol)
    (follows : Follows state (some token.kind)) (move : Moves true next state token after) :
    StrictReach (tokens ++ [token]) after ∧ Follows after next := by
  -- Each state takes in the tokens that its flag asks for, and after a function nothing but a parenthesis.
  cases reach with
  | @expecting tokens pending forest unfinished =>
    cases move with
    | number => exact ⟨.filled unfinished .number, unfinished.held.follows _ _ _⟩
    | constant isPi => exact ⟨.filled unfinished (.constant (isPiName_iff.mp isPi)), unfinished.held.follows _ _ _⟩
    | function _ grouped =>
      refine ⟨.applying unfinished, ?_⟩
      intro _ _ _
      exact grouped rfl
    | @openParen first =>
      have longer : Unfinished (tokens ++ [⟨.openParen, first⟩]) (.group first :: pending) forest := .group unfinished
      exact ⟨.expecting longer, longer.held.follows _ _ _⟩
    | operator filled | closeParen filled => cases filled rfl
    | unknown lenient | cut lenient | comma lenient | period lenient => cases lenient
  | @applying tokens pending forest f position unfinished =>
    have grouped : token.kind = .openParen := Option.some.inj (follows f.name pending rfl)
    cases move with
    | @openParen first =>
      have longer : Unfinished (tokens ++ [⟨.identifier f.name, position⟩, ⟨.openParen, first⟩])
          (.group first :: .function f.name :: pending) forest := .call unfinished
      rw [List.append_assoc]
      exact ⟨.expecting longer, longer.held.follows _ _ _⟩
    | number | constant | function | operator | closeParen | unknown | cut | comma | period => cases grouped
  | @filled tokens phrase pending forest tree unfinished derivation =>
    cases move with
    | @operator symbol position output below _ released =>
      obtain ⟨op, rfl⟩ := known symbol rfl
      obtain ⟨before, operand, outer, rest, left, split, opened, held, leftPhrase, result⟩ :=
        unfinished.release unfinished.held derivation op.leftLevel.strength_le_atom
      obtain ⟨rfl, rfl⟩ := Prod.mk.inj (Except.ok.inj (result.symm.trans released))
      have longer : Unfinished (before ++ (operand ++ [⟨.operator op.symbol, position⟩]))
          (.operator op.symbol :: outer) (left :: rest) := .operator opened held leftPhrase
      rw [split, List.append_assoc]
      exact ⟨.expecting longer, longer.held.follows _ _ _⟩
    | @closeParen position output below _ closed =>
      obtain ⟨before, atom, whole, rest, outer, split, opened, atomic, applied⟩ :=
        unfinished.closeGroup derivation closed position
      rw [split, applied]
      exact ⟨.filled opened atomic, opened.held.follows _ _ _⟩
    | number expecting | constant _ expecting | function expecting | openParen expecting => cases expecting rfl
    | unknown lenient | cut lenient | comma lenient | period lenient => cases lenient

/-- On its way strict conversion takes a token in or complains about it. No symbol is unknown to it. -/
theorem StrictReach.step (reach : StrictReach tokens state) (known : token.HasKnownSymbol) (next : Option TokenKind) :
    (∃ after, Moves true next state token after) ∨ ∃ complaint, Refuses next state token complaint := by
  cases taken : state.step true next token with
  | ok after => exact Or.inl ⟨after, moves_of_step taken⟩
  | error error =>
    rcases refuses_of_step taken with ⟨complaint, _, refuses⟩ | ⟨symbol, carries, filled, unreleased⟩
    · exact Or.inr ⟨complaint, refuses⟩
    · obtain ⟨op, rfl⟩ := known symbol carries
      cases reach with
      | expecting | applying => cases filled
      | filled unfinished derivation =>
        obtain ⟨_, _, _, _, _, _, _, _, _, released⟩ :=
          unfinished.release unfinished.held derivation op.leftLevel.strength_le_atom
        cases unreleased.symm.trans released

/-- A run of strict conversion stays on its way up to its end, or up to a token that it complains about. It comes to
that token whatever stands behind it. -/
theorem StrictReach.steps {before : List Token} (reach : StrictReach before state)
    (known : ∀ token ∈ tokens, token.HasKnownSymbol) (follows : Follows state (tokens.head?.map Token.kind)) :
    (∃ last, state.steps true tokens = .ok last ∧ StrictReach (before ++ tokens) last ∧ Follows last none) ∨
      ∃ middle token rest last complaint, tokens = middle ++ token :: rest ∧ StrictReach (before ++ middle) last ∧
        Follows last (some token.kind) ∧ Refuses (rest.head?.map Token.kind) last token complaint ∧
        ∀ suffix, state.steps true (middle ++ token :: suffix) = last.steps true (token :: suffix) := by
  induction tokens generalizing before state with
  | nil => exact Or.inl ⟨state, rfl, by simpa using reach, follows⟩
  | cons token tokens ih =>
    have first := known token List.mem_cons_self
    rcases reach.step first (tokens.head?.map Token.kind) with ⟨after, move⟩ | ⟨complaint, refuses⟩
    · obtain ⟨further, followed⟩ := reach.move first follows move
      rcases ih further (fun other member => known other (List.mem_cons_of_mem _ member)) followed with
        ⟨last, run, reached, ends⟩ | ⟨middle, other, rest, last, complaint, split, reached, ends, refuses, agrees⟩
      · exact Or.inl ⟨last, by rw [move.steps, run], by simpa using reached, ends⟩
      · refine Or.inr ⟨token :: middle, other, rest, last, complaint, by rw [split]; rfl, by simpa using reached, ends,
          refuses, fun suffix => ?_⟩
        -- The first step looks at the next token only, which stays the same.
        have sameHead : (middle ++ other :: suffix).head? = tokens.head? := by
          rw [split]
          cases middle <;> rfl
        rw [← sameHead] at move
        rw [List.cons_append, move.steps, agrees]
    · exact Or.inr ⟨[], token, tokens, state, complaint, rfl, by simpa using reach, follows, refuses, fun _ => rfl⟩

end Reckoner

import Mathlib.Data.List.Induction
import Reckoner.Proofs.Insertion
import Reckoner.Proofs.Leniency

namespace Reckoner

/-- The double that an operand stands for: a number, or the constant in any letter case. -/
def Token.value? (token : Token) : Option Binary64 :=
  match token.kind with
  | .number value => some value
  | .identifier name => if name ∈ piSpellings then some .pi else none
  | _ => none

/-- The instructions that tokens ask for, in the order of the tokens and each with the place of its token. -/
def requests (tokens : List Token) : List (Nat × Instruction) :=
  tokens.zipIdx.filterMap fun entry => entry.1.instruction?.map fun instruction => (entry.2, instruction)

/-- The tokens that the instructions of a program come from, by their places. Each request is met once, and nothing
stands before an operand whose token comes first. -/
structure Attribution (tokens : List Token) (program : Program) (origins : List (Nat × Instruction)) : Prop where
  instructions : origins.map Prod.snd = program
  meets_requests : origins.Perm (requests tokens)
  operands_first : origins.Pairwise fun earlier later => later.2.value? ≠ none → earlier.1 < later.1

variable {strict : Bool} {tokens : List Token} {token : Token} {program longer : Program}
  {origins : List (Nat × Instruction)}

/-- A name asks for the constant, for a function, or for nothing. -/
theorem instruction_of_identifier (name : String) (position : Int) :
    (name ∈ piSpellings ∧ Token.instruction? ⟨.identifier name, position⟩ = some (.operand .pi)) ∨
      name ∉ piSpellings ∧ (Token.instruction? ⟨.identifier name, position⟩ = none ∨
        ∃ f : UnaryFunction, Token.instruction? ⟨.identifier name, position⟩ = some (.unary f.name)) := by
  by_cases spelled : name ∈ piSpellings
  · exact Or.inl ⟨spelled, if_pos spelled⟩
  · have unspelled : Token.instruction? ⟨.identifier name, position⟩ =
        (UnaryFunction.ofName? name).map fun f => .unary f.name := if_neg spelled
    rw [unspelled]
    cases UnaryFunction.ofName? name with
    | none => exact Or.inr ⟨spelled, Or.inl rfl⟩
    | some f => exact Or.inr ⟨spelled, Or.inr ⟨f, rfl⟩⟩

theorem value_eq (token : Token) : token.instruction?.bind Instruction.value? = token.value? := by
  obtain ⟨kind, position⟩ := token
  cases kind with
  | identifier name =>
    rcases instruction_of_identifier name position with ⟨spelled, asked⟩ | ⟨other, asked | ⟨f, asked⟩⟩
    · rw [asked]
      exact (if_pos spelled).symm
    · rw [asked]
      exact (if_neg other).symm
    · rw [asked]
      exact (if_neg other).symm
  | number | operator | openParen | closeParen | comma | period => rfl

theorem values_of_instruction (token : Token) :
    token.instruction?.toList.filterMap Instruction.value? = [token].filterMap Token.value? := by
  have same := value_eq token
  cases asked : token.instruction? <;> rw [asked] at same <;> simp [List.filterMap_cons, ← same]

theorem requests_concat (tokens : List Token) (token : Token) :
    requests (tokens ++ [token]) =
      requests tokens ++ (token.instruction?.map fun instruction => (tokens.length, instruction)).toList := by
  simp only [requests, List.zipIdx_append, List.filterMap_append, Nat.zero_add]
  cases asked : token.instruction? <;> simp [asked]

theorem instructions_requests (tokens : List Token) :
    (requests tokens).map Prod.snd = tokens.filterMap Token.instruction? := by
  induction tokens using List.reverseRecOn with
  | nil => rfl
  | append_singleton tokens token ih =>
    rw [requests_concat, List.map_append, ih, List.filterMap_append]
    cases asked : token.instruction? <;> simp [asked]

theorem place_lt_of_mem_requests {entry : Nat × Instruction} (member : entry ∈ requests tokens) :
    entry.1 < tokens.length := by
  obtain ⟨⟨token, place⟩, there, asked⟩ := List.mem_filterMap.mp member
  obtain ⟨instruction, _, rfl⟩ := Option.map_eq_some_iff.mp asked
  have bounds := List.mem_zipIdx there
  omega

namespace Attribution

theorem perm (attribution : Attribution tokens program origins) :
    program.Perm (tokens.filterMap Token.instruction?) := by
  rw [← attribution.instructions, ← instructions_requests]
  exact attribution.meets_requests.map Prod.snd

/-- The latest token comes behind all others, so its instruction may go wherever no operand stands behind it. -/
theorem grow (attribution : Attribution tokens program origins) (grows : GrowsBy program token.instruction? longer) :
    ∃ further, Attribution (tokens ++ [token]) longer further := by
  obtain ⟨early, late, rfl, rfl, plain⟩ := grows
  cases asked : token.instruction? with
  | none =>
    have same := requests_concat tokens token
    rw [asked, Option.map_none, Option.toList_none, List.append_nil] at same
    refine ⟨origins, attribution.instructions, ?_, attribution.operands_first⟩
    rw [same]
    exact attribution.meets_requests
  | some instruction =>
    obtain ⟨before, behind, rfl, beforeEarly, behindLate⟩ := List.map_eq_append_iff.mp attribution.instructions
    obtain ⟨first, last, across⟩ := List.pairwise_append.mp attribution.operands_first
    have oneMore := requests_concat tokens token
    rw [asked, Option.map_some, Option.toList_some] at oneMore
    refine ⟨before ++ (tokens.length, instruction) :: behind, ?_, ?_, ?_⟩
    · simp [beforeEarly, behindLate]
    · rw [oneMore]
      have moved : (before ++ (tokens.length, instruction) :: behind).Perm
          ((tokens.length, instruction) :: (before ++ behind)) := List.perm_middle
      have met := attribution.meets_requests.cons (tokens.length, instruction)
      exact (moved.trans met).trans (List.perm_append_singleton _ _).symm
    · refine List.pairwise_append.mpr ⟨first, List.pairwise_cons.mpr ⟨?_, last⟩, ?_⟩
      · intro later member isOperand
        have inLate : later.2 ∈ late := by
          rw [← behindLate]
          exact List.mem_map_of_mem member
        exact absurd (plain later.2 inLate) isOperand
      · intro earlier member later place isOperand
        rcases List.mem_cons.mp place with rfl | old
        · have known : earlier ∈ requests tokens :=
            attribution.meets_requests.mem_iff.mp (List.mem_append_left _ member)
          exact place_lt_of_mem_requests known
        · exact across earlier member later old isOperand

end Attribution

namespace Inserted

theorem attribution (inserted : Inserted tokens program) : ∃ origins, Attribution tokens program origins := by
  induction inserted with
  | start => exact ⟨[], rfl, .nil, .nil⟩
  | insert _ grows ih =>
    obtain ⟨origins, attribution⟩ := ih
    exact attribution.grow grows

theorem perm (inserted : Inserted tokens program) : program.Perm (tokens.filterMap Token.instruction?) := by
  obtain ⟨origins, attribution⟩ := inserted.attribution
  exact attribution.perm

theorem operands (inserted : Inserted tokens program) :
    program.filterMap Instruction.value? = tokens.filterMap Token.value? := by
  induction inserted with
  | start => rfl
  | insert _ grows ih =>
    obtain ⟨early, late, rfl, rfl, plain⟩ := grows
    have noneLate : late.filterMap Instruction.value? = [] := List.filterMap_eq_nil_iff.mpr plain
    rw [List.filterMap_append, noneLate, List.append_nil] at ih
    simp only [List.filterMap_append, noneLate, List.append_nil, ih, values_of_instruction]

end Inserted

theorem inserted_of_convert (converted : convert strict tokens = .ok program) : Inserted tokens program := by
  have lenient := lenient_convert converted
  rw [convert_lenient] at lenient
  cases run : Conversion.start.steps false tokens with
  | error error =>
    rw [run] at lenient
    cases lenient
  | ok last =>
    rw [run] at lenient
    cases lenient
    exact (Conversion.steps_eq_ok_iff_reach.mp run).inserted

theorem isKnown_of_instruction {instruction : Instruction} (known : token.HasKnownSymbol)
    (asked : token.instruction? = some instruction) : instruction.IsKnown := by
  obtain ⟨kind, position⟩ := token
  cases kind with
  | number value =>
    cases asked
    trivial
  | identifier name =>
    rcases instruction_of_identifier name position with ⟨_, constant⟩ | ⟨_, unknown | ⟨f, function⟩⟩
    · cases constant.symm.trans asked
      trivial
    · cases unknown.symm.trans asked
    · cases function.symm.trans asked
      exact ⟨f, f.ofName?_name⟩
  | operator symbol =>
    obtain ⟨op, rfl⟩ := known symbol rfl
    cases asked
    exact ⟨op, op.ofSymbol?_symbol⟩
  | openParen | closeParen | comma | period => cases asked

theorem Inserted.isKnown (inserted : Inserted tokens program) (known : ∀ token ∈ tokens, token.HasKnownSymbol) :
    ∀ instruction ∈ program, instruction.IsKnown := by
  intro instruction member
  obtain ⟨token, there, asked⟩ := List.mem_filterMap.mp (inserted.perm.mem_iff.mp member)
  exact isKnown_of_instruction (known token there) asked

theorem exists_release (op : Operator) {pending : List Pending}
    (known : ∀ instruction ∈ pending.filterMap Pending.instruction?, instruction.IsKnown) (output : Program) :
    ∃ left rest, release op.symbol output pending = .ok (left, rest) := by
  induction pending generalizing output with
  | nil => exact ⟨output, [], rfl⟩
  | cons entry pending ih =>
    cases entry with
    | operator symbol =>
      have waits : Pending.instruction? (.operator symbol) = some (.binary symbol) := rfl
      rw [List.filterMap_cons_some waits, List.forall_mem_cons] at known
      obtain ⟨⟨earlier, found⟩, others⟩ := known
      obtain rfl := Operator.symbol_of_ofSymbol? found
      rw [release_operator]
      split
      · exact ih others (.binary earlier.symbol :: output)
      · exact ⟨output, _, rfl⟩
    | function | group => exact ⟨output, _, rfl⟩

theorem exists_lenient_close (state : Conversion) (position : Int) (next : Option TokenKind) :
    ∃ after, Moves false next state ⟨.closeParen, position⟩ after := by
  cases closed : closeGroup state.output state.pending with
  | mk left rest =>
    cases rest with
    | some pending => exact ⟨_, .closeParen nofun closed⟩
    | none => exact ⟨_, .cut rfl closed⟩

theorem exists_lenient_move {state : Conversion} (known : token.HasKnownSymbol)
    (lineKnown : ∀ instruction ∈ state.line, instruction.IsKnown) (next : Option TokenKind) :
    ∃ after, Moves false next state token after := by
  obtain ⟨kind, position⟩ := token
  cases kind with
  | number value => exact ⟨_, .number nofun⟩
  | identifier name =>
    rcases name_cases name with isPi | ⟨f, rfl⟩ | ⟨noPi, noFunction⟩
    · exact ⟨_, .constant isPi nofun⟩
    · exact ⟨_, .function nofun nofun⟩
    · exact ⟨_, .unknown rfl noPi noFunction⟩
  | operator symbol =>
    obtain ⟨op, rfl⟩ := known symbol rfl
    have waitingKnown : ∀ instruction ∈ state.pending.filterMap Pending.instruction?, instruction.IsKnown :=
      fun instruction member => lineKnown instruction (List.mem_append_right _ member)
    obtain ⟨left, rest, released⟩ := exists_release op waitingKnown state.output
    exact ⟨_, .operator nofun released⟩
  | openParen => exact ⟨_, .openParen nofun⟩
  | closeParen => exact exists_lenient_close state position next
  | comma mark => exact ⟨_, .comma rfl⟩
  | period mark => exact ⟨_, .period rfl⟩

/-- Lenient rules take in all tokens whose symbols have a meaning, since what waits has come from such tokens. -/
theorem exists_lenient_steps {before : List Token} {state : Conversion}
    (known : ∀ token ∈ before ++ tokens, token.HasKnownSymbol) (inserted : Inserted before state.line) :
    ∃ last, state.steps false tokens = .ok last := by
  induction tokens generalizing before state with
  | nil => exact ⟨state, rfl⟩
  | cons token tokens ih =>
    have knownBefore : ∀ other ∈ before, other.HasKnownSymbol :=
      fun other member => known other (List.mem_append_left _ member)
    have knownHere : token.HasKnownSymbol := known token (by simp)
    obtain ⟨after, move⟩ := exists_lenient_move knownHere (inserted.isKnown knownBefore) (tokens.head?.map Token.kind)
    rw [move.steps]
    have further : Inserted (before ++ [token]) after.line := .insert inserted move.grows
    refine ih ?_ further
    simpa using known

theorem exists_convert_lenient (known : ∀ token ∈ tokens, token.HasKnownSymbol) :
    ∃ program, convert false tokens = .ok program := by
  obtain ⟨last, run⟩ := exists_lenient_steps known .at_start
  rw [convert_lenient, run]
  exact ⟨last.line, rfl⟩

/-- Lenient rules make a program of any tokens whose symbols have a meaning. It holds what the tokens ask for and
nothing else, with the operands in the order of their tokens, and nothing stands before an operand whose token comes
first. -/
theorem convert_lenient_conserves (known : ∀ token ∈ tokens, token.HasKnownSymbol) :
    ∃ program, convert false tokens = .ok program ∧
      program.filterMap Instruction.value? = tokens.filterMap Token.value? ∧
      program.Perm (tokens.filterMap Token.instruction?) ∧
      ∃ origins, Attribution tokens program origins := by
  obtain ⟨program, converted⟩ := exists_convert_lenient known
  have inserted := inserted_of_convert converted
  exact ⟨program, converted, inserted.operands, inserted.perm, inserted.attribution⟩

theorem convert_lenient_conserves_malformed :
    (∀ token ∈ ([⟨.closeParen, 0⟩, ⟨.operator "+", 1⟩, ⟨.identifier "Pi", 2⟩, ⟨.openParen, 4⟩, ⟨.identifier "sin", 5⟩,
      ⟨.number .pi, 9⟩, ⟨.comma ",", 11⟩, ⟨.operator "^", 12⟩, ⟨.operator "^", 13⟩] : List Token),
      token.HasKnownSymbol) ∧
    convert false [⟨.closeParen, 0⟩, ⟨.operator "+", 1⟩, ⟨.identifier "Pi", 2⟩, ⟨.openParen, 4⟩, ⟨.identifier "sin", 5⟩,
      ⟨.number .pi, 9⟩, ⟨.comma ",", 11⟩, ⟨.operator "^", 12⟩, ⟨.operator "^", 13⟩] =
      .ok [.operand .pi, .operand .pi, .binary "^", .binary "^", .unary "sin", .binary "+"] ∧
    ∃ origins, Attribution [⟨.closeParen, 0⟩, ⟨.operator "+", 1⟩, ⟨.identifier "Pi", 2⟩, ⟨.openParen, 4⟩,
      ⟨.identifier "sin", 5⟩, ⟨.number .pi, 9⟩, ⟨.comma ",", 11⟩, ⟨.operator "^", 12⟩, ⟨.operator "^", 13⟩]
      [.operand .pi, .operand .pi, .binary "^", .binary "^", .unary "sin", .binary "+"] origins := by
  have known : ∀ token ∈ ([⟨.closeParen, 0⟩, ⟨.operator "+", 1⟩, ⟨.identifier "Pi", 2⟩, ⟨.openParen, 4⟩,
      ⟨.identifier "sin", 5⟩, ⟨.number .pi, 9⟩, ⟨.comma ",", 11⟩, ⟨.operator "^", 12⟩, ⟨.operator "^", 13⟩] :
      List Token), token.HasKnownSymbol := by
    simp only [List.forall_mem_cons, List.not_mem_nil, false_implies, implies_true, and_true, Token.HasKnownSymbol,
      reduceCtorEq, TokenKind.operator.injEq, forall_eq', true_and]
    exact ⟨⟨.add, rfl⟩, ⟨.pow, rfl⟩, ⟨.pow, rfl⟩⟩
  refine ⟨known, ?_⟩
  obtain ⟨program, converted, _, _, attributed⟩ := convert_lenient_conserves known
  cases converted
  exact ⟨rfl, attributed⟩

end Reckoner

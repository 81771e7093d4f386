import Reckoner.Elementary.Rounded
import Reckoner.Proofs.Conservation
import Reckoner.Proofs.LenientRun
import Reckoner.Proofs.Separation

namespace Reckoner

section Closing

variable {closing : List Token}

/-- Closing parentheses only decide when what waits leaves. The order is the one in which it would leave in the end,
so the line stays the same. -/
theorem Conversion.steps_closing (closes : ∀ token ∈ closing, token.kind = .closeParen) (state : Conversion) :
    ∃ last, state.steps false closing = .ok last ∧ last.line = state.line := by
  induction closing generalizing state with
  | nil => exact ⟨state, rfl, rfl⟩
  | cons token closing ih =>
    obtain ⟨kind, position⟩ := token
    obtain ⟨closesHere, closesLater⟩ := List.forall_mem_cons.mp closes
    obtain rfl : kind = .closeParen := closesHere
    obtain ⟨after, move⟩ := exists_lenient_close state position (closing.head?.map Token.kind)
    have unchanged : after.line = state.line := move.grows.eq_of_none
    obtain ⟨last, run, same⟩ := ih closesLater after
    refine ⟨last, ?_, same.trans unchanged⟩
    rw [move.steps]
    exact run

theorem convert_append_closing (closes : ∀ token ∈ closing, token.kind = .closeParen) (tokens : List Token) :
    convert false (tokens ++ closing) = convert false tokens := by
  rw [convert_lenient, convert_lenient, Conversion.steps_append]
  cases Conversion.start.steps false tokens with
  | error error => rfl
  | ok state =>
    obtain ⟨last, run, same⟩ := Conversion.steps_closing closes state
    rw [ok_bind, run]
    exact congrArg Except.ok same

end Closing

/-- Text of closing parentheses alone. -/
def closingText (count : Nat) : String := String.ofList (List.replicate count ')')

theorem endsWord_closingText (count : Nat) : EndsWord (closingText count).toList := by
  rw [closingText, String.toList_ofList]
  intro c first
  have member : c ∈ List.replicate count ')' := List.mem_of_mem_head? first
  obtain rfl := List.eq_of_mem_replicate member
  decide

theorem closes_of_mem_scanFrom_replicate (count position : Nat) :
    ∀ token ∈ scanFrom position [] (List.replicate count ')'), token.kind = .closeParen := by
  induction count generalizing position with
  | zero => simp [scanFrom]
  | succ count ih =>
    have extent : lexemeExtent ')' (List.replicate count ')') = 0 := rfl
    rw [List.replicate_succ, scanFrom_cons, firstToken?, extent]
    exact List.forall_mem_cons.mpr ⟨rfl, ih _⟩

/-- Closing parentheses at the end make no difference to lenient conversion, however many groups are left open. -/
theorem convert_closed_at_end [ElementaryFunctions] :
    (∀ tokens closing : List Token, (∀ token ∈ tokens, token.HasKnownSymbol) →
      (∀ token ∈ closing, token.kind = .closeParen) →
      ∃ program, convert false tokens = .ok program ∧ convert false (tokens ++ closing) = .ok program) ∧
    ∀ (source : String) (count : Nat),
      evaluate false (.text (source ++ closingText count)) = evaluate false (.text source) := by
  constructor
  · intro tokens closing known closes
    obtain ⟨program, converted⟩ := exists_convert_lenient known
    exact ⟨program, converted, (convert_append_closing closes tokens).trans converted⟩
  · intro source count
    have closes : ∀ token ∈ (scan (closingText count)).map (Token.relocate (· + source.length)),
        token.kind = .closeParen := by
      intro token member
      obtain ⟨other, scanned, rfl⟩ := List.mem_map.mp member
      rw [scan_eq, closingText, String.toList_ofList] at scanned
      exact closes_of_mem_scanFrom_replicate count 0 other scanned
    rw [evaluate_of_tokens rfl, evaluate_of_tokens rfl, scan_append (endsWord_closingText count),
      convert_append_closing closes]

/-- `sin(Pi+sqrt(` with a parenthesis more than there are open groups. -/
theorem convert_closed_at_end_overclosed :
    (∀ token ∈ ([⟨.identifier "sin", 0⟩, ⟨.openParen, 3⟩, ⟨.identifier "Pi", 4⟩, ⟨.operator "+", 6⟩,
      ⟨.identifier "sqrt", 7⟩, ⟨.openParen, 11⟩] : List Token), token.HasKnownSymbol) ∧
    (∀ token ∈ ([⟨.closeParen, 12⟩, ⟨.closeParen, 13⟩, ⟨.closeParen, 14⟩] : List Token), token.kind = .closeParen) ∧
    convert false [⟨.identifier "sin", 0⟩, ⟨.openParen, 3⟩, ⟨.identifier "Pi", 4⟩, ⟨.operator "+", 6⟩,
      ⟨.identifier "sqrt", 7⟩, ⟨.openParen, 11⟩, ⟨.closeParen, 12⟩, ⟨.closeParen, 13⟩, ⟨.closeParen, 14⟩] =
      .ok [.operand .pi, .unary "sqrt", .binary "+", .unary "sin"] ∧
    evaluate false (.text "sin(Pi+sqrt()))") = evaluate false (.text "sin(Pi+sqrt(") := by
  have known : ∀ token ∈ ([⟨.identifier "sin", 0⟩, ⟨.openParen, 3⟩, ⟨.identifier "Pi", 4⟩, ⟨.operator "+", 6⟩,
      ⟨.identifier "sqrt", 7⟩, ⟨.openParen, 11⟩] : List Token), token.HasKnownSymbol := by
    simp only [List.forall_mem_cons, List.not_mem_nil, false_implies, implies_true, and_true, Token.HasKnownSymbol,
      reduceCtorEq, TokenKind.operator.injEq, forall_eq', true_and]
    exact ⟨.add, rfl⟩
  have closes : ∀ token ∈ ([⟨.closeParen, 12⟩, ⟨.closeParen, 13⟩, ⟨.closeParen, 14⟩] : List Token),
      token.kind = .closeParen := by decide
  obtain ⟨program, converted, closed⟩ := convert_closed_at_end.1 _ _ known closes
  cases converted
  exact ⟨known, closes, closed, convert_closed_at_end.2 "sin(Pi+sqrt(" 3⟩

end Reckoner

import Reckoner.Proofs.StrictReach

namespace Reckoner

/-- At the end all makes one sum, or a group is still open, with a sum behind its parenthesis. -/
theorem Unfinished.finish {tokens phrase : List Token} {pending : List Pending} {forest : List Expression}
    {tree : Expression} (unfinished : Unfinished tokens pending forest) (derivation : Derives .atom phrase tree) :
    (∃ sum, Derives .sum (tokens ++ phrase) sum ∧
        finish true (written (tree :: forest)) pending = .ok sum.postorder) ∨
      ∃ before first after sum, tokens ++ phrase = before ++ ⟨.openParen, first⟩ :: after ∧ Derives .sum after sum ∧
        finish true (written (tree :: forest)) pending = .error (.refused .unmatchedOpen first) := by
  obtain ⟨ops, before, after, innermost, rest, sum, waits, split, opened, whole, emitted, bottom⟩ :=
    unfinished.collapse unfinished.held derivation
  rw [waits, finish_waiting, emitted, split]
  cases opened with
  | start => exact Or.inl ⟨sum, whole, by simp [Reckoner.finish]⟩
  | operator => rcases bottom with none | ⟨_, _, none⟩ <;> cases none
  | @group before _ _ first inner => exact Or.inr ⟨before, first, after, sum, by simp, whole, rfl⟩
  | @call before _ _ f position first inner =>
    exact Or.inr ⟨before ++ [⟨.identifier f.name, position⟩], first, after, sum, by simp, whole, rfl⟩

inductive StrictVerdict (tokens : List Token) : Except ConversionError Program → Prop
  | empty : tokens = [] → StrictVerdict tokens (.ok [])
  | accepted {tree : Expression} : Derives .sum tokens tree → StrictVerdict tokens (.ok tree.postorder)
  | refused {before after : List Token} {token : Token} {state : Conversion} {complaint : Complaint} :
      tokens = before ++ token :: after → StrictReach before state → Follows state (some token.kind) →
      Refuses (after.head?.map Token.kind) state token complaint →
      (∀ suffix, Conversion.start.steps true (before ++ token :: suffix) = state.steps true (token :: suffix)) →
      StrictVerdict tokens (.error (.refused complaint token.position))
  | endsWithoutOperand {before : List Token} {last : Token} {state : Conversion} : tokens = before ++ [last] →
      StrictReach tokens state → StrictVerdict tokens (.error (.refused .endsWithoutOperand last.position))
  | unmatchedOpen {before after : List Token} {first : Int} {state : Conversion} {sum : Expression} :
      tokens = before ++ ⟨.openParen, first⟩ :: after → StrictReach tokens state → Derives .sum after sum →
      StrictVerdict tokens (.error (.refused .unmatchedOpen first))

variable {tokens : List Token}

/-- A state that expects an operand ends the conversion with a complaint, or there was no token at all. -/
theorem StrictReach.verdict_expecting {state : Conversion} (reach : StrictReach tokens state)
    (run : Conversion.start.steps true tokens = .ok state) (expecting : state.expectsOperand = true) :
    StrictVerdict tokens (convert true tokens) := by
  rcases List.eq_nil_or_concat tokens with rfl | ⟨before, last, rfl⟩
  · exact .empty rfl
  · have atLast : (before.concat last).getLast? = some last := by simp
    rw [convert_of_steps_expecting run atLast expecting]
    exact .endsWithoutOperand (List.concat_eq_append ..) reach

theorem refused_of_agrees {before after : List Token} {token : Token} {state : Conversion} {complaint : Complaint}
    (refuses : Refuses (after.head?.map Token.kind) state token complaint)
    (agrees : Conversion.start.steps true (before ++ token :: after) = state.steps true (token :: after)) :
    convert true (before ++ token :: after) = .error (.refused complaint token.position) := by
  apply convert_of_steps_error
  rw [agrees, Conversion.steps, step_of_refuses refuses]

theorem strict_verdict (known : ∀ token ∈ tokens, token.HasKnownSymbol) :
    StrictVerdict tokens (convert true tokens) := by
  have free : Held .atom [] := trivial
  rcases StrictReach.start.steps known (free.follows [] true _) with
    ⟨last, run, reach, _⟩ | ⟨before, token, after, last, complaint, split, reach, follows, refuses, agrees⟩
  · rw [List.nil_append] at reach
    cases reach with
    | expecting unfinished => exact StrictReach.verdict_expecting (.expecting unfinished) run rfl
    | applying unfinished => exact StrictReach.verdict_expecting (.applying unfinished) run rfl
    | filled unfinished derivation =>
      rw [convert_of_steps run (Or.inr rfl)]
      rcases unfinished.finish derivation with
        ⟨sum, whole, finished⟩ | ⟨before, first, after, sum, split, whole, stopped⟩
      · rw [finished]
        exact .accepted whole
      · rw [stopped]
        exact .unmatchedOpen split (.filled unfinished derivation) whole
  · rw [split, refused_of_agrees refuses (agrees after)]
    exact .refused rfl reach follows refuses agrees

/-- Strict conversion accepts what the grammar derives, and nothing, and lists the expression that the tokens mean.
Everything else it refuses at some position. -/
theorem convert_strict_iff_derives (known : ∀ token ∈ tokens, token.HasKnownSymbol) :
    (∀ program, convert true tokens = .ok program ↔
      (tokens = [] ∧ program = []) ∨ ∃ tree, Derives .sum tokens tree ∧ program = tree.postorder) ∧
    ((¬ ∃ program, convert true tokens = .ok program) →
      ∃ complaint position, convert true tokens = .error (.refused complaint position)) := by
  refine ⟨fun program => ⟨fun converted => ?_, ?_⟩, fun rejected => ?_⟩
  · have verdict := strict_verdict known
    rw [converted] at verdict
    cases verdict with
    | empty none => exact Or.inl ⟨none, rfl⟩
    | accepted derivation => exact Or.inr ⟨_, derivation, rfl⟩
  · rintro (⟨rfl, rfl⟩ | ⟨tree, derivation, rfl⟩)
    · rfl
    · exact derivation.convert true
  · have verdict := strict_verdict known
    generalize converted : convert true tokens = result at verdict
    cases verdict with
    | empty | accepted => exact absurd ⟨_, converted⟩ rejected
    | refused | endsWithoutOperand | unmatchedOpen => exact ⟨_, _, rfl⟩

theorem convert_strict_iff_derives_difference :
    (∀ token ∈ ([⟨.identifier "Pi", 0⟩, ⟨.operator "-", 3⟩, ⟨.openParen, 5⟩, ⟨.number .pi, 6⟩, ⟨.closeParen, 7⟩] :
      List Token), token.HasKnownSymbol) ∧
    convert true [⟨.identifier "Pi", 0⟩, ⟨.operator "-", 3⟩, ⟨.openParen, 5⟩, ⟨.number .pi, 6⟩, ⟨.closeParen, 7⟩] =
      .ok [.operand .pi, .operand .pi, .binary "-"] := by
  have known : ∀ token ∈ ([⟨.identifier "Pi", 0⟩, ⟨.operator "-", 3⟩, ⟨.openParen, 5⟩, ⟨.number .pi, 6⟩,
      ⟨.closeParen, 7⟩] : List Token), token.HasKnownSymbol := by
    simp only [List.forall_mem_cons, List.not_mem_nil, false_implies, implies_true, and_true, Token.HasKnownSymbol,
      reduceCtorEq, TokenKind.operator.injEq, forall_eq', true_and]
    exact ⟨.sub, rfl⟩
  refine ⟨known, ?_⟩
  have minuend : Derives Operator.sub.leftLevel [⟨.identifier "Pi", 0⟩] (.operand .pi) :=
    (Derives.constant (by decide)).loosen (by decide)
  have inner : Derives .sum [⟨.number .pi, 6⟩] (.operand .pi) := Derives.number.loosen (by decide)
  have subtrahend : Derives Operator.sub.rightLevel (⟨.openParen, 5⟩ :: ([⟨.number .pi, 6⟩] ++ [⟨.closeParen, 7⟩]))
      (.operand .pi) := (Derives.group inner).loosen (by decide)
  have accepts := ((convert_strict_iff_derives known).1 _).mpr
    (Or.inr ⟨.binary .sub (.operand .pi) (.operand .pi), .chain minuend subtrahend, rfl⟩)
  exact accepts

end Reckoner

import Reckoner.Proofs.Brackets
import Reckoner.Proofs.PatternSearch
import Reckoner.Proofs.StrictAcceptance

namespace Reckoner

/-- Tokens that strict conversion accepts with some more tokens behind them. -/
def Viable (tokens : List Token) : Prop := ∃ suffix program, convert true (tokens ++ suffix) = .ok program

namespace Complaint

/-- Complaints that a function lacks its group. They rest on the token behind the name. -/
def AboutGroup (complaint : Complaint) : Prop := ∃ name, complaint = .functionWithoutGroup name

def AtEnd (complaint : Complaint) : Prop := complaint = .endsWithoutOperand ∨ complaint = .unmatchedOpen

end Complaint

/-- A complaint about the token at `i` comes as early as it can. -/
structure Earliest (tokens : List Token) (complaint : Complaint) (i : Nat) : Prop where
  reached : Viable (tokens.take i)
  excluded : ¬ complaint.AboutGroup → ¬ complaint.AtEnd → ¬ Viable (tokens.take (i + 1))
  awaited : complaint.AboutGroup →
    Viable (tokens.take (i + 1)) ∧ (i + 1 = tokens.length ∨ ¬ Viable (tokens.take (i + 2)))
  ended : complaint.AtEnd → Viable tokens
  innermost : complaint = .unmatchedOpen → InnermostUnclosed tokens i

variable {tokens before after phrase : List Token} {token : Token} {state : Conversion} {complaint : Complaint}

theorem Viable.of_append {suffix : List Token} (viable : Viable (tokens ++ suffix)) : Viable tokens := by
  obtain ⟨more, program, accepted⟩ := viable
  exact ⟨suffix ++ more, program, by rwa [← List.append_assoc]⟩

theorem Unfinished.viable {pending : List Pending} {forest : List Expression} {tree : Expression}
    (unfinished : Unfinished tokens pending forest) (derivation : Derives .atom phrase tree) :
    Viable (tokens ++ phrase) := by
  obtain ⟨suffix, sum, whole⟩ := unfinished.extend unfinished.held derivation
  exact ⟨suffix, sum.postorder, whole.convert true⟩

/-- From every state on its way strict conversion can still come to an end. -/
theorem StrictReach.viable (reach : StrictReach tokens state) : Viable tokens := by
  have leaf : Derives .atom [⟨.number .pi, 0⟩] (.operand .pi) := .number
  cases reach with
  | expecting unfinished => exact (unfinished.viable leaf).of_append
  | @applying tokens pending forest f position unfinished =>
    have call : Derives .atom (⟨.identifier f.name, position⟩ :: ⟨.openParen, 0⟩ :: ([⟨.number .pi, 0⟩] ++
        [⟨.closeParen, 0⟩])) (.call f (.operand .pi)) := .call (leaf.loosen Level.atom.sum_strength_le)
    have applied := unfinished.viable call
    rw [← List.singleton_append, ← List.append_assoc] at applied
    exact applied.of_append
  | filled unfinished derivation => exact unfinished.viable derivation

theorem not_viable_of_refuses
    (agrees : ∀ suffix, Conversion.start.steps true (before ++ token :: suffix) = state.steps true (token :: suffix))
    (refuses : ∀ suffix : List Token, Refuses ((after ++ suffix).head?.map Token.kind) state token complaint) :
    ¬ Viable (before ++ token :: after) := by
  rintro ⟨suffix, program, accepted⟩
  rw [List.append_assoc, List.cons_append, refused_of_agrees (refuses suffix) (agrees _)] at accepted
  cases accepted

/-- What a token is refused for shows at the token, and for a function at the one behind it. -/
theorem earliest_of_refuses (reach : StrictReach before state) (follows : Follows state (some token.kind))
    (refuses : Refuses (after.head?.map Token.kind) state token complaint)
    (agrees : ∀ suffix, Conversion.start.steps true (before ++ token :: suffix) = state.steps true (token :: suffix)) :
    Earliest (before ++ token :: after) complaint before.length where
  reached := by
    rw [List.take_left]
    exact reach.viable
  -- All but the complaint about a function stay the same whatever comes next.
  excluded apart _ := by
    rw [List.take_length_add_append]
    exact not_viable_of_refuses agrees fun suffix => refuses.other_next (fun name same => apart ⟨name, same⟩) _
  awaited := by
    rintro ⟨name, rfl⟩
    cases refuses with
    | @functionWithoutGroup f position expecting alone =>
      rw [List.take_length_add_append, List.take_length_add_append]
      refine ⟨?_, ?_⟩
      · cases reach with
        | expecting unfinished => exact (StrictReach.applying unfinished).viable
        | applying => cases follows _ _ rfl
        | filled => cases expecting
      · cases after with
        | nil => exact Or.inl (by simp)
        | cons second rest =>
          exact Or.inr (not_viable_of_refuses agrees fun _ => .functionWithoutGroup expecting alone)
  ended atEnd := by rcases atEnd with rfl | rfl <;> cases refuses
  innermost isOpen := by
    subst isOpen
    cases refuses

theorem not_aboutGroup_of_atEnd (atEnd : complaint.AtEnd) : ¬ complaint.AboutGroup := by
  rintro ⟨name, rfl⟩
  rcases atEnd with same | same <;> cases same

theorem earliest_of_atEnd (reach : StrictReach tokens state) (atEnd : complaint.AtEnd) {i : Nat}
    (innermost : complaint = .unmatchedOpen → InnermostUnclosed tokens i) : Earliest tokens complaint i where
  reached := by
    have viable := reach.viable
    rw [← List.take_append_drop i tokens] at viable
    exact viable.of_append
  excluded _ apart := absurd atEnd apart
  awaited aboutGroup := absurd aboutGroup (not_aboutGroup_of_atEnd atEnd)
  ended _ := reach.viable
  innermost := innermost

/-- A refusal of strict conversion is about one of the tokens, and it comes as early as it can. -/
theorem exists_earliest {position : Int} (known : ∀ token ∈ tokens, token.HasKnownSymbol)
    (refused : convert true tokens = .error (.refused complaint position)) :
    ∃ i token, tokens[i]? = some token ∧ token.position = position ∧ Earliest tokens complaint i := by
  have verdict := strict_verdict known
  rw [refused] at verdict
  cases verdict with
  | @refused before after token state _ split reach follows refuses agrees =>
    subst split
    exact ⟨before.length, token, by simp, rfl, earliest_of_refuses reach follows refuses agrees⟩
  | @endsWithoutOperand before last state split reach =>
    exact ⟨before.length, last, by simp [split], rfl, earliest_of_atEnd reach (Or.inl rfl) nofun⟩
  | @unmatchedOpen before after _ state sum split reach derivation =>
    refine ⟨before.length, ⟨.openParen, position⟩, by simp [split], rfl,
      earliest_of_atEnd reach (Or.inr rfl) fun _ => ?_⟩
    rw [split]
    exact innermostUnclosed_of_balanced derivation.balanced

/-- The position that strict conversion of a text complains about is that of exactly one token, the earliest that
shows the fault. -/
theorem strict_refusal_earliest {source : String} {position : Int}
    (refused : convert true (scan source) = .error (.refused complaint position)) :
    ∃ i token, (scan source)[i]? = some token ∧ token.position = position ∧
      (∀ j other, (scan source)[j]? = some other → other.position = position → j = i) ∧
      Earliest (scan source) complaint i := by
  obtain ⟨i, token, here, rfl, earliest⟩ := exists_earliest (fun token member => known_of_mem_scan member) refused
  refine ⟨i, token, here, rfl, fun j other there same => ?_, earliest⟩
  exact scan_position_injective there here same

theorem strict_refusal_earliest_unmatched :
    convert true (scan "(pi+(pi)") = .error (.refused .unmatchedOpen 0) ∧ InnermostUnclosed (scan "(pi+(pi)") 0 := by
  have tokens : scan "(pi+(pi)" = [⟨.openParen, 0⟩, ⟨.identifier "pi", 1⟩, ⟨.operator "+", 3⟩, ⟨.openParen, 4⟩,
      ⟨.identifier "pi", 5⟩, ⟨.closeParen, 7⟩] := by decide +kernel
  have refused : convert true (scan "(pi+(pi)") = .error (.refused .unmatchedOpen 0) := by
    rw [tokens]
    rfl
  refine ⟨refused, ?_⟩
  obtain ⟨i, _, _, _, unique, earliest⟩ := strict_refusal_earliest refused
  have first : (scan "(pi+(pi)")[0]? = some ⟨.openParen, 0⟩ := by rw [tokens]; rfl
  rw [unique 0 _ first rfl]
  exact earliest.innermost rfl

end Reckoner

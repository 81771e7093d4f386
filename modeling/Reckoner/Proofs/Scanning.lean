import Reckoner.Proofs.StrictReach

namespace Reckoner

/-- How many characters after the first one, `c`, are taken for the lexeme that begins there, as the first one and the
runs behind it tell. -/
def lexemeExtent (c : Char) (rest : List Char) : Nat :=
  let digits := (rest.takeWhile Char.isDigit).length
  if c.isDigit then
    match rest.drop digits with
    | '.' :: fraction => digits + 1 + (fraction.takeWhile Char.isDigit).length
    | _ => digits
  else if c == '.' then digits
  else if isNameChar c then (rest.takeWhile isNameChar).length
  else 0

/-- What a lexeme stands for, if its characters have a meaning. -/
def TokenKind.ofLexeme? : List Char → Option TokenKind
  | [] => none
  | ['.'] => some (.period ".")
  | [','] => some (.comma ",")
  | ['('] => some .openParen
  | [')'] => some .closeParen
  | c :: rest =>
    let text := String.ofList (c :: rest)
    if c.isDigit || c == '.' then some (.number ((numeralValue (c :: rest)).nearest false))
    else if isNameChar c then some (.identifier text)
    else (Operator.ofSymbol? text).map fun _ => .operator text

/-- Scanning in one pass: the first character decides how much is taken, and what has no meaning is passed over. -/
def scanFrom (position : Nat) (found : List Token) : List Char → List Token
  | [] => found.reverse
  | c :: rest =>
    let extent := lexemeExtent c rest
    let found := match TokenKind.ofLexeme? (c :: rest.take extent) with
      | some kind => ⟨kind, position⟩ :: found
      | none => found
    scanFrom (position + extent + 1) found (rest.drop extent)
termination_by text => text.length
decreasing_by simp only [List.length_drop, List.length_cons]; omega

theorem scanFrom_found (position : Nat) (found : List Token) (text : List Char) :
    scanFrom position found text = found.reverse ++ scanFrom position [] text := by
  match text with
  | [] => simp [scanFrom]
  | c :: rest =>
    rw [scanFrom, scanFrom]
    cases TokenKind.ofLexeme? (c :: rest.take (lexemeExtent c rest)) with
    | none => exact scanFrom_found _ found _
    | some kind =>
      rw [scanFrom_found _ (⟨kind, position⟩ :: found), scanFrom_found _ [⟨kind, position⟩], List.reverse_cons,
        List.append_assoc]
      rfl
termination_by text.length
decreasing_by all_goals simp only [List.length_drop, List.length_cons]; omega

/-- The token of the first lexeme, if the lexeme has a meaning. -/
def firstToken? (position : Nat) (c : Char) (rest : List Char) : Option Token :=
  (TokenKind.ofLexeme? (c :: rest.take (lexemeExtent c rest))).map fun kind => ⟨kind, position⟩

theorem scanFrom_cons (position : Nat) (c : Char) (rest : List Char) :
    scanFrom position [] (c :: rest) = (firstToken? position c rest).toList ++
      scanFrom (position + lexemeExtent c rest + 1) [] (rest.drop (lexemeExtent c rest)) := by
  rw [scanFrom, firstToken?]
  cases TokenKind.ofLexeme? (c :: rest.take (lexemeExtent c rest)) with
  | none => rfl
  | some kind =>
    rw [scanFrom_found]
    rfl

theorem position_of_firstToken {position : Nat} {c : Char} {rest : List Char} {token : Token}
    (found : firstToken? position c rest = some token) : token.position = position := by
  obtain ⟨kind, _, rfl⟩ := Option.map_eq_some_iff.mp found
  rfl

/-- What holds of the first token wherever scanning stands holds of all tokens. -/
theorem forall_mem_scanFrom {holds : Nat → Token → Prop}
    (first : ∀ position c rest token, firstToken? position c rest = some token → holds position token)
    (later : ∀ position further token, position ≤ further → holds further token → holds position token)
    (position : Nat) (text : List Char) : ∀ token ∈ scanFrom position [] text, holds position token := by
  intro token member
  match text with
  | [] => simp [scanFrom] at member
  | c :: rest =>
    rw [scanFrom_cons, List.mem_append, Option.mem_toList] at member
    rcases member with here | behind
    · exact first position c rest token here
    · exact later _ _ token (by omega) (forall_mem_scanFrom first later _ _ token behind)
termination_by text.length
decreasing_by simp only [List.length_drop, List.length_cons]; omega

theorem position_le_of_mem_scanFrom {position : Nat} {text : List Char} {token : Token}
    (member : token ∈ scanFrom position [] text) : (position : Int) ≤ token.position := by
  refine @forall_mem_scanFrom (fun position token => (position : Int) ≤ token.position) ?_ ?_ position text token member
  · intro position c rest token found
    exact Int.le_of_eq (position_of_firstToken found).symm
  · intro position further token before bound
    omega

/-- Tokens stand in the order of their positions, and no two share one. -/
theorem scanFrom_pairwise (position : Nat) (text : List Char) :
    (scanFrom position [] text).Pairwise fun token later => token.position < later.position := by
  match text with
  | [] => simp [scanFrom]
  | c :: rest =>
    rw [scanFrom_cons, List.pairwise_append]
    refine ⟨?_, scanFrom_pairwise _ _, ?_⟩
    · cases firstToken? position c rest <;> simp
    · intro token here later behind
      have atStart := position_of_firstToken (Option.mem_toList.mp here)
      have beyond := position_le_of_mem_scanFrom behind
      omega
termination_by text.length
decreasing_by simp only [List.length_drop, List.length_cons]; omega

theorem ofLexeme_operator {lexeme : List Char} {symbol : String}
    (found : TokenKind.ofLexeme? lexeme = some (.operator symbol)) : ∃ op : Operator, op.symbol = symbol := by
  unfold TokenKind.ofLexeme? at found
  split at found
  iterate 5 cases found
  split at found
  · cases found
  split at found
  · cases found
  obtain ⟨op, known, same⟩ := Option.map_eq_some_iff.mp found
  cases same
  exact ⟨op, (Operator.symbol_of_ofSymbol? known).symm⟩

end Reckoner

import Reckoner.Elementary.Rounded
import Reckoner.Proofs.Pieces
import Reckoner.Proofs.Relocation

namespace Reckoner

variable {text rest lexeme other : List Char} {kind otherKind : TokenKind}

/-- A beginning that does not hold the first character of what stands behind a text lies within the text. -/
theorem prefix_of_stop (within : other <+: text ++ rest) (stop : ∀ c ∈ rest.head?, c ∉ other) : other <+: text := by
  by_cases short : other.length ≤ text.length
  · exact List.prefix_of_prefix_length_le within (List.prefix_append text rest) short
  · cases rest with
    | nil => simpa using within
    | cons c rest =>
      have inside : text.length < other.length := by omega
      have reached := within.getElem inside
      rw [List.getElem_append_right (Nat.le_refl _)] at reached
      have member : c ∈ other := by
        rw [show c = other[text.length] by simpa using reached.symm]
        exact List.getElem_mem inside
      exact absurd member (stop c rfl)

namespace Longest

variable {holds : List Char → Prop}

theorem unique (first : Longest holds lexeme text) (second : Longest holds other text) : lexeme = other := by
  have least := second.longest lexeme first.beginning first.member
  have most := first.longest other second.beginning second.member
  exact (List.prefix_of_prefix_length_le first.beginning second.beginning least).eq_of_length
    (Nat.le_antisymm least most)

theorem append (longest : Longest holds lexeme text)
    (within : ∀ other, other <+: text ++ rest → holds other → other <+: text) : Longest holds lexeme (text ++ rest) :=
  ⟨longest.member, longest.beginning.trans (List.prefix_append text rest), fun other beginning member =>
    longest.longest other (within other beginning member) member⟩

theorem of_append (longest : Longest holds lexeme (text ++ rest)) (within : lexeme <+: text) :
    Longest holds lexeme text :=
  ⟨longest.member, within,
    fun other beginning => longest.longest other (beginning.trans (List.prefix_append text rest))⟩

end Longest

theorem IsNumeral.prefix_of_endsWord (isNumeral : IsNumeral other) (ends : EndsWord rest)
    (within : other <+: text ++ rest) : other <+: text := by
  obtain ⟨numeral, rfl⟩ := isNumeral
  refine prefix_of_stop within fun c first member => ?_
  obtain ⟨noDigit, noPoint, -⟩ := ends c first
  rcases numeral.digit_or_point member with digit | point
  · rw [noDigit] at digit
    cases digit
  · exact noPoint point

theorem IsLetters.prefix_of_endsWord (isLetters : IsLetters other) (ends : EndsWord rest)
    (within : other <+: text ++ rest) : other <+: text := by
  refine prefix_of_stop within fun c first member => ?_
  obtain ⟨-, -, noLetter⟩ := ends c first
  have letter := isLetters.2 c member
  rw [noLetter] at letter
  cases letter

theorem ofLexeme_symbolKinds : ∀ entry ∈ symbolKinds, TokenKind.ofLexeme? [entry.1] = some entry.2 := by decide

namespace Leads

theorem ofLexeme (leads : Leads text lexeme kind) : TokenKind.ofLexeme? lexeme = some kind := by
  cases leads with
  | number numeral _ => exact numeral.ofLexeme_text
  | letters _ longest =>
    obtain ⟨nonempty, letters⟩ := longest.member
    obtain ⟨c, tail, rfl⟩ := List.exists_cons_of_ne_nil nonempty
    exact ofLexeme_name letters
  | symbol _ _ _ kinds => exact ofLexeme_symbolKinds _ kinds

/-- A text leads with one lexeme only. -/
theorem unique (first : Leads text lexeme kind) (second : Leads text other otherKind) :
    lexeme = other ∧ kind = otherKind := by
  have sameLexeme : lexeme = other := by
    cases first with
    | number _ longest =>
      cases second with
      | number _ longest' => exact longest.unique longest'
      | letters noNumber _ | symbol noNumber _ _ _ => exact absurd longest.member (noNumber _ longest.beginning)
    | letters noNumber longest =>
      cases second with
      | number _ longest' => exact absurd longest'.member (noNumber _ longest'.beginning)
      | letters _ longest' => exact longest.unique longest'
      | symbol _ noLetters _ _ => exact absurd longest.member (noLetters _ longest.beginning)
    | symbol noNumber noLetters single _ =>
      cases second with
      | number _ longest' => exact absurd longest'.member (noNumber _ longest'.beginning)
      | letters _ longest' => exact absurd longest'.member (noLetters _ longest'.beginning)
      | symbol _ _ single' _ => exact (List.prefix_of_prefix_length_le single single' (Nat.le_refl 1)).eq_of_length rfl
  subst sameLexeme
  exact ⟨rfl, Option.some.inj (first.ofLexeme.symm.trans second.ofLexeme)⟩

/-- What begins with a character that goes on with no word changes nothing in front of it. -/
theorem append (leads : Leads text lexeme kind) (ends : EndsWord rest) : Leads (text ++ rest) lexeme kind := by
  have number (other : List Char) (within : other <+: text ++ rest) (isNumeral : IsNumeral other) : other <+: text :=
    isNumeral.prefix_of_endsWord ends within
  have letters (other : List Char) (within : other <+: text ++ rest) (isLetters : IsLetters other) : other <+: text :=
    isLetters.prefix_of_endsWord ends within
  cases leads with
  | number numeral longest => exact .number numeral (longest.append number)
  | letters noNumber longest =>
    exact .letters (fun other within isNumeral => noNumber other (number other within isNumeral) isNumeral)
      (longest.append letters)
  | symbol noNumber noLetters single kinds =>
    exact .symbol (fun other within isNumeral => noNumber other (number other within isNumeral) isNumeral)
      (fun other within isLetters => noLetters other (letters other within isLetters) isLetters)
      (single.trans (List.prefix_append text rest)) kinds

theorem of_append (leads : Leads (text ++ rest) lexeme kind) (within : lexeme <+: text) : Leads text lexeme kind := by
  have longer {other : List Char} (beginning : other <+: text) : other <+: text ++ rest :=
    beginning.trans (List.prefix_append text rest)
  cases leads with
  | number numeral longest => exact .number numeral (longest.of_append within)
  | letters noNumber longest =>
    exact .letters (fun other beginning => noNumber other (longer beginning)) (longest.of_append within)
  | symbol noNumber noLetters _ kinds =>
    exact .symbol (fun other beginning => noNumber other (longer beginning))
      (fun other beginning => noLetters other (longer beginning)) within kinds

end Leads

namespace Cut

variable {place : Nat} {pieces behind : List Piece}

/-- Scanning has no choice. -/
theorem scanFrom_eq (cut : Cut place text pieces) : scanFrom place [] text = pieces.map Piece.token := by
  induction cut with
  | done => simp [scanFrom]
  | skip unknown _ ih =>
    rw [scanFrom_cons, firstToken?, unknown.lexemeExtent, List.take_zero, unknown.ofLexeme]
    exact ih
  | @piece place lexeme text kind pieces leads _ ih =>
    obtain ⟨c, tail, rfl⟩ := List.exists_cons_of_ne_nil leads.ne_nil
    rcases unrecognised_or_leads c (tail ++ text) with unknown | ⟨taken, takenKind, leadsToo, extent, meaning⟩
    · exact absurd unknown (leads.recognised List.mem_cons_self)
    · obtain ⟨rfl, rfl⟩ := leads.unique leadsToo
      have length : lexemeExtent c (tail ++ text) = tail.length := by
        have within := lexemeExtent_le c (tail ++ text)
        have same := congrArg List.length extent
        simp only [List.length_cons, List.length_take] at same
        omega
      rw [List.cons_append, scanFrom_cons, firstToken?, length, List.take_left, List.drop_left, meaning, List.map_cons,
        ← ih]
      rfl

theorem append (cut : Cut place text pieces) (ends : EndsWord rest) (behindIt : Cut (place + text.length) rest behind) :
    Cut place (text ++ rest) (pieces ++ behind) := by
  induction cut with
  | done => exact behindIt
  | @skip place c text pieces unknown _ ih =>
    refine .skip unknown (ih ?_)
    rwa [List.length_cons, Nat.add_comm text.length, ← Nat.add_assoc] at behindIt
  | @piece place lexeme text kind pieces leads _ ih =>
    have extended := leads.append ends
    rw [List.append_assoc] at extended ⊢
    refine .piece extended (ih ?_)
    rwa [List.length_append, ← Nat.add_assoc] at behindIt

theorem skips {skipped : List Char} (unknown : ∀ c ∈ skipped, Unrecognised c)
    (cut : Cut (place + skipped.length) text pieces) : Cut place (skipped ++ text) pieces := by
  induction skipped generalizing place with
  | nil => exact cut
  | cons c skipped ih =>
    obtain ⟨first, later⟩ := List.forall_mem_cons.mp unknown
    refine .skip first (ih later ?_)
    rwa [List.length_cons, Nat.add_comm skipped.length, ← Nat.add_assoc] at cut

/-- A text cut where no lexeme goes on is cut into the same lexemes. -/
theorem split (cut : Cut place (text ++ rest) pieces)
    (boundary : ∀ piece ∈ pieces, place + text.length ≤ piece.start ∨ piece.stop ≤ place + text.length) :
    ∃ before behind, pieces = before ++ behind ∧ Cut place text before ∧ Cut (place + text.length) rest behind := by
  generalize whole : text ++ rest = all at cut
  induction cut generalizing text with
  | done =>
    obtain ⟨rfl, rfl⟩ := List.append_eq_nil_iff.mp whole
    exact ⟨[], [], rfl, .done, .done⟩
  | @skip place c later pieces unknown cut ih =>
    rcases List.append_eq_cons_iff.mp whole with ⟨rfl, rfl⟩ | ⟨text, rfl, same⟩
    · exact ⟨[], pieces, rfl, .done, .skip unknown cut⟩
    · have shift : place + (c :: text).length = place + 1 + text.length := by
        rw [List.length_cons]
        omega
      rw [shift] at boundary ⊢
      obtain ⟨before, behind, rfl, first, second⟩ := ih boundary same.symm
      exact ⟨before, behind, rfl, .skip unknown first, second⟩
  | @piece place lexeme later kind pieces leads cut ih =>
    by_cases empty : text = []
    · subst empty
      obtain rfl : rest = lexeme ++ later := whole
      exact ⟨[], _, rfl, .done, .piece leads cut⟩
    · obtain ⟨here, further⟩ := List.forall_mem_cons.mp boundary
      have positive := List.length_pos_iff.mpr empty
      have within : lexeme.length ≤ text.length := by
        simp only [Piece.stop] at here
        omega
      have beginning : lexeme <+: text := List.prefix_of_prefix_length_le
        (whole ▸ List.prefix_append lexeme later) (List.prefix_append text rest) within
      obtain ⟨text, rfl⟩ := beginning
      rw [List.append_assoc] at whole
      have same := List.append_cancel_left whole
      have shift : place + (lexeme ++ text).length = place + lexeme.length + text.length := by
        rw [List.length_append]
        omega
      rw [shift] at further ⊢
      obtain ⟨before, behind, rfl, first, second⟩ := ih further same
      rw [← same, ← List.append_assoc] at leads
      exact ⟨_, behind, rfl, .piece (leads.of_append (List.prefix_append lexeme text)) first, second⟩

end Cut

theorem firstToken_relocate (place more : Nat) (c : Char) (rest : List Char) :
    firstToken? (place + more) c rest = (firstToken? place c rest).map (Token.relocate (· + more)) := by
  rw [firstToken?, firstToken?, Option.map_map]
  rfl

/-- Further on in a text the same tokens stand at places further on. -/
theorem scanFrom_relocate (place more : Nat) (text : List Char) :
    scanFrom (place + more) [] text = (scanFrom place [] text).map (Token.relocate (· + more)) := by
  match text with
  | [] => simp [scanFrom]
  | c :: rest =>
    have shift : place + more + lexemeExtent c rest + 1 = place + lexemeExtent c rest + 1 + more := by omega
    rw [scanFrom_cons, scanFrom_cons, shift, scanFrom_relocate, firstToken_relocate, List.map_append,
      Option.toList_map]
termination_by text.length
decreasing_by simp only [List.length_drop, List.length_cons]; omega

/-- Where a word ends scanning begins anew. -/
theorem scan_append {source more : String} (ends : EndsWord more.toList) :
    scan (source ++ more) = scan source ++ (scan more).map (Token.relocate (· + source.length)) := by
  obtain ⟨pieces, cut, scanned⟩ := exists_cut 0 source.toList
  obtain ⟨others, behind, scannedBehind⟩ := exists_cut (0 + source.toList.length) more.toList
  have whole := (cut.append ends behind).scanFrom_eq
  rw [List.map_append, ← scanned, ← scannedBehind, scanFrom_relocate, String.length_toList] at whole
  rw [scan_eq, scan_eq, scan_eq, String.toList_append]
  exact whole

theorem scan_skip {skipped : String} (unknown : ∀ c ∈ skipped.toList, Unrecognised c) (more : String) :
    scan (skipped ++ more) = (scan more).map (Token.relocate (· + skipped.length)) := by
  obtain ⟨pieces, behind, scannedBehind⟩ := exists_cut (0 + skipped.toList.length) more.toList
  have whole := (behind.skips unknown).scanFrom_eq
  rw [← scannedBehind, scanFrom_relocate, String.length_toList] at whole
  rw [scan_eq, scan_eq, String.toList_append]
  exact whole

/-- A place of a text that no lexeme goes on over. -/
def Boundary (text : List Char) (place : Nat) : Prop :=
  ∀ piece : Piece, piece.token ∈ searchFrom 0 [] text → Leads (text.drop piece.start) piece.lexeme piece.kind →
    place ≤ piece.start ∨ piece.stop ≤ place

theorem map_kind_relocate (move : Int → Int) (tokens : List Token) :
    (tokens.map (Token.relocate move)).map Token.kind = tokens.map Token.kind := by
  rw [List.map_map]
  rfl

theorem map_kind_scan_append {before after : String} (boundary : Boundary (before ++ after).toList before.length) :
    (scan (before ++ after)).map Token.kind = (scan before).map Token.kind ++ (scan after).map Token.kind := by
  obtain ⟨pieces, cut, scanned⟩ := exists_cut_scan (before ++ after)
  have apart : ∀ piece ∈ pieces, 0 + before.toList.length ≤ piece.start ∨ piece.stop ≤ 0 + before.toList.length := by
    intro piece member
    rw [Nat.zero_add, String.length_toList]
    refine boundary piece ?_ (cut.leads piece member)
    change piece.token ∈ scan (before ++ after)
    rw [scanned]
    exact List.mem_map_of_mem member
  rw [String.toList_append] at cut
  obtain ⟨first, second, rfl, cutFirst, cutSecond⟩ := cut.split apart
  have firstTokens := cutFirst.scanFrom_eq
  have secondTokens := cutSecond.scanFrom_eq
  rw [scanFrom_relocate] at secondTokens
  have secondKinds := congrArg (List.map Token.kind) secondTokens
  rw [map_kind_relocate] at secondKinds
  rw [scanned, scan_eq before, scan_eq after, List.map_append, List.map_append, ← firstTokens, ← secondKinds]

theorem endsWord_of_unrecognised {skipped : String} (some_character : skipped ≠ "")
    (unknown : ∀ c ∈ skipped.toList, Unrecognised c) (more : String) : EndsWord (skipped ++ more).toList := by
  rw [String.toList_append]
  cases split : skipped.toList with
  | nil => exact absurd (String.toList_eq_nil_iff.mp split) some_character
  | cons c tail =>
    have first : Unrecognised c := unknown c (by rw [split]; exact List.mem_cons_self)
    exact first.endsWord _

/-- Unrecognised characters part a text into two that are scanned each by itself. Where no lexeme goes on they can be
put in or left out without a change to the value or to the reason for having none. -/
theorem scan_separated [ElementaryFunctions] :
    (∀ before skipped after : String, skipped ≠ "" → (∀ c ∈ skipped.toList, Unrecognised c) →
      scan (before ++ skipped ++ after) =
        scan before ++ (scan after).map (Token.relocate (· + (before.length + skipped.length : Nat)))) ∧
    ∀ before skipped after : String, (∀ c ∈ skipped.toList, Unrecognised c) →
      Boundary (before ++ after).toList before.length → ∀ strict,
        (evaluate strict (.text (before ++ skipped ++ after))).mapError Failure.reason =
          (evaluate strict (.text (before ++ after))).mapError Failure.reason := by
  have separated (before skipped after : String) (some_character : skipped ≠ "")
      (unknown : ∀ c ∈ skipped.toList, Unrecognised c) : scan (before ++ skipped ++ after) =
        scan before ++ (scan after).map (Token.relocate (· + (before.length + skipped.length : Nat))) := by
    have twice : Token.relocate (· + before.length) ∘ Token.relocate (· + skipped.length) =
        Token.relocate (· + (before.length + skipped.length : Nat)) := by
      funext token
      have sum : token.position + skipped.length + before.length =
          token.position + (before.length + skipped.length : Nat) := by omega
      exact congrArg (Token.mk token.kind) sum
    rw [String.append_assoc, scan_append (endsWord_of_unrecognised some_character unknown after), scan_skip unknown,
      List.map_map, twice]
  refine ⟨separated, fun before skipped after unknown boundary strict => evaluate_congr ?_⟩
  by_cases none : skipped = ""
  · rw [none, String.append_empty]
  · rw [separated before skipped after none unknown, List.map_append, map_kind_relocate, map_kind_scan_append boundary]

theorem scan_separated_points :
    " §\n" ≠ "" ∧ (∀ c ∈ " §\n".toList, Unrecognised c) ∧ Boundary "1..5".toList 2 ∧
      scan "1. §\n.5" = scan "1." ++ (scan ".5").map (Token.relocate (· + 5)) ∧
      ∀ strict, (evaluate strict (.text "1. §\n.5")).mapError Failure.reason =
        (evaluate strict (.text "1..5")).mapError Failure.reason := by
  have some_character : " §\n" ≠ "" := by decide
  have unknown : ∀ c ∈ " §\n".toList, Unrecognised c := by
    change ∀ c ∈ [' ', '§', '\n'], Unrecognised c
    simp only [List.forall_mem_cons, List.not_mem_nil, false_implies, implies_true, and_true]
    exact ⟨⟨rfl, rfl, by decide⟩, ⟨rfl, rfl, by decide⟩, rfl, rfl, by decide⟩
  have boundary : Boundary ['1', '.', '.', '5'] 2 := by
    intro piece member leads
    have starts : ∀ token ∈ searchFrom 0 [] ['1', '.', '.', '5'], token.position = 0 ∨ token.position = 2 := by
      decide +kernel
    rcases starts piece.token member with first | second
    · have atStart : piece.start = 0 := Int.natCast_eq_zero.mp first
      rw [atStart] at leads
      rcases unrecognised_or_leads '1' ['.', '.', '5'] with ⟨noDigit, -⟩ | ⟨lexeme, kind, leadsToo, taken, -⟩
      · cases noDigit
      · obtain ⟨sameLexeme, -⟩ := leads.unique leadsToo
        right
        rw [Piece.stop, atStart, sameLexeme, taken]
        exact Nat.le_refl 2
    · have atPoint : piece.start = 2 := Int.ofNat_inj.mp second
      exact Or.inl (Nat.le_of_eq atPoint.symm)
  have scanned := scan_separated.1 "1." " §\n" ".5" some_character unknown
  have evaluated := scan_separated.2 "1." " §\n" ".5" unknown boundary
  exact ⟨some_character, unknown, boundary, scanned, evaluated⟩

end Reckoner

import Reckoner.Proofs.PatternSearch

namespace Reckoner

/-- A lexeme with the place of its first character. -/
structure Piece where
  start : Nat
  lexeme : List Char
  kind : TokenKind

namespace Piece

def token (piece : Piece) : Token := ⟨piece.kind, piece.start⟩

def stop (piece : Piece) : Nat := piece.start + piece.lexeme.length

def Covers (piece : Piece) (place : Nat) : Prop := piece.start ≤ place ∧ place < piece.stop

end Piece

variable {c : Char} {text : List Char}

/-- A text from a place on, cut into longest lexemes and unrecognised characters. -/
inductive Cut : Nat → List Char → List Piece → Prop
  | done {place : Nat} : Cut place [] []
  | skip {place : Nat} {c : Char} {text : List Char} {pieces : List Piece} : Unrecognised c →
      Cut (place + 1) text pieces → Cut place (c :: text) pieces
  | piece {place : Nat} {lexeme text : List Char} {kind : TokenKind} {pieces : List Piece} :
      Leads (lexeme ++ text) lexeme kind → Cut (place + lexeme.length) text pieces →
      Cut place (lexeme ++ text) (⟨place, lexeme, kind⟩ :: pieces)

/-- Scanning cuts the text so. -/
theorem exists_cut (place : Nat) (text : List Char) :
    ∃ pieces, Cut place text pieces ∧ scanFrom place [] text = pieces.map Piece.token := by
  match text with
  | [] => exact ⟨[], .done, by simp [scanFrom]⟩
  | c :: rest =>
    rcases unrecognised_or_leads c rest with unknown | ⟨lexeme, kind, leads, takes⟩
    · obtain ⟨pieces, cut, scanned⟩ := exists_cut (place + 1) rest
      refine ⟨pieces, .skip unknown cut, ?_⟩
      rw [scanFrom_cons, firstToken?, unknown.lexemeExtent, List.take_zero, unknown.ofLexeme]
      exact scanned
    · have length := takes.length
      obtain ⟨taken, meaning⟩ := takes
      obtain ⟨pieces, cut, scanned⟩ := exists_cut (place + lexeme.length) (rest.drop (lexemeExtent c rest))
      have whole : c :: rest = lexeme ++ rest.drop (lexemeExtent c rest) := by
        rw [taken, List.cons_append, List.take_append_drop]
      refine ⟨⟨place, lexeme, kind⟩ :: pieces, ?_, ?_⟩
      · rw [whole] at leads ⊢
        exact .piece leads cut
      · rw [scanFrom_cons, firstToken?, ← taken, meaning, List.map_cons, ← scanned, length]
        rfl
termination_by text.length
decreasing_by
  · simp
  · simp only [List.length_drop, List.length_cons]
    omega

theorem exists_cut_scan (source : String) :
    ∃ pieces, Cut 0 source.toList pieces ∧ scan source = pieces.map Piece.token := by
  rw [scan_eq]
  exact exists_cut 0 source.toList

namespace Cut

variable {place : Nat} {pieces : List Piece}

theorem start_le (cut : Cut place text pieces) : ∀ piece ∈ pieces, place ≤ piece.start := by
  induction cut with
  | done => simp
  | skip _ _ ih =>
    intro piece member
    have behindIt := ih piece member
    omega
  | piece _ _ ih =>
    intro piece member
    rcases List.mem_cons.mp member with rfl | later
    · exact Nat.le_refl _
    · have behindIt := ih piece later
      omega

/-- Pieces follow one another without overlap. -/
theorem pairwise (cut : Cut place text pieces) :
    pieces.Pairwise fun piece next => piece.start < next.start ∧ piece.stop ≤ next.start := by
  induction cut with
  | done => exact .nil
  | skip _ _ ih => exact ih
  | @piece place lexeme text kind pieces leads cut ih =>
    refine List.pairwise_cons.mpr ⟨fun next member => ?_, ih⟩
    have behindIt := cut.start_le next member
    have positive := List.length_pos_iff.mpr leads.ne_nil
    simp only [Piece.stop]
    omega

theorem leads (cut : Cut place text pieces) :
    ∀ piece ∈ pieces, Leads (text.drop (piece.start - place)) piece.lexeme piece.kind := by
  induction cut with
  | done => simp
  | @skip place c text pieces _ cut ih =>
    intro piece member
    have behindIt := cut.start_le piece member
    have shift : piece.start - place = (piece.start - (place + 1)) + 1 := by omega
    rw [shift, List.drop_succ_cons]
    exact ih piece member
  | @piece place lexeme text kind pieces leads cut ih =>
    intro piece member
    rcases List.mem_cons.mp member with rfl | later
    · rwa [Nat.sub_self, List.drop_zero]
    · have behindIt := cut.start_le piece later
      have shift : piece.start - place = lexeme.length + (piece.start - (place + lexeme.length)) := by omega
      rw [shift, List.drop_length_add_append]
      exact ih piece later

/-- Every character is part of a piece, or no lexeme holds it. -/
theorem uncovered_iff (cut : Cut place text pieces) {i : Nat} (here : text[i]? = some c) :
    (∀ piece ∈ pieces, ¬piece.Covers (place + i)) ↔ Unrecognised c := by
  induction cut generalizing i with
  | done => simp at here
  | @skip place first text pieces unknown cut ih =>
    cases i with
    | zero =>
      obtain rfl : first = c := Option.some.inj here
      refine ⟨fun _ => unknown, fun _ piece member covered => ?_⟩
      have behindIt := cut.start_le piece member
      have reached := covered.1
      omega
    | succ i =>
      have later := ih (i := i) here
      rwa [Nat.add_assoc, Nat.add_comm 1 i] at later
  | @piece place lexeme text kind pieces leads cut ih =>
    by_cases inside : i < lexeme.length
    · rw [List.getElem?_append_left inside] at here
      have member := List.mem_of_getElem? here
      refine ⟨fun uncovered => absurd ?_ (uncovered _ List.mem_cons_self),
        fun unknown => absurd unknown (leads.recognised member)⟩
      exact ⟨Nat.le_add_right _ _, Nat.add_lt_add_left inside _⟩
    · rw [List.getElem?_append_right (by omega)] at here
      have later := ih here
      have shift : place + lexeme.length + (i - lexeme.length) = place + i := by omega
      rw [shift] at later
      have free : ¬Piece.Covers ⟨place, lexeme, kind⟩ (place + i) := by
        rintro ⟨_, before⟩
        simp only [Piece.stop] at before
        omega
      rw [List.forall_mem_cons, ← later]
      exact and_iff_right free

/-- A point that is a mark of its own has no digit behind it. -/
theorem not_digit_of_period (cut : Cut 0 text pieces) {piece : Piece} (member : piece ∈ pieces) {mark : String}
    (isPeriod : piece.kind = .period mark) {d : Char} (next : text[piece.start + 1]? = some d) : d.isDigit = false := by
  have leads := cut.leads piece member
  rw [isPeriod, Nat.sub_zero] at leads
  obtain ⟨single, noNumber⟩ := leads.period
  rw [single] at leads
  obtain ⟨behindIt, split⟩ := leads.beginning
  have second : behindIt[0]? = some d := by
    rw [← next, ← List.getElem?_drop, ← split]
    rfl
  obtain ⟨more, rfl⟩ : ∃ more, behindIt = d :: more := by
    cases behindIt with
    | nil => cases second
    | cons e more =>
      obtain rfl : e = d := Option.some.inj second
      exact ⟨more, rfl⟩
  rw [← Bool.not_eq_true]
  intro digit
  exact noNumber ['.', d] ⟨more, split⟩ (isNumeral_point_digit digit)

/-- Two pieces that cover one place are the same piece. -/
theorem eq_of_covers (cut : Cut 0 text pieces) {piece other : Piece} (member : piece ∈ pieces)
    (another : other ∈ pieces) {place : Nat} (covers : piece.Covers place) (coversToo : other.Covers place) :
    piece = other := by
  obtain ⟨_, before⟩ := covers
  obtain ⟨_, beforeToo⟩ := coversToo
  -- Of two different pieces one ends before the other starts.
  refine List.Pairwise.forall_of_forall_of_flip (R := fun first second =>
    first.start ≤ place → place < first.stop → second.start ≤ place → place < second.stop → first = second)
    (fun _ _ _ _ _ _ => rfl) (cut.pairwise.imp ?_) (cut.pairwise.imp ?_) member another ‹_› before ‹_› beforeToo
  · intro first second order _ _ _ _
    omega
  · intro first second order _ _ _ _
    omega

/-- A point is a mark of its own when no number begun before it takes it and no digit follows. -/
theorem exists_period_iff (cut : Cut 0 text pieces) {i : Nat} (here : text[i]? = some '.') :
    (∃ piece ∈ pieces, piece.kind = .period "." ∧ piece.start = i) ↔
      (¬∃ piece ∈ pieces, piece.start < i ∧ piece.Covers i ∧ IsNumeral piece.lexeme) ∧
        ¬∃ d ∈ text[i + 1]?, d.isDigit = true := by
  constructor
  · rintro ⟨piece, member, isPeriod, rfl⟩
    have leads := cut.leads piece member
    rw [isPeriod] at leads
    have covers : piece.Covers piece.start := ⟨Nat.le_refl _, by simp [Piece.stop, leads.period.1]⟩
    constructor
    · rintro ⟨other, another, before, coversToo, _⟩
      have same := cut.eq_of_covers member another covers coversToo
      rw [same] at before
      exact Nat.lt_irrefl _ before
    · rintro ⟨d, next, digit⟩
      have noDigit := cut.not_digit_of_period member isPeriod next
      rw [noDigit] at digit
      cases digit
  · rintro ⟨free, noDigit⟩
    obtain ⟨piece, member, starts, before⟩ : ∃ piece ∈ pieces, piece.Covers i := by
      by_contra none
      push Not at none
      have uncovered := cut.uncovered_iff here
      rw [Nat.zero_add] at uncovered
      exact (uncovered.mp none).2.2 (by decide)
    have leads : Leads (text.drop piece.start) piece.lexeme piece.kind := cut.leads piece member
    have inside : i - piece.start < piece.lexeme.length := by
      simp only [Piece.stop] at before
      omega
    have point : piece.lexeme[i - piece.start]? = some '.' := by
      rw [← leads.getElem? inside, Nat.add_sub_cancel' starts, here]
    rcases leads.of_point point with ⟨isNumeral, followed⟩ | ⟨first, isPeriod⟩
    · by_cases earlier : piece.start < i
      · exact absurd ⟨piece, member, earlier, ⟨starts, before⟩, isNumeral⟩ free
      · obtain ⟨d, next, digit⟩ := followed (by omega)
        rw [List.getElem?_drop, show piece.start = i by omega] at next
        exact absurd ⟨d, next, digit⟩ noDigit
    · exact ⟨piece, member, isPeriod, by omega⟩

end Cut

theorem mem_tokens_iff {pieces : List Piece} {kind : TokenKind} {place : Nat} :
    (⟨kind, place⟩ : Token) ∈ pieces.map Piece.token ↔ ∃ piece ∈ pieces, piece.kind = kind ∧ piece.start = place := by
  simp only [List.mem_map, Piece.token, Token.mk.injEq, Int.natCast_inj]

/-- Scanning finds the longest lexemes. They follow one another without overlap, each begins what is left of the text
at its place, and a character is outside all of them when no lexeme holds it. A point is a mark of its own when no
number begun before it takes it and no digit follows. -/
theorem scan_longest (source : String) :
    ∃ pieces : List Piece, scan source = pieces.map Piece.token ∧
      (∀ piece ∈ pieces, piece.lexeme <+: source.toList.drop piece.start ∧
        Leads (source.toList.drop piece.start) piece.lexeme piece.kind) ∧
      pieces.Pairwise (fun piece next => piece.start < next.start ∧ piece.stop ≤ next.start) ∧
      (∀ place c, source.toList[place]? = some c → ((∀ piece ∈ pieces, ¬piece.Covers place) ↔ Unrecognised c)) ∧
      ∀ place, source.toList[place]? = some '.' →
        (⟨.period ".", place⟩ ∈ scan source ↔
          (¬∃ piece ∈ pieces, piece.start < place ∧ piece.Covers place ∧ IsNumeral piece.lexeme) ∧
            ¬∃ d ∈ source.toList[place + 1]?, d.isDigit = true) := by
  obtain ⟨pieces, cut, scanned⟩ := exists_cut_scan source
  have leads : ∀ piece ∈ pieces, Leads (source.toList.drop piece.start) piece.lexeme piece.kind := cut.leads
  refine ⟨pieces, scanned, fun piece member => ⟨(leads piece member).beginning, leads piece member⟩, cut.pairwise,
    ?_, ?_⟩
  · intro place c here
    have uncovered := cut.uncovered_iff here
    rwa [Nat.zero_add] at uncovered
  · intro place here
    rw [scanned, mem_tokens_iff]
    exact cut.exists_period_iff here

example : (scan "1..5.x").map Token.position = [0, 2, 4, 5] := by decide +kernel

end Reckoner

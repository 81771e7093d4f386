import Reckoner.Proofs.Grammar

namespace Reckoner

inductive Balanced : List Token → Prop
  | nil : Balanced []
  | plain {token : Token} {rest : List Token} : token.kind ≠ .openParen → token.kind ≠ .closeParen →
      Balanced rest → Balanced (token :: rest)
  | group {inner rest : List Token} {first last : Int} : Balanced inner → Balanced rest →
      Balanced (⟨.openParen, first⟩ :: (inner ++ ⟨.closeParen, last⟩ :: rest))

/-- The closing parenthesis at `j` ends the group that the open one at `i` begins. -/
def Closes (tokens : List Token) (i j : Nat) : Prop :=
  ∃ before inner after first last,
    tokens = before ++ ⟨.openParen, first⟩ :: (inner ++ ⟨.closeParen, last⟩ :: after) ∧ before.length = i ∧
      before.length + inner.length + 1 = j ∧ Balanced inner

/-- An open parenthesis that nothing closes, and behind it only such that are closed. -/
def InnermostUnclosed (tokens : List Token) (i : Nat) : Prop :=
  (∃ token, tokens[i]? = some token ∧ token.kind = .openParen) ∧ (∀ j, ¬ Closes tokens i j) ∧
    ∀ k token, i < k → tokens[k]? = some token → token.kind = .openParen → ∃ j, Closes tokens k j

theorem Balanced.append {tokens more : List Token} (balanced : Balanced tokens) (moreBalanced : Balanced more) :
    Balanced (tokens ++ more) := by
  induction balanced with
  | nil => exact moreBalanced
  | plain notOpen notClose _ ih => exact .plain notOpen notClose ih
  | @group inner rest first last innerBalanced _ _ ih =>
    rw [List.cons_append, List.append_assoc, List.cons_append]
    exact .group innerBalanced ih

theorem Derives.balanced {level : Level} {tokens : List Token} {tree : Expression}
    (derivation : Derives level tokens tree) : Balanced tokens := by
  induction derivation with
  | number | constant => exact .plain (by simp) (by simp) .nil
  | group _ ih => exact .group ih .nil
  | call _ ih => exact .plain (by simp) (by simp) (.group ih .nil)
  | lift _ ih => exact ih
  | chain _ _ ihLeft ihRight => exact ihLeft.append (.plain (by simp) (by simp) ihRight)

/-- How many more parentheses tokens open than they close. -/
def height : List Token → Int
  | [] => 0
  | token :: tokens =>
    (if token.kind = .openParen then 1 else if token.kind = .closeParen then -1 else 0) + height tokens

theorem height_append (tokens more : List Token) : height (tokens ++ more) = height tokens + height more := by
  induction tokens with
  | nil => simp [height]
  | cons token tokens ih =>
    simp only [List.cons_append, height, ih]
    omega

theorem Balanced.height_eq {tokens : List Token} (balanced : Balanced tokens) : height tokens = 0 := by
  induction balanced with
  | nil => rfl
  | plain notOpen notClose _ ih => simp [height, notOpen, notClose, ih]
  | group _ _ ihInner ihRest => simp [height, height_append, ihInner, ihRest]

/-- No beginning of balanced tokens closes more than it opens. -/
theorem Balanced.height_nonneg {before after : List Token} (balanced : Balanced (before ++ after)) :
    0 ≤ height before := by
  generalize whole : before ++ after = tokens at balanced
  induction balanced generalizing before after with
  | nil =>
    obtain ⟨rfl, _⟩ := List.append_eq_nil_iff.mp whole
    exact Int.le_refl 0
  | @plain token rest notOpen notClose _ ih =>
    rcases List.append_eq_cons_iff.mp whole with ⟨rfl, _⟩ | ⟨more, rfl, split⟩
    · exact Int.le_refl 0
    · simpa [height, notOpen, notClose] using ih split.symm
  | @group inner rest first last innerBalanced _ ihInner ihRest =>
    rcases List.append_eq_cons_iff.mp whole with ⟨rfl, _⟩ | ⟨more, rfl, split⟩
    · exact Int.le_refl 0
    -- The beginning reaches behind the group, or it ends within the group.
    rcases List.append_eq_append_iff.mp split with ⟨middle, rfl, tail⟩ | ⟨middle, same, _⟩
    · rcases List.append_eq_cons_iff.mp tail.symm with ⟨rfl, _⟩ | ⟨later, rfl, same⟩
      · simp [height, innerBalanced.height_eq]
      · have paired : height (⟨.openParen, first⟩ :: (inner ++ ⟨.closeParen, last⟩ :: later)) = height later := by
          simp only [height, height_append, innerBalanced.height_eq, if_true, reduceCtorEq, if_false]
          omega
        rw [paired]
        exact ihRest same.symm
    · have raised : height (⟨.openParen, first⟩ :: more) = 1 + height more := by simp [height]
      have within := ihInner same.symm
      omega

theorem Closes.append_left {tokens : List Token} {i j : Nat} (closes : Closes tokens i j) (before : List Token) :
    Closes (before ++ tokens) (before.length + i) (before.length + j) := by
  obtain ⟨outer, inner, after, first, last, rfl, rfl, rfl, balanced⟩ := closes
  refine ⟨before ++ outer, inner, after, first, last, by simp, by simp, ?_, balanced⟩
  simp only [List.length_append]
  omega

theorem Closes.append_right {tokens : List Token} {i j : Nat} (closes : Closes tokens i j) (after : List Token) :
    Closes (tokens ++ after) i j := by
  obtain ⟨outer, inner, rest, first, last, rfl, rfl, rfl, balanced⟩ := closes
  exact ⟨outer, inner, rest ++ after, first, last, by simp, rfl, rfl, balanced⟩

/-- What is closed stays closed behind other tokens. -/
theorem exists_closes_behind {tokens before : List Token} {i k : Nat} (closed : ∃ j, Closes tokens i j)
    (place : before.length + i = k) : ∃ j, Closes (before ++ tokens) k j := by
  obtain ⟨j, closes⟩ := closed
  subst place
  exact ⟨before.length + j, closes.append_left before⟩

theorem Balanced.closes {tokens : List Token} (balanced : Balanced tokens) {k : Nat} {token : Token}
    (there : tokens[k]? = some token) (opens : token.kind = .openParen) : ∃ j, Closes tokens k j := by
  induction balanced generalizing k with
  | nil => cases there
  | @plain first rest notOpen _ _ ih =>
    cases k with
    | zero =>
      cases there
      exact absurd opens notOpen
    | succ k =>
      have place : [first].length + k = k + 1 := by rw [List.length_singleton, Nat.add_comm]
      exact exists_closes_behind (ih there) place
  | @group inner rest first last innerBalanced _ ihInner ihRest =>
    cases k with
    | zero => exact ⟨_, [], inner, rest, first, last, rfl, rfl, rfl, innerBalanced⟩
    | succ k =>
      rw [List.getElem?_cons_succ] at there
      by_cases within : k < inner.length
      · rw [List.getElem?_append_left within] at there
        obtain ⟨j, closes⟩ := ihInner there
        have place : [(⟨.openParen, first⟩ : Token)].length + k = k + 1 := by rw [List.length_singleton, Nat.add_comm]
        exact exists_closes_behind ⟨j, closes.append_right (⟨.closeParen, last⟩ :: rest)⟩ place
      · have past : inner.length ≤ k := by omega
        rw [List.getElem?_append_right past] at there
        cases place : k - inner.length with
        | zero =>
          rw [place] at there
          cases there
          cases opens
        | succ m =>
          rw [place] at there
          have whole : (⟨.openParen, first⟩ :: (inner ++ [⟨.closeParen, last⟩]) : List Token).length + m = k + 1 := by
            simp only [List.length_cons, List.length_append, List.length_nil]
            omega
          have behind := exists_closes_behind (ihRest there) whole
          rwa [List.cons_append, List.append_assoc, List.singleton_append] at behind

/-- An open parenthesis with balanced tokens up to the end behind it is the innermost that nothing closes. -/
theorem innermostUnclosed_of_balanced {before after : List Token} {first : Int} (balanced : Balanced after) :
    InnermostUnclosed (before ++ ⟨.openParen, first⟩ :: after) before.length := by
  refine ⟨⟨⟨.openParen, first⟩, by simp, rfl⟩, ?_, ?_⟩
  · rintro j ⟨outer, inner, rest, start, last, split, sameLength, _, innerBalanced⟩
    obtain ⟨_, tail⟩ := List.append_inj split sameLength.symm
    obtain ⟨_, rfl⟩ := List.cons.inj tail
    -- The group and the parenthesis that would close it are a beginning that closes more than it opens.
    have beginning : Balanced ((inner ++ [⟨.closeParen, last⟩]) ++ rest) := by simpa using balanced
    have above := beginning.height_nonneg
    simp [height_append, height, innerBalanced.height_eq] at above
  · intro k token later there opens
    rw [List.getElem?_append_right (by omega)] at there
    obtain ⟨m, place⟩ := Nat.exists_eq_add_of_lt later
    have index : k - before.length = m + 1 := by omega
    rw [index, List.getElem?_cons_succ] at there
    have whole : (before ++ [⟨.openParen, first⟩] : List Token).length + m = k := by
      simp only [List.length_append, List.length_singleton]
      omega
    have behind := exists_closes_behind (balanced.closes there opens) whole
    rwa [List.append_assoc, List.singleton_append] at behind

end Reckoner

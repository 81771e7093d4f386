namespace Reckoner

variable {ε α β : Type}

/-- A chain of two steps gives a result when each of them does. -/
theorem bind_eq_ok {first : Except ε α} {rest : α → Except ε β} {result : β} (run : (first >>= rest) = .ok result) :
    ∃ value, first = .ok value ∧ rest value = .ok result := by
  cases first with
  | ok value => exact ⟨value, rfl, run⟩
  | error error => cases run

theorem map_eq_ok {first : Except ε α} {change : α → β} {result : β} (run : first.map change = .ok result) :
    ∃ value, first = .ok value ∧ change value = result := by
  cases first with
  | ok value => exact ⟨value, rfl, Except.ok.inj run⟩
  | error error => cases run

theorem mapError_eq_ok {ε' : Type} {first : Except ε α} {change : ε → ε'} {result : α}
    (run : first.mapError change = .ok result) : first = .ok result := by
  cases first with
  | ok value => exact congrArg Except.ok (Except.ok.inj run)
  | error error => cases run

end Reckoner

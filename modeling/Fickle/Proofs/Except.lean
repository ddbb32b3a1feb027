/-! # Computations that may fail -/

namespace Fickle

variable {ε α β : Type}

theorem bind_eq_ok_iff {x : Except ε α} {f : α → Except ε β} {r : β} :
    x >>= f = .ok r ↔ ∃ a, x = .ok a ∧ f a = .ok r := by
  constructor
  · intro h
    rcases x with e | a
    · cases h
    · exact ⟨a, rfl, h⟩
  · rintro ⟨a, rfl, h⟩
    exact h

theorem bind_eq_error_iff {x : Except ε α} {f : α → Except ε β} {e : ε} :
    x >>= f = .error e ↔ x = .error e ∨ ∃ a, x = .ok a ∧ f a = .error e := by
  constructor
  · intro h
    rcases x with e' | a
    · cases h
      exact .inl rfl
    · exact .inr ⟨a, rfl, h⟩
  · rintro (rfl | ⟨a, rfl, h⟩)
    · rfl
    · exact h

theorem exists_eq_error_iff {x : Except ε α} : (∃ e, x = .error e) ↔ ∀ a, x ≠ .ok a := by
  rcases x with e | a
  · simp
  · simp

/-- A computation that begins with a check succeeds just when the check passes and it does. -/
theorem guard_eq_ok_iff {c : Prop} [Decidable c] {e : ε} {x : Except ε α} {r : α} :
    (if c then (do throw e; x) else x) = .ok r ↔ ¬ c ∧ x = .ok r := by
  by_cases hc : c
  · rw [if_pos hc]
    constructor
    · intro h
      cases h
    · intro h
      exact absurd hc h.1
  · rw [if_neg hc]
    exact ⟨fun h => ⟨hc, h⟩, fun h => h.2⟩

theorem guard_eq_error_iff {c : Prop} [Decidable c] {e e' : ε} {x : Except ε α} :
    (if c then (do throw e; x) else x) = .error e' ↔ c ∧ e = e' ∨ ¬ c ∧ x = .error e' := by
  by_cases hc : c
  · rw [if_pos hc]
    constructor
    · rintro ⟨⟩
      exact .inl ⟨hc, rfl⟩
    · rintro (⟨-, rfl⟩ | ⟨hnot, -⟩)
      · rfl
      · exact absurd hc hnot
  · rw [if_neg hc]
    constructor
    · exact fun h => .inr ⟨hc, h⟩
    · rintro (⟨hpos, -⟩ | ⟨-, h⟩)
      · exact absurd hpos hc
      · exact h

/-- Two computations whose results become the same both fail alike, or both succeed. -/
theorem map_eq_map_iff {f : α → β} {x y : Except ε α} :
    x.map f = y.map f ↔
      (∃ e, x = .error e ∧ y = .error e) ∨ ∃ a b, x = .ok a ∧ y = .ok b ∧ f a = f b := by
  rcases x with e | a <;> rcases y with e' | b <;> simp [Except.map, eq_comm]

end Fickle

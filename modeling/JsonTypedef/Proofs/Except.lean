import Mathlib.Init

/-!
# When a step that may fail succeeds

Checkers, readers and conversions are built from steps that give a value or the
reason why there is none.  The lemmas of this module take such a result apart.
-/

namespace JsonTypedef

theorem exists_ok_of_bind {ε α β : Type} {x : Except ε α} {f : α → Except ε β}
    {b : β} (h : x >>= f = .ok b) : ∃ a, x = .ok a ∧ f a = .ok b := by
  cases x with
  | error e => cases h
  | ok a => exact ⟨a, rfl, h⟩

theorem exists_ok_of_map {ε α β : Type} {x : Except ε α} {f : α → β} {b : β}
    (h : x.map f = .ok b) : ∃ a, x = .ok a ∧ f a = b := by
  cases x with
  | error e => cases h
  | ok a =>
      cases h
      exact ⟨a, rfl, rfl⟩

theorem bind_eq_ok_iff {ε α β : Type} {x : Except ε α} {f : α → Except ε β}
    {b : β} : x >>= f = .ok b ↔ ∃ a, x = .ok a ∧ f a = .ok b := by
  constructor
  · exact exists_ok_of_bind
  · rintro ⟨a, rfl, h⟩
    exact h

theorem map_eq_ok_iff {ε α β : Type} {x : Except ε α} {f : α → β} {b : β} :
    x.map f = .ok b ↔ ∃ a, x = .ok a ∧ f a = b := by
  constructor
  · exact exists_ok_of_map
  · rintro ⟨a, rfl, rfl⟩
    rfl

/-- Results that some functions make equal are both errors, or both none. -/
theorem cases_of_map_eq_map {ε α β γ : Type} {x : Except ε α} {y : Except ε β}
    {f : α → γ} {g : β → γ} (h : x.map f = y.map g) :
    (∃ e, x = .error e ∧ y = .error e) ∨
      ∃ a b, x = .ok a ∧ y = .ok b ∧ f a = g b := by
  cases x with
  | error e =>
      cases y with
      | error e' =>
          cases h
          exact Or.inl ⟨e, rfl, rfl⟩
      | ok b => cases h
  | ok a =>
      cases y with
      | error e => cases h
      | ok b => exact Or.inr ⟨a, b, rfl, rfl, Except.ok.inj h⟩

end JsonTypedef

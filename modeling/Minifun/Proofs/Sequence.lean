/-! # Computations one after the other

Reading, inference and evaluation are computations with a state that stays when they fail. The
second of two runs in the state that the first one leaves, if that succeeds.
-/

namespace Minifun

variable {ε σ α β : Type} {m : EStateM ε σ α} {f : α → EStateM ε σ β} {s s' : σ}

theorem bind_of_ok {a : α} (h : m s = .ok a s') : (m >>= f) s = f a s' := by
  change EStateM.bind m f s = _
  simp only [EStateM.bind, h]

theorem bind_of_error {e : ε} (h : m s = .error e s') : (m >>= f) s = .error e s' := by
  change EStateM.bind m f s = _
  simp only [EStateM.bind, h]

theorem bind_eq_ok_iff {b : β} : (m >>= f) s = .ok b s' ↔
    ∃ a s₁, m s = .ok a s₁ ∧ f a s₁ = .ok b s' := by
  cases h : m s with
  | ok a s₁ =>
    rw [bind_of_ok h]
    constructor
    · exact fun hf => ⟨a, s₁, rfl, hf⟩
    · rintro ⟨a', s', ha, hf⟩
      obtain ⟨rfl, rfl⟩ := EStateM.Result.ok.inj ha
      exact hf
  | error e s₁ =>
    rw [bind_of_error h]
    simp

theorem bind_eq_ok_iff_exists {r : Except ε α} {c : α → Except ε β} {b : β} :
    r >>= c = .ok b ↔ ∃ a, r = .ok a ∧ c a = .ok b := by
  cases r with
  | ok a =>
    constructor
    · exact fun h => ⟨a, rfl, h⟩
    · rintro ⟨a', ha, h⟩
      obtain rfl := Except.ok.inj ha
      exact h
  | error stop =>
    constructor
    · exact fun h => by cases h
    · rintro ⟨a, ha, -⟩
      cases ha

theorem eq_ok_of_map_eq_some {r : Except ε α} {k : α → β} {b : β}
    (h : r.toOption.map k = some b) : ∃ a, r = .ok a ∧ k a = b := by
  cases r with
  | error e => simp [Except.toOption] at h
  | ok a => exact ⟨a, rfl, Option.some.inj h⟩

end Minifun

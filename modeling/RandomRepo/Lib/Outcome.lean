import Mathlib.Logic.Basic

/-!
Inversion of fallible computations, with a state or without: a bind that succeeds is two
successes.
-/

namespace RandomRepo

variable {ε α β : Type}

theorem ok_bind (x : α) (f : α → Except ε β) : (Except.ok x >>= f) = f x := rfl

theorem bind_ok_iff {x : Except ε α} {f : α → Except ε β} {b : β} :
    (x >>= f) = .ok b ↔ ∃ a, x = .ok a ∧ f a = .ok b := by
  cases x with
  | error e => simp [bind, Except.bind]
  | ok a => simp [bind, Except.bind]

/-- A bind fails in its first part, or in its second after the first succeeded. -/
theorem bind_error_iff {x : Except ε α} {f : α → Except ε β} {e : ε} :
    (x >>= f) = .error e ↔ x = .error e ∨ ∃ a, x = .ok a ∧ f a = .error e := by
  cases x with
  | error e' => simp [bind, Except.bind]
  | ok a => simp [bind, Except.bind]

section State

variable {σ : Type} {f : StateT σ (Except ε) α} {g : α → StateT σ (Except ε) β} {s : σ}

theorem bind_run_iff {b : β} {u : σ} :
    (f >>= g) s = .ok (b, u) ↔ ∃ a t, f s = .ok (a, t) ∧ g a t = .ok (b, u) := by
  show (f s >>= fun r => g r.1 r.2) = .ok (b, u) ↔ _
  rw [bind_ok_iff]
  constructor
  · rintro ⟨⟨a, t⟩, run, rest⟩
    exact ⟨a, t, run, rest⟩
  · rintro ⟨a, t, run, rest⟩
    exact ⟨(a, t), run, rest⟩

theorem bind_run {a : α} {t : σ} (run : f s = .ok (a, t)) : (f >>= g) s = g a t := by
  show (f s >>= fun r => g r.1 r.2) = g a t
  rw [run, ok_bind]

end State

theorem map_ok_iff {f : α → β} {x : Except ε α} {b : β} :
    x.map f = .ok b ↔ ∃ a, x = .ok a ∧ f a = b := by
  cases x with
  | error e => simp [Except.map]
  | ok a => simp [Except.map]

theorem map_error_iff {f : α → β} {x : Except ε α} {e : ε} : x.map f = .error e ↔ x = .error e := by
  cases x with
  | error e' => simp [Except.map]
  | ok a => simp [Except.map]

end RandomRepo

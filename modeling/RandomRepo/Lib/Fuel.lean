import Mathlib.Init

/-!
Loops with fuel that end.

A loop of which the number of turns is not known beforehand is written with fuel
and has no result when the fuel is used up.  `Settles f r` says that `f` has the
result `r` with any fuel that is large enough.
-/

namespace RandomRepo

variable {α β : Type} {f g : Nat → Option α} {r : α}

/-- With enough fuel the result is `r`. -/
def Settles (f : Nat → Option α) (r : α) : Prop := ∃ k, ∀ fuel, k ≤ fuel → f fuel = some r

theorem Settles.pure (r : α) : Settles (fun _ => some r) r := ⟨0, fun _ _ => rfl⟩

/-- A turn of the loop. -/
theorem Settles.turn (settles : Settles g r) (turn : ∀ fuel, f (fuel + 1) = g fuel) :
    Settles f r := by
  obtain ⟨k, enough⟩ := settles
  refine ⟨k + 1, fun fuel more => ?_⟩
  obtain ⟨fuel, rfl⟩ : ∃ n, fuel = n + 1 := ⟨fuel - 1, by omega⟩
  rw [turn]
  exact enough fuel (by omega)

theorem Settles.map (settles : Settles f r) (g : α → β) :
    Settles (fun fuel => (f fuel).map g) (g r) := by
  obtain ⟨k, enough⟩ := settles
  exact ⟨k, fun fuel more => congrArg (Option.map g) (enough fuel more)⟩

theorem Settles.bind {h : α → Nat → Option β} {s : β} (first : Settles f r)
    (second : Settles (h r) s) : Settles (fun fuel => (f fuel).bind fun a => h a fuel) s := by
  obtain ⟨k, enough⟩ := first
  obtain ⟨l, enough'⟩ := second
  refine ⟨k + l, fun fuel more => ?_⟩
  show (f fuel).bind _ = some s
  rw [enough fuel (by omega)]
  exact enough' fuel (by omega)

/-- The result does not depend on the fuel. -/
theorem Settles.unique {a : α} {fuel : Nat} (settles : Settles f r)
    (mono : ∀ n k, f n = some a → f (n + k) = some a) (found : f fuel = some a) : a = r := by
  obtain ⟨k, enough⟩ := settles
  have same := mono fuel k found
  rw [enough (fuel + k) (by omega)] at same
  exact (Option.some.inj same).symm

/-- With enough fuel there is a result. -/
def Ends (f : Nat → Option α) : Prop := ∃ r, Settles f r

theorem Settles.ends (settles : Settles f r) : Ends f := ⟨r, settles⟩

theorem Ends.turn (ends : Ends g) (turn : ∀ fuel, f (fuel + 1) = g fuel) : Ends f := by
  obtain ⟨r, settles⟩ := ends
  exact ⟨r, settles.turn turn⟩

/-! ## Loops that may fail -/

section Failing

variable {ε : Type} {f : Nat → Option (Except ε α)} {h : α → Nat → Option (Except ε β)}

/-- Go on with the result, unless there is none or it is an error. -/
def andThen (x : Option (Except ε α)) (next : α → Option (Except ε β)) : Option (Except ε β) :=
  match x with
  | none => none
  | some (.error e) => some (.error e)
  | some (.ok a) => next a

theorem andThen_ok_iff {x : Option (Except ε α)} {next : α → Option (Except ε β)} {b : β} :
    andThen x next = some (.ok b) ↔ ∃ a, x = some (.ok a) ∧ next a = some (.ok b) := by
  rcases x with _ | _ | a
  · simp [andThen]
  · simp [andThen]
  · simp [andThen]

theorem Settles.andThen_ok {a : α} {s : Except ε β} (first : Settles f (.ok a))
    (second : Settles (h a) s) : Settles (fun fuel => andThen (f fuel) fun a => h a fuel) s := by
  obtain ⟨k, enough⟩ := first
  obtain ⟨l, enough'⟩ := second
  refine ⟨k + l, fun fuel more => ?_⟩
  dsimp only
  rw [enough fuel (by omega)]
  exact enough' fuel (by omega)

/-- A loop that ends, and one after it that ends with whatever the first one finds. -/
theorem Ends.andThen (first : Ends f) (second : ∀ a fuel, f fuel = some (.ok a) → Ends (h a)) :
    Ends (fun fuel => RandomRepo.andThen (f fuel) fun a => h a fuel) := by
  obtain ⟨r, k, enough⟩ := first
  cases r with
  | ok a =>
    obtain ⟨s, settles⟩ := second a k (enough k (Nat.le_refl k))
    exact ⟨s, Settles.andThen_ok ⟨k, enough⟩ settles⟩
  | error e =>
    refine ⟨.error e, k, fun fuel more => ?_⟩
    dsimp only
    rw [enough fuel more]
    rfl

end Failing

end RandomRepo

import Mathlib.Order.Lattice

/-!
The first candidate at the smallest distance.

Candidates are numbers, some of them allowed, each with a distance.  A search that is
allowed other candidates finds the same one if and only if every candidate on which
the two differ comes after one that both allow.
-/

namespace RandomRepo

variable {β : Type} [LinearOrder β] {allowed allowed' : Nat → Prop} {dist : Nat → β}
  {r r' : Option Nat} {l m : Nat}

/-- Nearer, or as near and earlier. -/
def Before (dist : Nat → β) (l m : Nat) : Prop := dist l < dist m ∨ dist l = dist m ∧ l < m

/-- The allowed candidate that is before all others, if there is an allowed one. -/
def IsFirstMin (allowed : Nat → Prop) (dist : Nat → β) : Option Nat → Prop
  | none => ∀ l, ¬ allowed l
  | some l => allowed l ∧ ∀ m, allowed m → m ≠ l → Before dist l m

theorem Before.asymm (first : Before dist l m) (second : Before dist m l) : False := by
  rcases first with less | ⟨same, lower⟩
  · rcases second with less' | ⟨same', -⟩
    · exact lt_asymm less less'
    · exact absurd same' less.ne'
  · rcases second with less' | ⟨-, lower'⟩
    · exact absurd same less'.ne'
    · omega

theorem Before.trans {n : Nat} (first : Before dist l m) (second : Before dist m n) :
    Before dist l n := by
  rcases first with less | ⟨same, lower⟩
  · rcases second with less' | ⟨same', -⟩
    · exact Or.inl (less.trans less')
    · exact Or.inl (same' ▸ less)
  · rcases second with less' | ⟨same', lower'⟩
    · exact Or.inl (same ▸ less')
    · exact Or.inr ⟨same.trans same', by omega⟩

theorem IsFirstMin.unique (first : IsFirstMin allowed dist r) (first' : IsFirstMin allowed dist r') :
    r = r' := by
  cases r with
  | none =>
    cases r' with
    | none => rfl
    | some l => exact absurd first'.1 (first l)
  | some l =>
    cases r' with
    | none => exact absurd first.1 (first' l)
    | some m =>
      by_contra apart
      have other : m ≠ l := fun same => apart (by rw [same])
      exact (first.2 m first'.1 other).asymm (first'.2 l first.1 other.symm)

theorem IsFirstMin.congr (first : IsFirstMin allowed dist r) (same : ∀ l, allowed l ↔ allowed' l) :
    IsFirstMin allowed' dist r := by
  rwa [show allowed' = allowed from funext fun l => propext (same l).symm]

/-- The candidates on which two searches differ come after one that both allow. -/
def Ahead (allowed allowed' : Nat → Prop) (dist : Nat → β) : Prop :=
  ∀ l, ¬ (allowed l ↔ allowed' l) → ∃ m, allowed m ∧ allowed' m ∧ Before dist m l

theorem IsFirstMin.ahead (first : IsFirstMin allowed dist r) (first' : IsFirstMin allowed' dist r) :
    Ahead allowed allowed' dist := by
  intro l differ
  cases r with
  | none => exact absurd (iff_of_false (first l) (first' l)) differ
  | some m =>
    refine ⟨m, first.1, first'.1, ?_⟩
    have other : l ≠ m := by
      rintro rfl
      exact differ (iff_of_true first.1 first'.1)
    by_cases here : allowed l
    · exact first.2 l here other
    · by_cases there : allowed' l
      · exact first'.2 l there other
      · exact absurd (iff_of_false here there) differ

theorem IsFirstMin.transfer (first : IsFirstMin allowed dist r)
    (ahead : Ahead allowed allowed' dist) : IsFirstMin allowed' dist r := by
  cases r with
  | none =>
    intro l there
    obtain ⟨m, here, -⟩ := ahead l (fun both => first l (both.mpr there))
    exact first m here
  | some l =>
    -- No allowed candidate is before the first.
    have least : ∀ m, allowed m → ¬ Before dist m l := fun m here before =>
      (first.2 m here (by rintro rfl; exact before.asymm before)).asymm before
    refine ⟨?_, fun m there other => ?_⟩
    · by_contra missing
      obtain ⟨m, here, -, before⟩ := ahead l (fun both => missing (both.mp first.1))
      exact least m here before
    · by_cases here : allowed m
      · exact first.2 m here other
      · obtain ⟨n, shared, -, before⟩ := ahead m (fun both => here (both.mpr there))
        by_cases same : n = l
        · exact same ▸ before
        · exact (first.2 n shared same).trans before

end RandomRepo

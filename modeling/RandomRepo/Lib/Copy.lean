import Mathlib.Logic.Function.Basic

/-!
Copying cell by cell.

`copyUp` copies `n` cells from `s` on to `d` on, the first cell first, and `copyDown` the last
cell first.  A cell may have been written when it is read.  `copyUp_at` says what is in
a cell in terms of the cells before it, which settles all ways in which the two
ranges can lie.
-/

namespace RandomRepo

variable {α : Type} {f : Nat → α} {d s n i a : Nat}

def copyUp : Nat → (Nat → α) → Nat → Nat → Nat → α
  | 0, f, _, _ => f
  | n + 1, f, d, s => copyUp n (Function.update f d (f s)) (d + 1) (s + 1)

def copyDown : Nat → (Nat → α) → Nat → Nat → Nat → α
  | 0, f, _, _ => f
  | n + 1, f, d, s => copyDown n (Function.update f (d + n) (f (s + n))) d s

/-- The cells at `d` hold what the cells at `s` held before, and the others are as they were. -/
structure Copied (f : Nat → α) (d s n : Nat) (g : Nat → α) : Prop where
  here : ∀ i, i < n → g (d + i) = f (s + i)
  others : ∀ a, ¬ (d ≤ a ∧ a < d + n) → g a = f a

theorem copyUp_outside (outside : ¬ (d ≤ a ∧ a < d + n)) : copyUp n f d s a = f a := by
  induction n generalizing f d s with
  | zero => rfl
  | succ n ih =>
    rw [copyUp, ih (by omega), Function.update_of_ne (by omega)]

/-- A cell has been written before it is read if it is one of those before. -/
theorem copyUp_at (inside : i < n) : copyUp n f d s (d + i) =
    if d ≤ s + i ∧ s + i < d + i then copyUp n f d s (s + i) else f (s + i) := by
  induction n generalizing f d s i with
  | zero => exact absurd inside (Nat.not_lt_zero i)
  | succ n ih =>
    have first : copyUp n (Function.update f d (f s)) (d + 1) (s + 1) d = f s := by
      rw [copyUp_outside (by omega), Function.update_self]
    rw [copyUp]
    cases i with
    | zero =>
      rw [if_neg (by omega)]
      exact first
    | succ i =>
      have shift : ∀ b, b + (i + 1) = b + 1 + i := fun b => by omega
      rw [shift d, shift s, ih (by omega)]
      by_cases start : s + 1 + i = d
      · -- The cell is the one that has just been written.
        rw [if_neg (by omega), if_pos (by omega), start, Function.update_self, first]
      · rw [Function.update_of_ne start]
        by_cases written : d ≤ s + 1 + i ∧ s + 1 + i < d + 1 + i
        · rw [if_pos (by omega), if_pos written]
        · rw [if_neg (by omega), if_neg written]

/-- Upwards nothing is lost if no cell of the source is among the cells written before it. -/
theorem copied_copyUp (apart : d ≤ s ∨ s + n ≤ d) : Copied f d s n (copyUp n f d s) := by
  refine ⟨fun i inside => ?_, fun a => copyUp_outside⟩
  rw [copyUp_at inside, if_neg (by omega)]

/-- If the target starts inside the source, the first cells are copied over and over. -/
theorem copied_copyUp_iff (above : s < d) :
    Copied f d s n (copyUp n f d s) ↔ ∀ i, i + (d - s) < n → f (s + (i + (d - s))) = f (s + i) := by
  have back : ∀ i, i + (d - s) < n →
      copyUp n f d s (d + (i + (d - s))) = copyUp n f d s (d + i) := by
    intro i inside
    rw [copyUp_at inside, if_pos (by omega)]
    congr 1
    omega
  constructor
  · intro copied i inside
    rw [← copied.here _ inside, back i inside, copied.here i (by omega)]
  · intro repeats
    refine ⟨fun i => ?_, fun a => copyUp_outside⟩
    -- The cell in the target is one period later than the one it is read from.
    induction i using Nat.strongRecOn with
    | ind i ih =>
      intro inside
      by_cases late : d - s ≤ i
      · obtain ⟨j, rfl⟩ : ∃ j, i = j + (d - s) := ⟨i - (d - s), by omega⟩
        rw [back j inside, ih j (by omega) (by omega), repeats j inside]
      · rw [copyUp_at inside, if_neg (by omega)]

/-- Downwards nothing is lost if the target is above the source. -/
theorem copied_copyDown (above : s ≤ d) : Copied f d s n (copyDown n f d s) := by
  induction n generalizing f with
  | zero => exact ⟨fun i inside => absurd inside (Nat.not_lt_zero i), fun a _ => rfl⟩
  | succ n ih =>
    obtain ⟨here, others⟩ := ih (f := Function.update f (d + n) (f (s + n)))
    refine ⟨fun i inside => ?_, fun a outside => ?_⟩
    · rw [copyDown]
      by_cases last : i = n
      · rw [last, others _ (by omega), Function.update_self]
      · rw [here i (by omega), Function.update_of_ne (by omega)]
    · rw [copyDown, others a (by omega), Function.update_of_ne (by omega)]

end RandomRepo

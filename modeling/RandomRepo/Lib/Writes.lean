import Mathlib.Data.List.Basic

/-!
Stores written to one cell at a time, and crashes between two writes.

`applyWrites d ws` is the store `d` after the writes `ws`, the first one first.  A
crash leaves a prefix of the writes behind.  Writes that are issued again from the
start after a crash end in the same store (`applyWrites_replay`).
-/

namespace RandomRepo

variable {ι β : Type} [DecidableEq ι]

def applyWrites (d : ι → β) : List (ι × β) → ι → β
  | [] => d
  | w :: ws => applyWrites (Function.update d w.1 w.2) ws

variable {d d' : ι → β} {ws vs : List (ι × β)} {i : ι}

theorem applyWrites_append : applyWrites d (ws ++ vs) = applyWrites (applyWrites d ws) vs := by
  induction ws generalizing d with
  | nil => rfl
  | cons w ws ih => exact ih

/-- A cell that is not written to keeps its value. -/
theorem applyWrites_other (untouched : ∀ w ∈ ws, w.1 ≠ i) : applyWrites d ws i = d i := by
  induction ws generalizing d with
  | nil => rfl
  | cons w ws ih =>
    rw [applyWrites, ih fun v hv => untouched v (List.mem_cons_of_mem _ hv)]
    exact Function.update_of_ne (untouched w List.mem_cons_self).symm _ _

/-- What a cell held before does not matter once it has been written to. -/
theorem applyWrites_congr (same : d i = d' i ∨ ∃ w ∈ ws, w.1 = i) :
    applyWrites d ws i = applyWrites d' ws i := by
  induction ws generalizing d d' with
  | nil =>
    rcases same with same | ⟨w, member, -⟩
    · exact same
    · cases member
  | cons w ws ih =>
    refine ih ?_
    by_cases here : i = w.1
    · subst here
      exact .inl (by rw [Function.update_self, Function.update_self])
    · rw [Function.update_of_ne here, Function.update_of_ne here]
      rcases same with same | ⟨v, member, at_⟩
      · exact .inl same
      · rcases List.mem_cons.mp member with rfl | later
        · exact absurd at_.symm here
        · exact .inr ⟨v, later, at_⟩

/-- Writes that agree on each cell. -/
theorem applyWrites_map {α : Type} (f : α → ι) (g : ι → β) (xs : List α) :
    applyWrites d (xs.map fun x => (f x, g (f x))) i = if i ∈ xs.map f then g i else d i := by
  induction xs generalizing d with
  | nil => rfl
  | cons x xs ih =>
    rw [List.map_cons, List.map_cons, applyWrites, ih]
    by_cases here : i = f x
    · subst here
      simp
    · simp [here]

/-- Redoing writes of which some have been done already. -/
theorem applyWrites_replay (n : Nat) :
    applyWrites (applyWrites d (ws.take n)) ws = applyWrites d ws := by
  funext i
  refine applyWrites_congr ?_
  by_cases touched : ∃ w ∈ ws, w.1 = i
  · exact .inr touched
  · refine .inl (applyWrites_other fun w member at_ => touched ⟨w, List.mem_of_mem_take member, at_⟩)

end RandomRepo

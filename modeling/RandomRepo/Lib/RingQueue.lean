import Mathlib.Data.Nat.ModEq

/-!
Queues in a ring of `cap` cells.

`ringContents data cap start n` are the `n` elements from position `start` on, where
positions are counted without end and cell `p % cap` holds position `p`.
-/

namespace RandomRepo

variable {β : Type} {data : Nat → β} {cap start n : Nat}

def ringContents (data : Nat → β) (cap start n : Nat) : List β :=
  (List.range n).map fun k => data ((start + k) % cap)

theorem ringContents_length : (ringContents data cap start n).length = n := by
  rw [ringContents, List.length_map, List.length_range]

theorem ringContents_getElem {k : Nat} (inside : k < (ringContents data cap start n).length) :
    (ringContents data cap start n)[k] = data ((start + k) % cap) := by
  simp [ringContents]

/-- Only the cell of a position matters. -/
theorem ringContents_mod {start' : Nat} (same : start' % cap = start % cap) :
    ringContents data cap start' n = ringContents data cap start n := by
  unfold ringContents
  refine List.map_congr_left fun k _ => ?_
  rw [Nat.add_mod, same, ← Nat.add_mod]

theorem ringContents_append (m n : Nat) :
    ringContents data cap start (m + n) =
      ringContents data cap start m ++ ringContents data cap (start + m) n := by
  unfold ringContents
  rw [List.range_add, List.map_append, List.map_map]
  congr 1
  refine List.map_congr_left fun k _ => ?_
  rw [Function.comp_apply, Nat.add_assoc]

/-- A store behind the queue, less than a round away from its start. -/
theorem ringContents_store {m : Nat} (behind : n ≤ m) (room : m < cap) (b : β) :
    ringContents (Function.update data ((start + m) % cap) b) cap start n =
      ringContents data cap start n := by
  refine List.map_congr_left fun k inside => Function.update_of_ne ?_ _ _
  -- two positions less than `cap` apart are in different cells
  intro same
  have inside := List.mem_range.mp inside
  have apart := (Nat.modEq_iff_dvd' (Nat.add_le_add_left (by omega) start)).mp same
  rw [Nat.add_sub_add_left] at apart
  have := Nat.le_of_dvd (by omega) apart
  omega

/-- Storing an element behind the last one of a queue that is not full. -/
theorem ringContents_push (room : n < cap) (b : β) :
    ringContents (Function.update data ((start + n) % cap) b) cap start (n + 1) =
      ringContents data cap start n ++ [b] := by
  rw [ringContents_append, ringContents_store (Nat.le_refl n) room]
  simp [ringContents]

/-- Taking the first element. -/
theorem ringContents_pop :
    ringContents data cap start (n + 1) =
      data (start % cap) :: ringContents data cap (start + 1) n := by
  unfold ringContents
  rw [List.range_succ_eq_map, List.map_cons, List.map_map, Nat.add_zero]
  congr 1
  refine List.map_congr_left fun k _ => ?_
  rw [Function.comp_apply, Nat.succ_eq_add_one, Nat.add_assoc, Nat.add_comm 1 k]

end RandomRepo

import Mathlib.Algebra.BigOperators.Group.Finset.Basic

/-!
Finite families and their sums, most of them over an initial segment of `ℕ`: what
the sum does when one member of the family changes.
-/

namespace RandomRepo

variable {M : Type} [AddCommMonoid M]

/-- Changing the family at `i` only exchanges the two members at `i`. -/
theorem sum_exchange {ι : Type} [DecidableEq ι] {s : Finset ι} {i : ι} {f g : ι → M} (mem : i ∈ s)
    (same : ∀ j, j ≠ i → g j = f j) : f i + ∑ j ∈ s, g j = g i + ∑ j ∈ s, f j := by
  rw [← Finset.add_sum_erase _ f mem, ← Finset.add_sum_erase _ g mem]
  have rest : ∑ j ∈ s.erase i, g j = ∑ j ∈ s.erase i, f j :=
    Finset.sum_congr rfl fun j hj => same j (Finset.ne_of_mem_erase hj)
  rw [rest, add_left_comm]

theorem sum_range_exchange {n i : ℕ} {f g : ℕ → M} (hi : i < n)
    (same : ∀ j, j ≠ i → g j = f j) :
    f i + ∑ j ∈ Finset.range n, g j = g i + ∑ j ∈ Finset.range n, f j :=
  sum_exchange (Finset.mem_range.mpr hi) same

/-- The sum a loop over a list of numbers computes. -/
theorem sum_map_range (f : ℕ → M) (n : ℕ) :
    ((List.range n).map f).sum = ∑ i ∈ Finset.range n, f i := by
  induction n with
  | zero => rfl
  | succ n ih =>
    rw [List.range_succ, List.map_append, List.sum_append, ih, Finset.sum_range_succ]
    simp

/-- Two members of a family of multisets without a double element are disjoint. -/
theorem nodup_sum_range_apart {α : Type} {n i j : ℕ} {f : ℕ → Multiset α} {a : α}
    (nodup : (∑ k ∈ Finset.range n, f k).Nodup) (hi : i < n) (hj : j < n)
    (atI : a ∈ f i) (atJ : a ∈ f j) : i = j := by
  by_contra apart
  have memI : i ∈ Finset.range n := Finset.mem_range.mpr hi
  have memJ : j ∈ (Finset.range n).erase i :=
    Finset.mem_erase.mpr ⟨Ne.symm apart, Finset.mem_range.mpr hj⟩
  rw [← Finset.add_sum_erase _ f memI, ← Finset.add_sum_erase _ f memJ] at nodup
  have disjoint := (Multiset.nodup_add.mp nodup).2.2
  exact Multiset.disjoint_left.mp disjoint atI (Multiset.mem_add.mpr (.inl atJ))

end RandomRepo

import Mathlib.Algebra.Order.Group.Multiset

/-!
Accounting for units that are either free or held.

`Ledger total free held` says that the free units and the held ones together are
exactly `total`, in which no unit occurs twice.  Taking a unit from the free
side and giving it back keep the ledger balanced; two parts of the held side
never share a unit, nor does a held unit lie on the free side.
-/

namespace RandomRepo

variable {α : Type}

structure Ledger (total free held : Multiset α) : Prop where
  balance : free + held = total
  nodup : total.Nodup

namespace Ledger

variable {total free held left right : Multiset α} {a : α}

theorem take (ledger : Ledger total (a ::ₘ free) held) :
    Ledger total free (a ::ₘ held) := by
  refine ⟨?_, ledger.nodup⟩
  rw [Multiset.add_cons, ← Multiset.cons_add]
  exact ledger.balance

theorem give (ledger : Ledger total free (a ::ₘ held)) :
    Ledger total (a ::ₘ free) held := by
  refine ⟨?_, ledger.nodup⟩
  rw [Multiset.cons_add, ← Multiset.add_cons]
  exact ledger.balance

theorem mem_of_held (ledger : Ledger total free held) (h : a ∈ held) : a ∈ total := by
  rw [← ledger.balance]
  exact Multiset.mem_add.mpr (.inr h)

theorem mem_of_free (ledger : Ledger total free held) (h : a ∈ free) : a ∈ total := by
  rw [← ledger.balance]
  exact Multiset.mem_add.mpr (.inl h)

theorem disjoint (ledger : Ledger total free held) : Disjoint free held := by
  have nodup := ledger.nodup
  rw [← ledger.balance, Multiset.nodup_add] at nodup
  exact nodup.2.2

theorem held_nodup (ledger : Ledger total free held) : held.Nodup := by
  have nodup := ledger.nodup
  rw [← ledger.balance, Multiset.nodup_add] at nodup
  exact nodup.2.1

theorem not_free (ledger : Ledger total free held) (h : a ∈ held) : a ∉ free :=
  fun hf => Multiset.disjoint_left.mp ledger.disjoint hf h

/-- Two parts of the held side share no unit. -/
theorem apart (ledger : Ledger total free (left + right)) (h : a ∈ left) : a ∉ right := by
  have nodup := (Multiset.nodup_add.mp ledger.held_nodup).2.2
  exact fun hr => Multiset.disjoint_left.mp nodup h hr

end Ledger

end RandomRepo

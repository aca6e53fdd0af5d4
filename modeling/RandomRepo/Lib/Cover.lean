import Mathlib.Data.List.Perm.Basic
import Mathlib.Data.List.Pairwise

/-!
How often a point is covered by a list of pieces.

A list of pieces that covers no point twice is disjoint, and it tiles what other
pieces cover if both cover every point equally often.  The count is additive,
so cutting a piece in two or joining two neighbours is one equation.
-/

namespace RandomRepo

variable {β ι : Type} {covers : β → ι → Bool} {bs cs : List β} {b c : β} {y : ι}

/-- The number of pieces that cover a point. -/
def cover (covers : β → ι → Bool) (bs : List β) (y : ι) : Nat := bs.countP (covers · y)

@[simp] theorem cover_cons : cover covers (b :: bs) y = cover covers bs y + (covers b y).toNat := by
  unfold cover
  rw [List.countP_cons]
  cases covers b y <;> rfl

@[simp] theorem cover_append : cover covers (bs ++ cs) y = cover covers bs y + cover covers cs y :=
  List.countP_append

theorem cover_perm (perm : bs.Perm cs) : cover covers bs y = cover covers cs y :=
  perm.countP_eq _

theorem cover_pos : 0 < cover covers bs y ↔ ∃ b ∈ bs, covers b y = true :=
  List.countP_pos_iff

/-- Pieces that cover no point twice are disjoint. -/
theorem pairwise_of_cover (once : ∀ y, cover covers bs y ≤ 1) :
    bs.Pairwise fun b c => ∀ y, ¬(covers b y = true ∧ covers c y = true) := by
  induction bs with
  | nil => exact .nil
  | cons b bs ih =>
    refine List.pairwise_cons.mpr ⟨fun c member y both => ?_, ih fun y => ?_⟩
    · have count := once y
      have other : 0 < cover covers bs y := cover_pos.mpr ⟨c, member, both.2⟩
      rw [cover_cons, both.1] at count
      simp only [Bool.toNat_true] at count
      omega
    · have count := once y
      rw [cover_cons] at count
      omega

end RandomRepo

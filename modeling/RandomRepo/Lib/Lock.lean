import Mathlib.Logic.Function.Basic

/-!
Locks and the places of the processes that hold them.

A lock is the name of its holder, if it has one.  `HeldBy` says that the processes
at places that hold the lock are exactly its holder, so there is at most one of them.
When one process moves to another place, `LockMove` says what becomes of the lock.
-/

namespace RandomRepo

variable {ι α : Type} {lock lock' : Option ι} {i j : ι} {holds : α → Prop} {place : ι → α} {x : α}

def HeldBy (holds : α → Prop) (place : ι → α) (lock : Option ι) : Prop :=
  ∀ i, holds (place i) ↔ lock = some i

/-- What happens to a lock when `i` moves from a place that holds it, if `was`, to one that
does, if `is`. -/
inductive LockMove (i : ι) (was is : Prop) : Option ι → Option ι → Prop
  | take (holds : is) : LockMove i was is none (some i)
  | keep (held : was) (holds : is) (lock : Option ι) : LockMove i was is lock lock
  | drop (held : was) (not_ : ¬ is) (lock : Option ι) : LockMove i was is lock none
  | stay (never : ¬ was) (not_ : ¬ is) (lock : Option ι) : LockMove i was is lock lock

theorem LockMove.same {was is : Prop} (same : was ↔ is) (lock : Option ι) :
    LockMove i was is lock lock := by
  by_cases held : was
  · exact .keep held (same.mp held) lock
  · exact .stay held (fun holds => held (same.mpr holds)) lock

theorem HeldBy.unique (held : HeldBy holds place lock) (hi : holds (place i))
    (hj : holds (place j)) : i = j :=
  Option.some.inj (((held i).mp hi).symm.trans ((held j).mp hj))

theorem HeldBy.free (held : HeldBy holds place none) (i : ι) : ¬ holds (place i) :=
  fun hi => nomatch (held i).mp hi

theorem HeldBy.update [DecidableEq ι] (held : HeldBy holds place lock)
    (move : LockMove i (holds (place i)) (holds x) lock lock') :
    HeldBy holds (Function.update place i x) lock' := by
  intro j
  by_cases here : j = i
  · subst here
    rw [Function.update_self]
    cases move with
    | take holds => exact ⟨fun _ => rfl, fun _ => holds⟩
    | keep was holds => exact ⟨fun _ => (held j).mp was, fun _ => holds⟩
    | drop _ not_ => exact ⟨fun holds => absurd holds not_, nofun⟩
    | stay never not_ =>
      exact ⟨fun holds => absurd holds not_, fun same => absurd ((held j).mpr same) never⟩
  · rw [Function.update_of_ne here]
    refine (held j).trans ?_
    cases move with
    | take => exact ⟨nofun, fun same => absurd (Option.some.inj same).symm here⟩
    | keep => exact Iff.rfl
    | drop was =>
      rw [(held i).mp was]
      exact ⟨fun same => absurd (Option.some.inj same).symm here, nofun⟩
    | stay => exact Iff.rfl

end RandomRepo

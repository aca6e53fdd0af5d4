import Mathlib.Data.List.Basic

/-!
Windows laid over a memory.

`overlay f start xs` is the memory `f` with the list `xs` in the cells from `start`
on.  Of several windows, laid one over the other, a cell shows the last one that
covers it.
-/

namespace RandomRepo

variable {α : Type} {f g : Nat → α} {start a : Nat} {xs ys : List α}

def overlay (f : Nat → α) (start : Nat) (xs : List α) (a : Nat) : α :=
  if start ≤ a then (xs[a - start]?).getD (f a) else f a

theorem overlay_outside (outside : ¬ (start ≤ a ∧ a < start + xs.length)) :
    overlay f start xs a = f a := by
  unfold overlay
  split_ifs with after
  · rw [List.getElem?_eq_none (by omega), Option.getD_none]
  · rfl

theorem overlay_inside (default : α) (after : start ≤ a) (before : a < start + xs.length) :
    overlay f start xs a = xs.getD (a - start) default := by
  rw [overlay, if_pos after, List.getD_eq_getElem?_getD,
    List.getElem?_eq_getElem (by omega), Option.getD_some, Option.getD_some]

theorem overlay_nil : overlay f start [] = f := by
  funext a
  exact overlay_outside fun inside => by
    have := inside.2
    rw [List.length_nil] at this
    omega

theorem overlay_singleton (x : α) : overlay f start [x] = Function.update f start x := by
  funext a
  by_cases here : a = start
  · rw [here, Function.update_self, overlay, if_pos (Nat.le_refl start), Nat.sub_self]
    rfl
  · rw [Function.update_of_ne here]
    exact overlay_outside fun inside => by
      have := inside.2
      rw [List.length_singleton] at this
      omega

theorem overlay_append : overlay (overlay f start xs) (start + xs.length) ys =
    overlay f start (xs ++ ys) := by
  funext a
  by_cases late : start + xs.length ≤ a
  · have first : overlay f start xs a = f a := overlay_outside fun inside => by omega
    rw [overlay, if_pos late, first, overlay, if_pos (by omega),
      List.getElem?_append_right (by omega), Nat.sub_sub]
  · rw [overlay_outside (fun inside => late inside.1)]
    by_cases after : start ≤ a
    · rw [overlay, if_pos after, overlay, if_pos after, List.getElem?_append_left (by omega)]
    · rw [overlay, if_neg after, overlay, if_neg after]

/-- A window covers a cell. -/
def Covers (w : Nat × List α) (a : Nat) : Prop := w.1 ≤ a ∧ a < w.1 + w.2.length

/-- Windows one over the other, the first one lowest. -/
def overlays (f : Nat → α) (ws : List (Nat × List α)) : Nat → α :=
  ws.foldl (fun g w => overlay g w.1 w.2) f

variable {w : Nat × List α} {ws vs : List (Nat × List α)}

theorem overlays_cons : overlays f (w :: ws) = overlays (overlay f w.1 w.2) ws := rfl

theorem overlays_append : overlays f (ws ++ vs) = overlays (overlays f ws) vs :=
  List.foldl_append

theorem overlays_none (none_ : ∀ w ∈ ws, ¬ Covers w a) : overlays f ws a = f a := by
  induction ws generalizing f with
  | nil => rfl
  | cons w ws ih =>
    rw [overlays_cons, ih fun v later => none_ v (List.mem_cons_of_mem w later)]
    exact overlay_outside (none_ w List.mem_cons_self)

theorem overlays_last (default : α) (covers : Covers w a) (last : ∀ v ∈ vs, ¬ Covers v a) :
    overlays f (ws ++ w :: vs) a = w.2.getD (a - w.1) default := by
  rw [overlays_append, overlays_cons, overlays_none last]
  exact overlay_inside default covers.1 covers.2

/-- Windows that do not overlap are all to be seen. -/
theorem overlays_of_mem (default : α) (apart : ws.Pairwise fun v w => ∀ a, ¬(Covers v a ∧ Covers w a))
    (member : w ∈ ws) (covers : Covers w a) :
    overlays f ws a = w.2.getD (a - w.1) default := by
  obtain ⟨before, after, rfl⟩ := List.append_of_mem member
  refine overlays_last default covers fun v later both => ?_
  have rest := (List.pairwise_append.mp apart).2.1
  exact (List.pairwise_cons.mp rest).1 v later a ⟨covers, both⟩

end RandomRepo

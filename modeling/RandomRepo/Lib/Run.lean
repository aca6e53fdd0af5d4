import Mathlib.Logic.Relation

/-!
Runs of a labelled transition system whose steps are all admitted by a guard.

`Run step ok s t` says that `t` is reached from `s` by finitely many steps, each
of them taken from a state in which `ok` admits its label.  The guard is part of
the run and not of the step, so the same step relation is used with several
guards: with the trivial one for every run, with a stronger one for the runs
in which some law holds.
-/

namespace RandomRepo

variable {σ α : Type} {step : σ → α → σ → Prop} {ok weak : σ → α → Prop}

/-- `t` is reached from `s` by steps that `ok` admits. -/
def Run (step : σ → α → σ → Prop) (ok : σ → α → Prop) : σ → σ → Prop :=
  Relation.ReflTransGen fun s t => ∃ a, ok s a ∧ step s a t

/-- The guard that admits every step. -/
def anyStep (_ : σ) (_ : α) : Prop := True

theorem Run.refl (s : σ) : Run step ok s s :=
  Relation.ReflTransGen.refl

theorem Run.tail {s t u : σ} {a : α} (run : Run step ok s t) (admitted : ok t a)
    (edge : step t a u) : Run step ok s u :=
  Relation.ReflTransGen.tail run ⟨a, admitted, edge⟩

/-- **Invariant rule.**  A property of the first state that every admitted step
preserves holds of every state of the run. -/
theorem Run.invariant {s t : σ} (run : Run step ok s t) (inv : σ → Prop)
    (start : inv s)
    (preserved : ∀ s a t, inv s → ok s a → step s a t → inv t) : inv t := by
  induction run with
  | refl => exact start
  | tail _ edge ih =>
    obtain ⟨a, admitted, edge⟩ := edge
    exact preserved _ a _ ih admitted edge

/-- A run under a guard is a run under every guard that is weaker for the steps it can take. -/
theorem Run.mono {s t : σ} (run : Run step ok s t)
    (weaker : ∀ t a u, Run step ok s t → ok t a → step t a u → weak t a) : Run step weak s t := by
  induction run with
  | refl => exact .refl _
  | tail prior edge ih =>
    obtain ⟨a, admitted, edge⟩ := edge
    exact ih.tail (weaker _ a _ prior admitted edge) edge

/-! ## Scripts -/

/-- The state after a script, if all its steps can be taken. -/
def follow (next : σ → α → Option σ) : List α → σ → Option σ
  | [], s => some s
  | a :: as, s => (next s a).bind (follow next as)

theorem Run.follow {next : σ → α → Option σ}
    (sound : ∀ s a t, next s a = some t → ok s a ∧ step s a t) {as : List α} {s t : σ}
    (follows : RandomRepo.follow next as s = some t) : Run step ok s t := by
  induction as generalizing s with
  | nil =>
    cases follows
    exact .refl _
  | cons a as ih =>
    obtain ⟨u, first, rest⟩ := Option.bind_eq_some_iff.mp follows
    obtain ⟨admitted, edge⟩ := sound s a u first
    exact Relation.ReflTransGen.head ⟨a, admitted, edge⟩ (ih rest)

/-- A script that ends in a state with a property. -/
theorem Run.follow_any (step : σ → α → σ → Prop) (ok : σ → α → Prop) {next : σ → α → Option σ}
    (sound : ∀ s a t, next s a = some t → ok s a ∧ step s a t) {as : List α} {s : σ}
    {p : σ → Bool} (found : (RandomRepo.follow next as s).any p = true) :
    ∃ t, Run step ok s t ∧ p t = true := by
  cases follows : RandomRepo.follow next as s with
  | none =>
    rw [follows] at found
    cases found
  | some t =>
    rw [follows] at found
    exact ⟨t, Run.follow sound follows, found⟩

end RandomRepo

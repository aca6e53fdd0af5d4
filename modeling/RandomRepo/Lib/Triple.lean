import RandomRepo.Lib.Outcome

/-!
Triples for computations with a state that may halt.

`Triple P f Q E` says of every run of `f` from a state with `P`: if it returns `a`, then
`Q a` holds of the state it leaves, and if it halts, then `E` holds of the reason.  The
rules follow the structure of a program: one for each way to build it.
-/

namespace RandomRepo

variable {σ ε α β : Type} {P P' : σ → Prop} {E : ε → Prop} {f : StateT σ (Except ε) α}
  {g : α → StateT σ (Except ε) β} {R R' : α → σ → Prop} {Q : β → σ → Prop}

def Triple (P : σ → Prop) (f : StateT σ (Except ε) α) (Q : α → σ → Prop) (E : ε → Prop) : Prop :=
  ∀ s, P s → (∀ a s', f s = .ok (a, s') → Q a s') ∧ ∀ e, f s = .error e → E e

/-- The program may halt for any reason. -/
def anyError (_ : ε) : Prop := True

/-- For a program that is looked at as a function of the state. -/
theorem Triple.of_runs (halts : ∀ s e, f s = .error e → E e)
    (runs : ∀ s a s', P s → f s = .ok (a, s') → R a s') : Triple P f R E :=
  fun s pre => ⟨fun a s' => runs s a s' pre, halts s⟩

theorem Triple.runs {a : α} {s s' : σ} (triple : Triple P f R E) (pre : P s)
    (run : f s = .ok (a, s')) : R a s' :=
  (triple s pre).1 a s' run

theorem Triple.pure {a : α} (post : ∀ s, P s → R a s) :
    Triple P (Pure.pure a : StateT σ (Except ε) α) R E := by
  intro s pre
  refine ⟨fun b s' run => ?_, fun e halt => nomatch halt⟩
  cases run
  exact post s pre

theorem Triple.throw {e : ε} (reason : E e) :
    Triple P (MonadExcept.throw e : StateT σ (Except ε) α) R E := by
  intro s pre
  refine ⟨fun b s' run => (nomatch run), fun e' halt => ?_⟩
  cases halt
  exact reason

/-- Reading the state, in a run. -/
theorem get_bind_run {g : σ → StateT σ (Except ε) β} (s : σ) :
    (MonadState.get >>= g : StateT σ (Except ε) β) s = g s s := rfl

theorem Triple.bind (first : Triple P f R E) (rest : ∀ a, Triple (R a) (g a) Q E) :
    Triple P (f >>= g) Q E := by
  intro s pre
  obtain ⟨returns, halts⟩ := first s pre
  refine ⟨fun b s'' run => ?_, fun e halt => ?_⟩
  · obtain ⟨⟨a, s'⟩, one, two⟩ := bind_ok_iff.mp run
    exact (rest a s' (returns a s' one)).1 b s'' two
  · rcases bind_error_iff.mp halt with one | ⟨⟨a, s'⟩, one, two⟩
    · exact halts e one
    · exact (rest a s' (returns a s' one)).2 e two

/-- The state that is read is the one the rest starts from. -/
theorem Triple.get_bind {g : σ → StateT σ (Except ε) β}
    (rest : ∀ s, P s → Triple (fun t => t = s) (g s) Q E) :
    Triple P (MonadState.get >>= g) Q E := by
  intro s pre
  exact rest s pre s rfl

theorem Triple.modify {h : σ → σ} {Q : Unit → σ → Prop} (post : ∀ s, P s → Q () (h s)) :
    Triple P (modify h : StateT σ (Except ε) Unit) Q E := by
  intro s pre
  refine ⟨fun b s' run => ?_, fun e halt => nomatch halt⟩
  cases run
  exact post s pre

theorem Triple.mono (triple : Triple P' f R' E) (pre : ∀ s, P s → P' s)
    (post : ∀ a s, R' a s → R a s) : Triple P f R E :=
  fun s holds => ⟨fun a s' run => post a s' ((triple s (pre s holds)).1 a s' run),
    (triple s (pre s holds)).2⟩

theorem Triple.halts {E' : ε → Prop} (triple : Triple P f R E') (reason : ∀ e, E' e → E e) :
    Triple P f R E :=
  fun s holds => ⟨(triple s holds).1, fun e halt => reason e ((triple s holds).2 e halt)⟩

theorem Triple.pre (triple : Triple P' f R E) (pre : ∀ s, P s → P' s) : Triple P f R E :=
  triple.mono pre fun _ _ => id

/-- What does not depend on the state may be assumed. -/
theorem Triple.assume {p : Prop} (triple : p → Triple P f R E) (fact : ∀ s, P s → p) :
    Triple P f R E :=
  fun s pre => triple (fact s pre) s pre

theorem Triple.exists {ι : Type} {P : ι → σ → Prop} (triple : ∀ i, Triple (P i) f R E) :
    Triple (fun s => ∃ i, P i s) f R E :=
  fun s ⟨i, pre⟩ => triple i s pre

end RandomRepo

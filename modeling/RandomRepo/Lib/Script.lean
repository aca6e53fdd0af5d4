import RandomRepo.Lib.Outcome

/-!
Scripts: sequences of operations run by a machine that may halt.

`runAll` runs a script and collects the results.  An abstract machine is a total
function; if every operation it admits is matched by the machine, as long as
the machine stays in good states, then the machine returns on every admitted script
what the abstract one does (`runAll_refines`).
-/

namespace RandomRepo

variable {σ γ α β ε : Type}

def runAll (step : σ → α → Except ε (β × σ)) : σ → List α → Except ε (List β × σ)
  | s, [] => .ok ([], s)
  | s, a :: as => do
    let (b, s) ← step s a
    let (bs, s) ← runAll step s as
    .ok (b :: bs, s)

/-- Every state reached by running a prefix of the script is good. -/
def StaysGood (step : σ → α → Except ε (β × σ)) (good : σ → Prop) : σ → List α → Prop
  | _, [] => True
  | s, a :: as => ∀ b s', step s a = .ok (b, s') → good s' ∧ StaysGood step good s' as

/-- The results of the abstract machine. -/
def results (act : γ → α → β × γ) : γ → List α → List β
  | _, [] => []
  | g, a :: as => (act g a).1 :: results act (act g a).2 as

/-- Every operation of the script is admitted when its turn comes. -/
def Admitted (act : γ → α → β × γ) (admits : γ → α → Prop) : γ → List α → Prop
  | _, [] => True
  | g, a :: as => admits g a ∧ Admitted act admits (act g a).2 as

/-- **Refinement of scripts.** -/
theorem runAll_refines {step : σ → α → Except ε (β × σ)} {act : γ → α → β × γ}
    {admits : γ → α → Prop} {good : σ → Prop} (rel : γ → σ → Prop)
    (sim : ∀ g s a, rel g s → admits g a → ∃ b s', step s a = .ok (b, s') ∧
      (good s' → b = (act g a).1 ∧ rel (act g a).2 s'))
    {g : γ} {s : σ} {as : List α} (start : rel g s) (admitted : Admitted act admits g as)
    (stays : StaysGood step good s as) : ∃ s', runAll step s as = .ok (results act g as, s') := by
  induction as generalizing g s with
  | nil => exact ⟨s, rfl⟩
  | cons a as ih =>
    obtain ⟨here, later⟩ := admitted
    obtain ⟨b, s₁, one, match_⟩ := sim g s a start here
    obtain ⟨good, rest⟩ := stays b s₁ one
    obtain ⟨rfl, rel₁⟩ := match_ good
    obtain ⟨s', all⟩ := ih rel₁ later rest
    exact ⟨s', bind_ok_iff.mpr ⟨_, one, bind_ok_iff.mpr ⟨_, all, rfl⟩⟩⟩

/-! ## Budgets -/

def totalCost (act : γ → α → β × γ) (cost : γ → α → Nat) : γ → List α → Nat
  | _, [] => 0
  | g, a :: as => cost g a + totalCost act cost (act g a).2 as

/-- A machine that stays good while it can pay stays good on every script it can pay for. -/
theorem staysGood_of_budget {step : σ → α → Except ε (β × σ)} {act : γ → α → β × γ}
    {admits : γ → α → Prop} {good : σ → Prop} (rel : γ → σ → Prop) (budget : σ → Nat)
    (cost : γ → α → Nat)
    (pays : ∀ g s a b s', rel g s → good s → admits g a → cost g a ≤ budget s →
      step s a = .ok (b, s') → good s' ∧ rel (act g a).2 s' ∧ budget s ≤ budget s' + cost g a)
    {g : γ} {s : σ} {as : List α} (start : rel g s) (fine : good s)
    (admitted : Admitted act admits g as) (enough : totalCost act cost g as ≤ budget s) :
    StaysGood step good s as := by
  induction as generalizing g s with
  | nil => trivial
  | cons a as ih =>
    intro b s₁ one
    obtain ⟨here, later⟩ := admitted
    rw [totalCost] at enough
    obtain ⟨fine₁, rel₁, paid⟩ := pays g s a b s₁ start fine here (by omega) one
    exact ⟨fine₁, ih rel₁ fine₁ later (by omega)⟩

end RandomRepo

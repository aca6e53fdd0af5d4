import RandomRepo.Lib.Run
import RandomRepo.Xv6.Boot
import RandomRepo.Xv6.FileRefs

/-!
# Runs of the kernel

A run starts where `main` has made the first process.  Its guard restricts what
processes do to their own memory, so one induction over runs serves every law:
some hold in all runs, others in the runs in which no `mmap` passes `kernbase`, or in
which no process faults above a limit.
-/

namespace RandomRepo.Xv6

variable {L : Layout} {M : Machine} {i : Nat} {k₀ k k' : Kernel} {op : Op} {pd : Pgdir} {p : Proc}
  {T : Multiset Nat} {G : Proc → MemOp → Prop}

/-- The guard that restricts the operations of a process on its memory by `G`. -/
def Guarded (G : Proc → MemOp → Prop) (k : Kernel) (a : Nat × Op) : Prop :=
  ∀ op, a.2 = .mem op → G (k.proc a.1) op

/-- Within the limit, and with faults in the user half only. -/
def LowFaults (p : Proc) (op : MemOp) : Prop := MmapFits p op ∧ FaultsBelow kernbase p op

/-- Within the limit, and with faults below the size only. -/
def OwnFaults (p : Proc) (op : MemOp) : Prop := MmapFits p op ∧ FaultsBelow (pgroundup p.sz) p op

/-- `k` is reached from `k₀` by steps that `G` admits. -/
def Kernel.Reaches (L : Layout) (G : Proc → MemOp → Prop) (k₀ k : Kernel) : Prop :=
  Run (Kernel.Step L) (Guarded G) k₀ k

/-- A step is the operation, or `exit` in its place, or `exit` after a page fault. -/
theorem Kernel.run_cases {r : Option Reply} (h : k.run L i op = .ok (r, k')) :
    (∃ r, k.call L i op = .ok (r, k')) ∨ (∃ r, k.call L i .exit = .ok (r, k')) ∨
      ∃ acc r k₁ r', op = .mem acc ∧ k.call L i op = .ok (r, k₁) ∧
        k₁.call L i .exit = .ok (r', k') := by
  unfold Kernel.run at h
  split at h
  · rename_i access
    obtain ⟨⟨r₁, k₁⟩, call, rest⟩ := bind_ok_iff.mp h
    dsimp only at rest
    split at rest
    · split at rest
      · cases op with
        | mem acc => exact .inr (.inr ⟨acc, _, k₁, r, rfl, call, rest⟩)
        | _ => cases access
      · cases rest; exact .inl ⟨_, call⟩
    · cases rest; exact .inl ⟨_, call⟩
  · split at h
    · exact .inl ⟨r, h⟩
    · split at h
      · exact .inr (.inl ⟨r, h⟩)
      · exact .inl ⟨r, h⟩

theorem Kernel.alive_of_running (hi : i < nproc) (running : ¬ (k.proc i).Idle) : k.Alive i :=
  ⟨hi, fun unused => running (.inl unused)⟩

theorem Kernel.Step.not_idle {a : Nat × Op} (step : k.Step L a k') : ¬ (k.proc a.1).Idle := by
  obtain ⟨-, runnable, -⟩ := step
  unfold Proc.Idle
  rw [runnable]
  rintro (impossible | impossible) <;> cases impossible

/-- **Induction over runs of the kernel**: a property of the first state that every admitted
call of a running process keeps. -/
theorem Kernel.Reaches.rule (run : Kernel.Reaches L G k₀ k) (inv : Kernel → Prop)
    (start : inv k₀)
    (call : ∀ k i op r k', inv k → i < nproc → ¬ (k.proc i).Idle →
      (∀ op', op = .mem op' → G (k.proc i) op') → k.call L i op = .ok (r, k') → inv k') :
    inv k := by
  refine run.invariant inv start ?_
  rintro k ⟨i, op⟩ k' old guard edge
  have running : ¬ (k.proc i).Idle := edge.not_idle
  obtain ⟨hi, -, r, step⟩ := edge
  have hi : i < nproc := hi
  rcases k.run_cases step with ⟨r, here⟩ | ⟨r, here⟩ | ⟨acc, r, k₁, r', rfl, first, second⟩
  · exact call k i op r k' old hi running guard here
  · exact call k i .exit r k' old hi running (fun _ impossible => by cases impossible) here
  · have between := call k i _ r k₁ old hi running guard first
    refine call k₁ i .exit r' k' between hi ?_ (fun _ impossible => by cases impossible) second
    obtain ⟨⟨_, p, m⟩, run, rest⟩ := bind_ok_iff.mp first
    cases rest
    rw [Kernel.setProc_self]
    unfold Proc.Idle
    rw [(MemOp.run_spec run).same.state]
    exact running

/-- A guard may be replaced by one that is weaker for the processes that run. -/
theorem Kernel.Reaches.weaken {G' : Proc → MemOp → Prop} (run : Kernel.Reaches L G k₀ k)
    (weaker : ∀ k i op, Kernel.Reaches L G k₀ k → k.Alive i → G (k.proc i) op →
      G' (k.proc i) op) : Kernel.Reaches L G' k₀ k := by
  refine run.mono fun k a k' reached guard step op here => ?_
  exact weaker k a.1 op reached (Kernel.alive_of_running step.1 step.not_idle) (guard op here)

/-! ## Making steps -/

theorem Kernel.run_call (plain : op.isAccess = false) (live : (k.proc i).killed = false) :
    k.run L i op = k.call L i op := by
  unfold Kernel.run
  rw [if_neg (by rw [plain]; exact nofun)]
  cases op with
  | wait => rfl
  | _ => exact if_neg (by rw [live]; exact nofun)

/-- A process does something to its own memory. -/
theorem Kernel.step_mem {op : MemOp} {r : Reply} {m : Kmem} (hi : i < nproc)
    (state : (k.proc i).state = .runnable) (live : (k.proc i).killed = false)
    (done : op.run L (k.proc i) k.mem = .ok (r, p, m)) :
    k.Step L (i, .mem op) ({ k with mem := m }.setProc i p) := by
  have call : k.call L i (.mem op) = .ok (some r, { k with mem := m }.setProc i p) := by
    rw [Kernel.call, done]
    rfl
  refine ⟨hi, state, some r, ?_⟩
  by_cases access : (Op.mem op).isAccess = true
  · have stays : p.killed = false := (MemOp.run_spec done).same.killed.trans live
    unfold Kernel.run
    rw [if_pos access, call, ok_bind]
    dsimp only
    rw [Kernel.setProc_self, stays]
    split <;> rfl
  · rw [Kernel.run_call (Bool.eq_false_iff.mpr access) live, call]

/-- The size of one page, as an argument. -/
def onePage : CInt := ⟨4096, by constructor <;> decide⟩

/-- The state after an `mmap` that passes the checks of its argument. -/
def Kernel.mapped (k : Kernel) (i : Nat) (size : Int) : Kernel :=
  k.setProc i { k.proc i with sz := uaddInt (k.proc i).sz size }

theorem Kernel.step_mmap (size : CInt) (hi : i < nproc) (state : (k.proc i).state = .runnable)
    (live : (k.proc i).killed = false) (valid : 0 ≤ size.val ∧ size.val % 4096 = 0) :
    k.Step L (i, .mem (.mmap (some size))) (k.mapped i size.val) := by
  have checked : ¬ (size.val < 0 ∨ size.val % (pgsize : Int) ≠ 0) := by
    simp only [pgsize]
    omega
  have done : MemOp.run L (.mmap (some size)) (k.proc i) k.mem =
      .ok (.word (k.proc i).sz, { k.proc i with sz := uaddInt (k.proc i).sz size.val }, k.mem) := by
    rw [MemOp.run, sysMmap, if_neg checked, mmap]
  exact Kernel.step_mem hi state live done

/-! ## The first state -/

theorem Booted.alive (booted : Booted L k) (h : k.Alive i) : i = 0 := by
  by_contra other
  refine h.2 ?_
  rw [booted.others i other]
  rfl

theorem Booted.alive_first (booted : Booted L k) : k.Alive 0 :=
  ⟨by decide, by rw [booted.state]; exact nofun⟩

theorem Booted.procs {P : Proc → Prop} (booted : Booted L k) (first : P (k.proc 0)) :
    k.Procs P := by
  intro j alive
  rw [booted.alive alive]
  exact first

theorem Booted.whole (booted : Booted L k) : k.Procs Proc.Whole := by
  obtain ⟨pd, p, had, -⟩ := booted.dir
  exact booted.procs ⟨booted.stack, by rw [had]; rfl⟩

theorem Booted.bound (booted : Booted L k) : k.Procs fun p => p.sz ≤ kernbase :=
  booted.procs (by rw [booted.sz]; decide)

theorem Booted.below (booted : Booted L k) : k.Procs Proc.Below := by
  obtain ⟨pd, p, had, lookup⟩ := booted.dir
  refine booted.procs fun pd' v e had' mapped owned => ?_
  rw [had] at had'
  cases had'
  rw [lookup] at mapped
  split_ifs at mapped with first
  · rw [first, booted.sz]
    decide
  · exact absurd owned (kernelEntry_not_owned mapped)

theorem Booted.clean (booted : Booted L k) : k.Procs Proc.Clean := by
  obtain ⟨pd, p, had, lookup⟩ := booted.dir
  refine booted.procs fun pd' v e had' high mapped => ?_
  rw [had] at had'
  cases had'
  rw [lookup, if_neg (by simp only [kernPage] at high; omega)] at mapped
  exact kernelEntry_u mapped

theorem Booted.refs (booted : Booted L k) : k.Refs := by
  have none_ : ∀ i, (k.proc i).ofile = fun _ => none := by
    intro i
    by_cases first : i = 0
    · rw [first, booted.ofile]
    · rw [booted.others i first]
      rfl
  refine ⟨fun f => ?_, fun i _ _ => none_ i⟩
  rw [booted.files]
  exact (Finset.sum_eq_zero fun i _ => Proc.descriptors_none (none_ i) f).symm

theorem Booted.wf (booted : Booted L k) : k.files.Wf := by
  rw [booted.files]
  refine ⟨fun f _ => rfl, ?_, ?_, nofun, nofun⟩
  · rintro f p w ⟨impossible, -⟩
    cases impossible
  · rintro f g p w ⟨impossible, -⟩
    cases impossible

/-- The first process maps pages. -/
theorem Booted.maps (booted : Booted L k₀) (size : CInt) (valid : 0 ≤ size.val ∧ size.val % 4096 = 0)
    (fits : pgsize + size.val ≤ kernbase) : Kernel.Reaches L OwnFaults k₀ (k₀.mapped 0 size.val) ∧
      (k₀.mapped 0 size.val).Alive 0 ∧
      (k₀.mapped 0 size.val).proc 0 = { k₀.proc 0 with sz := uaddInt pgsize size.val } := by
  have here : (k₀.mapped 0 size.val).proc 0 = { k₀.proc 0 with sz := uaddInt pgsize size.val } := by
    rw [Kernel.mapped, Kernel.setProc_self, booted.sz]
  have step := Kernel.step_mmap (L := L) size (by decide) booted.state booted.killed valid
  refine ⟨(Run.refl k₀).tail ?_ step, ⟨by decide, by rw [here]; exact booted.alive_first.2⟩, here⟩
  rintro op ⟨⟩
  refine ⟨?_, fun _ _ _ other => by cases other⟩
  rintro size' ⟨⟩ - -
  rw [booted.sz]
  exact fits

theorem Kernel.Reaches.fits (run : Kernel.Reaches L OwnFaults k₀ k) :
    Kernel.Reaches L MmapFits k₀ k := run.weaken fun _ _ _ _ _ own => own.1

/-! ## Laws of runs -/

theorem Kernel.Reaches.whole (run : Kernel.Reaches L G k₀ k) (booted : Booted L k₀) :
    k.Procs Proc.Whole :=
  run.rule _ booted.whole fun _ _ _ _ _ inv hi running _ call =>
    have alive := Kernel.alive_of_running hi running
    (Kernel.call_spec alive.2 call).whole alive inv

theorem Kernel.Reaches.refs (run : Kernel.Reaches L G k₀ k) (booted : Booted L k₀) : k.Refs :=
  run.rule _ booted.refs fun _ _ _ _ _ inv hi running _ call =>
    Kernel.call_refs inv hi running call

/-! ## Sizes, user pages and the account of pages -/

theorem KStep.bound (step : KStep L i k op k') (alive : k.Alive i)
    (inv : k.Procs fun p => p.sz ≤ kernbase)
    (fits : ∀ op', op = .mem op' → MmapFits (k.proc i) op') :
    k'.Procs fun p => p.sz ≤ kernbase := by
  refine step.procs inv ?_ ?_ ?_
  · intro p p' same old
    rw [same.sz]
    exact old
  · intro op' p' m' here own
    exact own.sz_le (inv i alive) (fits op' here)
  · intro pd d m₁ m' c _ _ size _ _
    rw [size]
    exact inv i alive

theorem KStep.clean (step : KStep L i k op k') (alive : k.Alive i)
    (bound : k.Procs fun p => p.sz ≤ kernbase) (inv : k.Procs Proc.Clean)
    (low : ∀ op', op = .mem op' → FaultsBelow kernbase (k.proc i) op') :
    k'.Procs Proc.Clean := by
  refine step.procs inv ?_ ?_ ?_
  · intro p p' same old pd v e had
    exact old pd v e (by rw [← same.pgdir]; exact had)
  · intro op' p' m' here own
    exact own.clean (bound i alive) (inv i alive) (low op' here)
  · intro pd d m₁ m' c _ copy _ dir _ pd' v e had high mapped
    rw [dir] at had
    cases had
    cases copyuvm_spec (bound i alive) copy with
    | done copied =>
      have inside := npages_le_kernPage (bound i alive)
      rw [copied.kernel v (inside.trans high)] at mapped
      exact kernelEntry_u mapped

theorem KStep.below (step : KStep L i k op k') (alive : k.Alive i)
    (bound : k.Procs fun p => p.sz ≤ kernbase) (inv : k.Procs Proc.Below)
    (own : ∀ op', op = .mem op' → OwnFaults (k.proc i) op') : k'.Procs Proc.Below := by
  refine step.procs inv ?_ ?_ ?_
  · intro p p' same old pd v e had mapped owned
    rw [same.sz]
    exact old pd v e (by rw [← same.pgdir]; exact had) mapped owned
  · intro op' p' m' here step
    exact step.below (bound i alive) (inv i alive) (own op' here).1 (own op' here).2
  · intro pd d m₁ m' c _ copy size dir _ pd' v e had mapped owned
    rw [dir] at had
    cases had
    cases copyuvm_spec (bound i alive) copy with
    | done copied =>
      rw [size]
      by_contra high
      rw [copied.kernel v (Nat.le_of_not_lt high)] at mapped
      exact kernelEntry_not_owned mapped owned

/-- The sizes are within the limit, and every page of `T` is free or held once. -/
structure Accounted (L : Layout) (T : Multiset Nat) (k : Kernel) : Prop where
  bound : k.Procs fun p => p.sz ≤ kernbase
  owns : Owns L T k.mem k.held
  wf : k.files.Wf

theorem Booted.accounted (booted : Booted L k) : Accounted L (bootPages L) k :=
  ⟨booted.bound, booted.owns, booted.wf⟩

/-- The page directory of a process is part of the account. -/
theorem Accounted.dir (inv : Accounted L T k) (alive : k.Alive i)
    (had : (k.proc i).pgdir = some pd) : ∃ R, Owns L T k.mem (pd.pages + R) := by
  obtain ⟨rest, split, -⟩ := k.held_split alive.1
  rw [Proc.pages_of_dir alive.2 had, add_comm _ pd.pages, add_assoc] at split
  exact ⟨_, inv.owns.congr split⟩

/-- Without an `mmap` past the limit no process grows past it, and what is still accounted for
is accounted for once. -/
theorem Kernel.Reaches.accounted (run : Kernel.Reaches L MmapFits k₀ k) (booted : Booted L k₀) :
    ∃ T, T ≤ bootPages L ∧ Accounted L T k := by
  refine run.rule (fun k => ∃ T, T ≤ bootPages L ∧ Accounted L T k)
    ⟨_, le_rfl, booted.accounted⟩ ?_
  rintro k i op r k' ⟨T, sub, inv⟩ hi running guard call
  have alive := Kernel.alive_of_running hi running
  have step := Kernel.call_spec alive.2 call
  obtain ⟨T', owns, less, -⟩ := step.owns alive inv.bound inv.owns
  exact ⟨T', less.trans sub, step.bound alive inv.bound guard, owns, step.files_wf inv.owns inv.wf⟩

/-- If moreover no process faults in the kernel half, nothing is lost. -/
theorem Kernel.Reaches.conserved (run : Kernel.Reaches L LowFaults k₀ k) (booted : Booted L k₀) :
    Accounted L (bootPages L) k ∧ k.Procs Proc.Clean := by
  refine run.rule (fun k => Accounted L (bootPages L) k ∧ k.Procs Proc.Clean)
    ⟨booted.accounted, booted.clean⟩ ?_
  rintro k i op r k' ⟨inv, clean⟩ hi running guard call
  have alive := Kernel.alive_of_running hi running
  have step := Kernel.call_spec alive.2 call
  obtain ⟨T', owns, -, same⟩ := step.owns alive inv.bound inv.owns
  rw [same clean] at owns
  exact ⟨⟨step.bound alive inv.bound fun op here => (guard op here).1, owns,
    step.files_wf inv.owns inv.wf⟩,
    step.clean alive inv.bound clean fun op here => (guard op here).2⟩

/-- If no process faults above its size, all user pages lie below it. -/
theorem Kernel.Reaches.below (run : Kernel.Reaches L OwnFaults k₀ k) (booted : Booted L k₀) :
    (k.Procs fun p => p.sz ≤ kernbase) ∧ k.Procs Proc.Below := by
  refine run.rule (fun k => (k.Procs fun p => p.sz ≤ kernbase) ∧ k.Procs Proc.Below)
    ⟨booted.bound, booted.below⟩ ?_
  rintro k i op r k' ⟨bound, below⟩ hi running guard call
  have alive := Kernel.alive_of_running hi running
  have step := Kernel.call_spec alive.2 call
  exact ⟨step.bound alive bound fun op here => (guard op here).1,
    step.below alive bound below guard⟩

theorem Kernel.Reaches.lowFaults (run : Kernel.Reaches L OwnFaults k₀ k) (booted : Booted L k₀) :
    Kernel.Reaches L LowFaults k₀ k := by
  refine run.weaken fun k i op reached alive guard => ⟨guard.1, fun acc va pd here had trapped => ?_⟩
  have bound : (k.proc i).sz ≤ kernbase := (reached.below booted).1 i alive
  have inside := npages_le_kernPage bound
  have low := guard.2 acc va pd here had trapped
  simp only [kernbase] at bound ⊢
  rw [pgroundup_eq (by omega)] at low
  simp only [kernPage] at inside
  omega

theorem Proc.Below.unmapped (below : p.Below) (had : p.pgdir = some pd) {v : Nat}
    (above : npages p.sz ≤ v) (user : v < kernPage) : pd.lookup v = none := by
  by_contra present
  obtain ⟨e, mapped⟩ := Option.ne_none_iff_exists'.mp present
  have := below pd v e had mapped (.inl user)
  omega

end RandomRepo.Xv6

import RandomRepo.Xv6.KernelStep

/-!
# Invariants of the kernel

`Kernel.held` are the pages that somebody holds: the kernel's own page table,
the stacks of the other processors, the pipes and the processes.  A step moves
pages between them and the free list (`KStep.owns`); pages leave the account only
where a page table with user pages in the kernel half is freed.
-/

namespace RandomRepo.Xv6

variable {L : Layout} {i j : Nat} {k k' : Kernel} {op : Op} {T R S lost : Multiset Nat} {m m' : Kmem}

/-- The pages held by the kernel itself, by pipes and by processes. -/
def Kernel.held (k : Kernel) : Multiset Nat :=
  k.kpgdir.pages + k.cpuStacks + k.files.pages + ∑ i ∈ Finset.range nproc, (k.proc i).pages

/-- A slot in use. -/
def Kernel.Alive (k : Kernel) (i : Nat) : Prop := i < nproc ∧ (k.proc i).state ≠ .unused

/-- Every process satisfies `P`. -/
def Kernel.Procs (P : Proc → Prop) (k : Kernel) : Prop := ∀ j, k.Alive j → P (k.proc j)

/-- A process has a kernel stack and a page directory. -/
def Proc.Whole (p : Proc) : Prop := p.kstack.isSome ∧ p.pgdir.isSome

/-! ## Properties of every process -/

/-- A property of the memory of a process survives a step if the operations of the process
itself and the birth of a child keep it. -/
theorem KStep.procs {P : Proc → Prop} (step : KStep L i k op k') (inv : k.Procs P)
    (same : ∀ p p', SameMem p p' → P p → P p')
    (own : ∀ op' p' m', op = .mem op' → ProcStep L (k.proc i) k.mem op' p' m' → P p')
    (child : ∀ pd d m₁ m' c, (k.proc i).pgdir = some pd →
      copyuvm L pd (k.proc i).sz m₁ = .ok (some d, m') → c.sz = (k.proc i).sz →
      c.pgdir = some d → c.kstack.isSome → P c) : k'.Procs P := by
  -- one slot changes, the others are as before
  have slot : ∀ {k₁ : Kernel} {n : Nat} {p : Proc}, k₁.proc = k.proc →
      (p.state ≠ .unused → P p) → (k₁.setProc n p).Procs P := by
    rintro k₁ n p same new j ⟨bound, live⟩
    by_cases hj : j = n
    · subst hj
      rw [Kernel.setProc_self] at live ⊢
      exact new live
    · rw [Kernel.setProc_ne k₁ hj, same] at live ⊢
      exact inv j ⟨bound, live⟩
  cases step with
  | mem step => exact slot rfl fun _ => own _ _ _ rfl step
  | fork forked =>
    cases forked with
    | full => exact inv
    | noStack => exact slot rfl fun used => absurd rfl used
    | noCopy => exact slot rfl fun used => absurd rfl used
    | born _ _ had copy => exact slot rfl fun _ => child _ _ _ _ _ had copy rfl rfl rfl
  | reap => exact slot rfl fun used => absurd rfl used
  | files _ _ procs =>
    rintro j ⟨bound, live⟩
    exact same _ _ (procs j) (inv j ⟨bound, fun unused => live ((procs j).unused.mpr unused)⟩)

theorem KStep.whole (step : KStep L i k op k') (alive : k.Alive i) (inv : k.Procs Proc.Whole) :
    k'.Procs Proc.Whole := by
  refine step.procs inv ?_ ?_ ?_
  · rintro p p' same ⟨stack, dir⟩
    exact ⟨by rw [same.kstack]; exact stack, by rw [same.pgdir]; exact dir⟩
  · intro op' p' m' _ own
    have same := own.same
    obtain ⟨stack, dir⟩ := inv i alive
    exact ⟨by rw [same.kstack]; exact stack, by rw [same.dir]; exact dir⟩
  · intro pd d m₁ m' c _ _ _ has stack
    exact ⟨stack, by rw [has]; rfl⟩

/-! ## The account of pages -/

theorem Owns.forget (owns : Owns L T m (S + lost)) :
    Owns L (m.freelist + S) m S ∧ ((m.freelist : Multiset Nat) + S) ≤ T := by
  have sub : (m.freelist : Multiset Nat) + S ≤ T := by
    rw [← owns.ledger.balance]
    exact add_le_add_right (Multiset.le_add_right S lost) _
  refine ⟨⟨?_, fun p hp => owns.ram p (Multiset.mem_of_le sub hp), owns.once⟩, sub⟩
  exact ⟨rfl, Multiset.nodup_of_le sub owns.ledger.nodup⟩

/-- Nothing, or a part of the account, is lost. -/
def Keeps (L : Layout) (T : Multiset Nat) (m' : Kmem) (S : Multiset Nat) (all : Prop) : Prop :=
  ∃ T', Owns L T' m' S ∧ T' ≤ T ∧ (all → T' = T)

theorem Keeps.of_owns {all : Prop} (owns : Owns L T m' S) : Keeps L T m' S all :=
  ⟨T, owns, le_rfl, fun _ => rfl⟩

theorem Keeps.of_lost {all : Prop} (owns : Owns L T m' (S + lost)) (none_ : all → lost = 0) :
    Keeps L T m' S all := by
  by_cases zero : lost = 0
  · subst zero
    exact .of_owns (owns.congr (add_zero S))
  · obtain ⟨owns', sub⟩ := owns.forget
    exact ⟨_, owns', sub, fun h => absurd (none_ h) zero⟩

theorem Keeps.congr {all : Prop} {S' : Multiset Nat} (h : S = S') (keeps : Keeps L T m' S all) :
    Keeps L T m' S' all := h ▸ keeps

/-- The pages of one slot, and the rest. -/
theorem Kernel.held_split (k : Kernel) {n : Nat} (hn : n < nproc) :
    ∃ rest, k.held = (k.proc n).pages + rest ∧
      ∀ (k₁ : Kernel) (p : Proc), k₁.kpgdir = k.kpgdir → k₁.cpuStacks = k.cpuStacks →
        k₁.files.pages = k.files.pages → k₁.proc = k.proc →
        p.pages + rest = (k₁.setProc n p).held := by
  have mem : n ∈ Finset.range nproc := Finset.mem_range.mpr hn
  refine ⟨k.kpgdir.pages + k.cpuStacks + k.files.pages +
    ∑ i ∈ (Finset.range nproc).erase n, (k.proc i).pages, ?_, ?_⟩
  · rw [Kernel.held, ← Finset.add_sum_erase _ _ mem, add_left_comm]
  · intro k₁ p kpgdir cpus files procs
    have others : ∑ i ∈ (Finset.range nproc).erase n, ((k₁.setProc n p).proc i).pages =
        ∑ i ∈ (Finset.range nproc).erase n, (k.proc i).pages := by
      refine Finset.sum_congr rfl fun i hi => ?_
      rw [Kernel.setProc_ne k₁ (Finset.ne_of_mem_erase hi), procs]
    rw [Kernel.held, ← Finset.add_sum_erase _ _ mem, add_left_comm, others, Kernel.setProc_self]
    have same : (k₁.setProc n p).kpgdir = k.kpgdir ∧ (k₁.setProc n p).cpuStacks = k.cpuStacks ∧
        (k₁.setProc n p).files.pages = k.files.pages := ⟨kpgdir, cpus, files⟩
    rw [same.1, same.2.1, same.2.2]

theorem Proc.pages_unused {p : Proc} (h : p.state = .unused) : p.pages = 0 := by
  rw [Proc.pages, if_pos h]

theorem SameMem.pages {p p' : Proc} (same : SameMem p p') : p'.pages = p.pages := by
  unfold Proc.pages
  simp only [same.unused, same.kstack, same.pgdir]

theorem KStep.owns (step : KStep L i k op k') (alive : k.Alive i)
    (bound : k.Procs fun p => p.sz ≤ kernbase) (owns : Owns L T k.mem k.held) :
    Keeps L T k'.mem k'.held (k.Procs Proc.Clean) := by
  cases step with
  | mem step =>
    obtain ⟨rest, split, after⟩ := k.held_split alive.1
    obtain ⟨lost, moves, none_⟩ := step.moves alive.2 (bound i alive)
    refine .congr (after _ _ rfl rfl rfl rfl) (.of_lost ?_ fun clean => none_ (clean i alive))
    refine (moves.owns (owns.congr split)).congr ?_
    rw [add_assoc, add_assoc, add_comm lost]
  | fork forked =>
    cases forked with
    | full => exact .of_owns owns
    | noStack slot page =>
      obtain ⟨rest, split, after⟩ := k.held_split slot.bound
      rw [Proc.pages_unused slot.unused] at split
      have owns' := (kalloc_none_moves page).owns (owns.congr split)
      refine .congr (after _ _ rfl rfl rfl rfl) (.of_owns (owns'.congr ?_))
      rw [Proc.pages_unused rfl]
    | @noCopy _ s _ _ _ _ slot page had copy free =>
      obtain ⟨rest, split, after⟩ := k.held_split slot.bound
      rw [Proc.pages_unused slot.unused] at split
      cases copyuvm_spec (bound i alive) copy with
      | outOfMemory moves =>
        have back := (moves.frame {s}).congr (zero_add _) (zero_add _)
        have all := ((kalloc_some_moves page).trans back).trans (kfree_moves free)
        have owns' := all.owns (owns.congr split)
        refine .congr (after _ _ rfl rfl rfl rfl) (.of_owns (owns'.congr ?_))
        rw [Proc.pages_unused rfl]
    | @born _ s _ _ _ _ _ slot page had copy dup =>
      obtain ⟨rest, split, after⟩ := k.held_split slot.bound
      rw [Proc.pages_unused slot.unused] at split
      cases copyuvm_spec (bound i alive) copy with
      | done _ moves =>
        have made := (moves.frame {s}).congr (zero_add _) (add_comm _ _)
        have all := (kalloc_some_moves page).trans made
        refine .congr (after _ _ rfl rfl (dupFiles_spec dup).1 rfl) (.of_owns ?_)
        exact all.owns (owns.congr split)
  | @reap j s pd _ _ hj zombie _ stack had free freed =>
    obtain ⟨rest, split, after⟩ := k.held_split hj
    have live : (k.proc j).state ≠ .unused := by rw [zombie]; exact nofun
    rw [Proc.pages_of_dir live had, stack] at split
    have first := (kfree_moves free).frame pd.pages
    have all := first.trans ((freevm_moves freed).congr (zero_add _).symm rfl)
    have owns' : Owns L T _ (0 + rest + pd.stranded) := (all.owns (owns.congr split)).congr (by
      rw [zero_add, add_comm])
    refine .congr (after _ _ rfl rfl rfl rfl) ?_
    rw [Proc.pages_unused rfl]
    exact .of_lost owns' fun clean => Pgdir.stranded_of_clean (clean j ⟨hj, live⟩) had
  | files kpgdir cpus procs moves _ =>
    have others : ∑ i ∈ Finset.range nproc, (k'.proc i).pages =
        ∑ i ∈ Finset.range nproc, (k.proc i).pages :=
      Finset.sum_congr rfl fun j _ => (procs j).pages
    have before : k.held = k.files.pages + (k.kpgdir.pages + k.cpuStacks +
        ∑ i ∈ Finset.range nproc, (k.proc i).pages) := by
      rw [Kernel.held]; abel
    have after : k'.held = k'.files.pages + (k.kpgdir.pages + k.cpuStacks +
        ∑ i ∈ Finset.range nproc, (k.proc i).pages) := by
      rw [Kernel.held, others, kpgdir, cpus]; abel
    rw [after]
    exact .of_owns (moves.owns (owns.congr before))

theorem KStep.files_wf (step : KStep L i k op k') (owns : Owns L T k.mem k.held)
    (wf : k.files.Wf) : k'.files.Wf := by
  cases step with
  | mem => exact wf
  | fork forked =>
    cases forked with
    | full => exact wf
    | noStack => exact wf
    | noCopy => exact wf
    | born _ _ _ _ dup => exact (dupFiles_spec dup).2 wf
  | reap => exact wf
  | files _ _ _ _ keep =>
    refine keep T (k.kpgdir.pages + k.cpuStacks + ∑ i ∈ Finset.range nproc, (k.proc i).pages)
      (owns.congr ?_) wf
    rw [Kernel.held]
    abel

end RandomRepo.Xv6

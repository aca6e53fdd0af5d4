import RandomRepo.Xv6.Conservation

/-!
# The memory of a process and the steps of the others

`Accounted` gives every page one holder.  So a step of one process writes to no page of
another, whether it copies an address space, frees one, or opens and closes files.
-/

namespace RandomRepo.Xv6

variable {L : Layout} {M : Machine} {T S S' R : Multiset Nat} {m' : Kmem} {k₀ k k' : Kernel}
  {op : Op} {i j q : Nat}

/-- What is moved is held by somebody else, so the pages of `j` stay. -/
theorem Accounted.untouched (inv : Accounted L T k) (split : k.held = S + R)
    (moves : Moves L k.mem S m' S') (hj : j < nproc) (held : q ∈ (k.proc j).pages)
    (apart : q ∉ S) : m'.data q = k.mem.data q := by
  refine moves.same (inv.owns.congr split) ?_
  have member := Accounted.mem_held hj held
  rw [split] at member
  exact (Multiset.mem_add.mp member).resolve_left apart

/-- A process other than the one that runs keeps its memory, unless it is reaped. -/
structure KeptMem (k k' : Kernel) (j : Nat) : Prop where
  same : SameMem (k.proc j) (k'.proc j)
  data : ∀ q ∈ (k.proc j).pages, k'.mem.data q = k.mem.data q

theorem KeptMem.setProc {k₁ : Kernel} {n : Nat} {p : Proc} (other : j ≠ n) (procs : k₁.proc = k.proc)
    (data : ∀ q ∈ (k.proc j).pages, k₁.mem.data q = k.mem.data q) :
    KeptMem k (k₁.setProc n p) j := by
  refine ⟨?_, data⟩
  rw [Kernel.setProc_ne _ other, procs]
  exact .refl _

theorem FreeSlot.ne {n : Nat} (slot : FreeSlot k n) (alive : k.Alive j) : j ≠ n := by
  rintro rfl
  exact alive.2 slot.unused

theorem Fork.kept {r : Nat} (forked : Fork L i k r k') (inv : Accounted L T k)
    (alive : k.Alive i) (alive' : k.Alive j) : KeptMem k k' j := by
  -- a copy takes from the free list, and holds nothing before
  have fresh : ∀ {m' : Kmem} {S' : Multiset Nat}, Moves L k.mem 0 m' S' →
      ∀ q ∈ (k.proc j).pages, m'.data q = k.mem.data q := fun moves q held =>
    inv.untouched (zero_add _).symm moves alive'.1 held (Multiset.notMem_zero q)
  cases forked with
  | full => exact ⟨.refl _, fun _ _ => rfl⟩
  | noStack slot page =>
    exact .setProc (slot.ne alive') rfl (fresh (kalloc_none_moves page))
  | @noCopy _ s _ _ _ _ slot page had copy free =>
    cases copyuvm_spec (inv.bound i alive) copy with
    | outOfMemory moves =>
      have back := (moves.frame {s}).congr (zero_add _) (zero_add _)
      have all := ((kalloc_some_moves page).trans back).trans (kfree_moves free)
      exact .setProc (slot.ne alive') rfl (fresh all)
  | @born _ s _ _ _ _ _ slot page had copy dup =>
    cases copyuvm_spec (inv.bound i alive) copy with
    | done _ moves =>
      have made := (moves.frame {s}).congr (zero_add _) rfl
      exact .setProc (slot.ne alive') rfl (fresh ((kalloc_some_moves page).trans made))

theorem KStep.kept (step : KStep L i k op k') (inv : Accounted L T k) (alive : k.Alive i)
    (alive' : k.Alive j) (other : j ≠ i) (live : (k.proc j).state ≠ .zombie) :
    KeptMem k k' j := by
  cases step with
  | mem step =>
    obtain ⟨rest, split, -⟩ := k.held_split alive.1
    obtain ⟨lost, moves, -⟩ := step.moves alive.2 (inv.bound i alive)
    refine .setProc other rfl fun q held => ?_
    exact inv.untouched split moves alive'.1 held (inv.apart alive.1 alive'.1 other held)
  | fork forked => exact forked.kept inv alive alive'
  | @reap n s pd _ _ hn zombie _ stack had free freed =>
    have here : (k.proc n).state ≠ .unused := by rw [zombie]; exact nofun
    have apart : j ≠ n := by
      rintro rfl
      exact live zombie
    obtain ⟨rest, split, -⟩ := k.held_split hn
    have first := (kfree_moves free).frame pd.pages
    have all := first.trans ((freevm_moves freed).congr (zero_add _).symm rfl)
    refine .setProc apart rfl fun q held => ?_
    have absent := inv.apart hn alive'.1 apart held
    rw [Proc.pages_of_dir here had, stack] at split absent
    exact inv.untouched split all alive'.1 held absent
  | files _ _ procs moves _ =>
    refine ⟨procs j, fun q held => ?_⟩
    have split : k.held = k.files.pages + (k.kpgdir.pages + k.cpuStacks +
        ∑ i ∈ Finset.range nproc, (k.proc i).pages) := by
      rw [Kernel.held]; abel
    refine moves.same (inv.owns.congr split) (Multiset.mem_add.mpr (.inr ?_))
    exact Multiset.mem_sum.mpr ⟨j, Finset.mem_range.mpr alive'.1, held⟩

end RandomRepo.Xv6

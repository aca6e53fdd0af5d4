import RandomRepo.Xv6.ForkCopy

/-!
# Conservation of pages

`freevm` walks the user half only, while the fault handler maps pages anywhere.
As long as processes fault in the user half only, every page that the allocator
got at boot is free or held by exactly one owner, and reaping a process gives back
all of its pages.
-/

namespace RandomRepo.Xv6

variable {L : Layout} {M : Machine} {i j : Nat} {k₀ k k' : Kernel} {pd : Pgdir}
  {T : Multiset Nat}

/-! ## Reaping -/

/-- The account after the stack and the directory of slot `j` have been freed: what is left of
its pages are the user pages of the kernel half. -/
theorem Accounted.reap {s : Nat} {m₁ m' : Kmem} (inv : Accounted L T k) (hj : j < nproc)
    (live : (k.proc j).state ≠ .unused) (stack : (k.proc j).kstack = some s)
    (had : (k.proc j).pgdir = some pd) (free : kfree L s k.mem = .ok m₁)
    (freed : freevm L pd m₁ = .ok m') {p : Proc} (unused : p.state = .unused) :
    Owns L T m' (pd.stranded + ({ k with mem := m' }.setProc j p).held) ∧
      k.held = (k.proc j).pages + ({ k with mem := m' }.setProc j p).held := by
  obtain ⟨rest, split, after⟩ := k.held_split hj
  have left : rest = ({ k with mem := m' }.setProc j p).held := by
    rw [← after { k with mem := m' } p rfl rfl rfl rfl, Proc.pages_unused unused, zero_add]
  rw [← left]
  refine ⟨?_, split⟩
  rw [Proc.pages_of_dir live had, stack] at split
  have first := (kfree_moves free).frame pd.pages
  have all := first.trans ((freevm_moves freed).congr (zero_add _).symm rfl)
  exact all.owns (inv.owns.congr split)

/-- The state after process `i`, which has no open file, has exited. -/
def Kernel.exited (k : Kernel) (i : Nat) : Kernel :=
  { k with proc := fun j => k.reparent i (k.proc j) }.setProc i
    { k.reparent i (k.proc i) with ofile := fun _ => none, state := .zombie }

end RandomRepo.Xv6

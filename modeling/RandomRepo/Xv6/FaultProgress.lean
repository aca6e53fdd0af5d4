import RandomRepo.Xv6.PageFault

/-!
# Progress at page faults

`trap` prints the result of `page_fault_handler` and returns to user mode whatever it
is.  A fault on a page that the process may use is served if there is a free page for
the data and, if need be, one for the page table.  Otherwise the handler undoes what it
did, and nobody tells the process: it runs into the same fault again.
-/

namespace RandomRepo.Xv6

variable {L : Layout} {M : Machine} {i va : Nat} {k₀ k : Kernel} {pd pd' : Pgdir} {p : Proc}
  {m m' : Kmem} {T R : Multiset Nat} {ok : Bool}

/-- A run in which the first process has reserved a gigabyte and touched the pages below `n`. -/
structure Hoards (L : Layout) (k₀ k : Kernel) (n : Nat) : Prop where
  run : Kernel.Reaches L MmapFits k₀ k
  state : (k.proc 0).state = .runnable
  live : (k.proc 0).killed = false
  sz : (k.proc 0).sz = 0x40001000
  untouched : ∃ pd, (k.proc 0).pgdir = some pd ∧ ∀ v, n ≤ v → v < kernPage → pd.lookup v = none

theorem Hoards.touch {n : Nat} (hoards : Hoards L k₀ k n) (booted : Booted L k₀)
    (had : (k.proc 0).pgdir = some pd) (user : n < kernPage)
    (room : pd.faultDemand (n * pgsize) ≤ k.mem.freelist.length) :
    ∃ k', Hoards L k₀ k' (n + 1) ∧ k'.mem.freelist.length < k.mem.freelist.length := by
  have alive : k.Alive 0 := ⟨by decide, by rw [hoards.state]; exact nofun⟩
  have address : n * pgsize < 4294967296 := by simp only [kernPage, pgsize] at *; omega
  have page : vpn (n * pgsize) = n := Nat.mul_div_cancel n (by decide)
  obtain ⟨T, -, inv⟩ := hoards.run.accounted booted
  obtain ⟨R, owns⟩ := inv.dir alive had
  obtain ⟨pd₀, had', untouched⟩ := hoards.untouched
  rw [had] at had'
  cases had'
  have absent : pd.lookup (vpn (n * pgsize)) = none := by
    rw [page]
    exact untouched n (Nat.le_refl n) user
  obtain ⟨pd', m', q, step, lookup, taken⟩ := Kernel.step_fault .load alive.1 hoards.state
    hoards.live (hoards.run.whole booted 0 alive) had owns room address absent
  have some_ := (pd.faultDemand_bounds (n * pgsize)).1
  have here := Kernel.setProc_self { k with mem := m' } 0 { k.proc 0 with pgdir := some pd' }
  refine ⟨_, ⟨hoards.run.tail ?_ step, ?_, ?_, ?_, pd', by rw [here], fun v later inside => ?_⟩,
    show m'.freelist.length < _ by omega⟩
  · rintro op ⟨⟩ size impossible
    cases impossible
  · rw [here]
    exact hoards.state
  · rw [here]
    exact hoards.live
  · rw [here]
    exact hoards.sz
  · rw [lookup, page, if_neg (by omega)]
    exact untouched v (by omega) inside

/-- A gigabyte, as an argument of `mmap`. -/
def gigabyte : CInt := ⟨0x40000000, by constructor <;> decide⟩

theorem Booted.hoards (booted : Booted L k₀) : Hoards L k₀ (k₀.mapped 0 gigabyte.val) 1 := by
  obtain ⟨pd, p, had, lookup⟩ := booted.dir
  obtain ⟨run, -, here⟩ := booted.maps gigabyte (by decide) (by decide)
  refine ⟨run.fits, ?_, ?_, ?_, pd, ?_, fun v low high => ?_⟩
  · rw [here]
    exact booted.state
  · rw [here]
    exact booted.killed
  · rw [here]
    rfl
  · rw [here]
    exact had
  · rw [lookup, if_neg (by omega)]
    exact kernelEntry_user high

end RandomRepo.Xv6

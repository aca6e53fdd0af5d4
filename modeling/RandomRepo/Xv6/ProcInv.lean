import RandomRepo.Xv6.ProcStep

/-!
# Invariants of one process

Three facts about a process survive its own operations, each under a condition
on what it asks for:

* its size stays at most `kernbase`, if no `mmap` passes that limit;
* it has no user page in the kernel half, if it faults below `kernbase` only;
* all its user pages lie below its size, if it faults below its size only.

The pages of the process only change hands with the allocator
(`ProcStep.moves`), except that `exec` forgets the user pages of the kernel
half.
-/

namespace RandomRepo.Xv6

variable {L : Layout} {p p' : Proc} {m m' : Kmem} {r : Reply} {op : MemOp}

/-- The pages a process holds: its kernel stack and those of its page directory. -/
def Proc.pages (p : Proc) : Multiset Nat :=
  if p.state = .unused then 0
  else (p.kstack.elim 0 fun s => {s}) + p.pgdir.elim 0 Pgdir.pages

/-- No user page in the kernel half. -/
def Proc.Clean (p : Proc) : Prop :=
  ∀ pd v e, p.pgdir = some pd → kernPage ≤ v → pd.lookup v = some e → e.u = false

/-- Every page that is the user's lies below the size. -/
def Proc.Below (p : Proc) : Prop :=
  ∀ pd v e, p.pgdir = some pd → pd.lookup v = some e → Owned v e → v < npages p.sz

/-! ## Conditions on the operations -/

/-- An `mmap` that passes the argument checks stays within the user half. -/
def MmapFits (p : Proc) (op : MemOp) : Prop :=
  ∀ size, op = .mmap (some size) → 0 ≤ size.val → size.val % 4096 = 0 →
    (p.sz : Int) + size.val ≤ kernbase

/-- A user access that faults does so below `limit`. -/
def FaultsBelow (limit : Nat) (p : Proc) (op : MemOp) : Prop :=
  ∀ acc va pd, op = .access acc va → p.pgdir = some pd →
    pd.userPte (u32 va) acc.write = none → u32 va < limit

/-! ## What an operation leaves alone -/

/-- The fields that the operations of a process on its memory do not change. -/
structure SameProc (p p' : Proc) : Prop where
  state : p'.state = p.state
  kstack : p'.kstack = p.kstack
  parent : p'.parent = p.parent
  pid : p'.pid = p.pid
  killed : p'.killed = p.killed
  ofile : p'.ofile = p.ofile
  dir : p'.pgdir.isSome = p.pgdir.isSome

theorem ProcStep.same (step : ProcStep L p m op p' m') : SameProc p p' := by
  cases step with
  | refused | mmap | store =>
    exact ⟨rfl, rfl, rfl, rfl, rfl, rfl, rfl⟩
  | grow _ had | shrink _ had | fault had | exec had =>
    exact ⟨rfl, rfl, rfl, rfl, rfl, rfl, by rw [had]; rfl⟩

/-! ## The size -/

theorem uaddInt_of_nonneg {a : Nat} {n : Int} (h : 0 ≤ n) (room : a + n < 4294967296) :
    (uaddInt a n : Int) = a + n := by
  unfold uaddInt
  omega

theorem deallocuvm_size {L : Layout} {pd pd' : Pgdir} {oldsz newsz r : Nat} {m m' : Kmem}
    (h : deallocuvm L pd oldsz newsz m = .ok (r, pd', m')) :
    r ≤ oldsz ∧ (oldsz ≤ newsz ∧ r = oldsz ∧ pd' = pd ∧ m' = m ∨ newsz < oldsz ∧ r = newsz) := by
  rw [deallocuvm] at h
  by_cases keep : oldsz ≤ newsz
  · rw [if_pos keep] at h
    cases h
    exact ⟨Nat.le_refl _, .inl ⟨keep, rfl, rfl, rfl⟩⟩
  · rw [if_neg keep] at h
    obtain ⟨⟨pd₁, m₁⟩, -, rest⟩ := bind_ok_iff.mp h
    cases rest
    exact ⟨by omega, .inr ⟨by omega, rfl⟩⟩

theorem ProcStep.sz_le (step : ProcStep L p m op p' m') (bound : p.sz ≤ kernbase)
    (fits : MmapFits p op) : p'.sz ≤ kernbase := by
  have kern : kernbase = 2147483648 := rfl
  cases step with
  | refused => exact bound
  | @mmap size valid =>
    have fits := fits size rfl valid.1 valid.2
    have sum := uaddInt_of_nonneg (a := p.sz) valid.1 (by omega)
    show uaddInt p.sz size.val ≤ kernbase
    omega
  | grow _ _ alloc =>
    show (if _ then p.sz else _) ≤ kernbase
    split_ifs
    · exact bound
    · cases alloc with
      | tooBig => omega
      | smaller => exact bound
      | grown fits => omega
      | outOfMemory => omega
  | shrink _ _ dealloc =>
    show (if _ then p.sz else _) ≤ kernbase
    split_ifs
    · exact bound
    · exact (deallocuvm_size dealloc).1.trans bound
  | fault => exact bound
  | store => exact bound
  | exec _ image => exact Nat.le_of_lt image.bound

theorem Pgdir.stranded_of_clean (clean : p.Clean) {pd : Pgdir} (had : p.pgdir = some pd) :
    pd.stranded = 0 :=
  Pgdir.stranded_eq_zero fun v e high mapped => clean pd v e had high mapped

theorem Image.clean {pd : Pgdir} {sz v : Nat} {e : Pte} (image : Image L pd sz)
    (high : kernPage ≤ v) (mapped : pd.lookup v = some e) : e.u = false := by
  rw [image.kernel v (image.npages_le.trans high)] at mapped
  exact kernelEntry_u mapped

theorem Allocuvm.clean {pd pd' : Pgdir} {oldsz newsz r v : Nat} {e : Pte}
    (alloc : Allocuvm L pd oldsz newsz m r pd' m') (high : kernPage ≤ v)
    (mapped : pd'.lookup v = some e) : pd.lookup v = some e := by
  have kern : kernbase = 2147483648 := rfl
  have kp : kernPage = 524288 := rfl
  cases alloc with
  | tooBig => exact mapped
  | smaller => exact mapped
  | grown fits _ pages => rwa [pages.other v (by omega)] at mapped
  | outOfMemory fits _ undone => rwa [undone.lookup, if_neg (by omega)] at mapped

theorem ProcStep.clean (step : ProcStep L p m op p' m') (bound : p.sz ≤ kernbase)
    (clean : p.Clean) (low : FaultsBelow kernbase p op) : p'.Clean := by
  have kern : kernbase = 2147483648 := rfl
  have kp : kernPage = 524288 := rfl
  cases step with
  | refused => exact clean
  | mmap => exact clean
  | grow _ had alloc =>
    rintro pd v e ⟨⟩ high mapped
    exact clean _ v e had high (alloc.clean high mapped)
  | shrink _ had dealloc =>
    rintro pd v e ⟨⟩ high mapped
    rcases deallocuvm_size dealloc with ⟨-, ⟨-, -, rfl, -⟩ | ⟨smaller, -⟩⟩
    · exact clean _ v e had high mapped
    · obtain ⟨-, cleared, -⟩ := deallocuvm_spec bound smaller dealloc
      rw [cleared.lookup, if_neg (by omega)] at mapped
      exact clean _ v e had high mapped
  | @fault acc va _ _ _ had trapped fault =>
    rintro pd v e ⟨⟩ high mapped
    have below := low acc va _ rfl had trapped
    cases fault with
    | mapped _ lookup =>
      rw [lookup, vpn_pgrounddown, if_neg (by simp only [vpn, pgsize]; omega)] at mapped
      exact clean _ v e had high mapped
  | store => exact clean
  | exec _ image =>
    rintro pd v e ⟨⟩ high mapped
    exact image.clean high mapped

/-! ## The user pages -/

theorem ProcStep.below (step : ProcStep L p m op p' m') (bound : p.sz ≤ kernbase)
    (below : p.Below) (fits : MmapFits p op) (low : FaultsBelow (pgroundup p.sz) p op) :
    p'.Below := by
  have kern : kernbase = 2147483648 := rfl
  have kp : kernPage = 524288 := rfl
  have wider : ∀ {a b : Nat}, a ≤ b → npages a ≤ npages b :=
    fun h => Nat.div_le_div_right (Nat.add_le_add_right h _)
  cases step with
  | refused => exact below
  | @mmap size valid =>
    intro pd v e had mapped owned
    have fits := fits size rfl valid.1 valid.2
    have sum := uaddInt_of_nonneg (a := p.sz) valid.1 (by omega)
    refine Nat.lt_of_lt_of_le (below pd v e had mapped owned) (wider ?_)
    show p.sz ≤ uaddInt p.sz size.val
    omega
  | @grow n _ _ _ _ _ had alloc =>
    rintro pd v e ⟨⟩ mapped owned
    cases alloc with
    | tooBig => exact below _ v e had mapped owned
    | smaller _ less =>
      show v < npages (if p.sz = 0 then p.sz else p.sz)
      rw [ite_self]
      exact below _ v e had mapped owned
    | grown _ more pages =>
      show v < npages (if uaddInt p.sz n.val = 0 then p.sz else uaddInt p.sz n.val)
      rw [ite_eq_right_iff.mpr (fun h => by omega)]
      by_cases inside : npages p.sz ≤ v ∧ v * 4096 < uaddInt p.sz n.val
      · exact lt_npages.mpr inside.2
      · rw [pages.other v inside] at mapped
        exact Nat.lt_of_lt_of_le (below _ v e had mapped owned) (wider more)
    | outOfMemory _ _ undone =>
      rw [undone.lookup] at mapped
      split_ifs at mapped
      exact below _ v e had mapped owned
  | shrink _ had dealloc =>
    rintro pd v e ⟨⟩ mapped owned
    rcases deallocuvm_size dealloc with ⟨-, ⟨-, rfl, rfl, -⟩ | ⟨smaller, rfl⟩⟩
    · show v < npages (if p.sz = 0 then p.sz else p.sz)
      rw [ite_self]
      exact below _ v e had mapped owned
    · obtain ⟨-, cleared, -⟩ := deallocuvm_spec bound smaller dealloc
      rw [cleared.lookup] at mapped
      split_ifs at mapped with inside
      have old := below _ v e had mapped owned
      show v < npages (if uaddInt p.sz _ = 0 then p.sz else uaddInt p.sz _)
      split_ifs
      · exact old
      · rw [vpn_pgroundup (by omega)] at inside
        have := lt_npages.mp old
        omega
  | @fault acc va _ _ _ had trapped fault =>
    rintro pd v e ⟨⟩ mapped owned
    have inside := low acc va _ rfl had trapped
    cases fault with
    | mapped _ lookup =>
      rw [lookup, vpn_pgrounddown] at mapped
      split_ifs at mapped with here
      · rw [pgroundup_eq (by omega)] at inside
        rw [here]
        simp only [vpn, pgsize]
        omega
      · exact below _ v e had mapped owned
  | store => exact below
  | exec _ image =>
    rintro pd v e ⟨⟩ mapped owned
    by_contra high
    rw [image.kernel v (Nat.le_of_not_lt high)] at mapped
    exact kernelEntry_not_owned mapped owned

/-! ## The pages of the process -/

theorem Proc.pages_of_dir {pd : Pgdir} (live : p.state ≠ .unused) (had : p.pgdir = some pd) :
    p.pages = (p.kstack.elim 0 fun s => {s}) + pd.pages := by
  rw [Proc.pages, if_neg live, had]
  rfl

theorem Pgdir.userPte_mem {pd : Pgdir} {va : Nat} {write : Bool} {e : Pte} (h : va < 4294967296)
    (mapped : pd.userPte va write = some e) : e.ppn ∈ pd.pages := by
  obtain ⟨here, allowed⟩ := Option.filter_eq_some_iff.mp mapped
  rw [Pgdir.pte_eq_lookup _ h] at here
  simp only [Bool.and_eq_true] at allowed
  exact Pgdir.leaf_mem_pages (vpn_lt h) here (.inr allowed.1)

theorem ProcStep.moves (step : ProcStep L p m op p' m') (live : p.state ≠ .unused)
    (bound : p.sz ≤ kernbase) :
    ∃ lost, Moves L m p.pages m' (p'.pages + lost) ∧ (p.Clean → lost = 0) := by
  -- all but the directory stays with the process
  have onDir : ∀ {pd pd' : Pgdir} {lost : Multiset Nat}, p.pgdir = some pd →
      p'.pgdir = some pd' → Moves L m pd.pages m' (pd'.pages + lost) →
      Moves L m p.pages m' (p'.pages + lost) := by
    intro pd pd' lost had has moves
    have same := step.same
    rw [Proc.pages_of_dir live had, Proc.pages_of_dir (by rw [same.state]; exact live) has,
      same.kstack, add_assoc]
    exact (moves.frame _).congr (add_comm _ _) (add_comm _ _)
  have kept : ∀ {pd pd' : Pgdir}, p.pgdir = some pd → p'.pgdir = some pd' →
      Moves L m pd.pages m' pd'.pages →
      ∃ lost, Moves L m p.pages m' (p'.pages + lost) ∧ (p.Clean → lost = 0) :=
    fun had has moves => ⟨0, onDir had has (moves.congr rfl (add_zero _).symm), fun _ => rfl⟩
  cases step with
  | refused moves =>
    exact ⟨0, (moves.frame p.pages).congr (zero_add _) (add_comm _ _), fun _ => rfl⟩
  | mmap => exact ⟨0, (Moves.refl L m _).congr rfl (add_zero _).symm, fun _ => rfl⟩
  | grow _ had alloc => exact kept had rfl alloc.moves
  | shrink _ had dealloc =>
    rcases deallocuvm_size dealloc with ⟨-, ⟨-, -, rfl, rfl⟩ | ⟨smaller, -⟩⟩
    · exact kept had rfl (.refl _ _ _)
    · exact kept had rfl (deallocuvm_spec bound smaller dealloc).2.2.moves
  | fault had _ fault => exact kept had rfl fault.moves
  | store had mapped =>
    exact kept had had (write_mem_moves (Pgdir.userPte_mem (u32_lt _) mapped) _ _)
  | exec had _ moves =>
    exact ⟨_, onDir had rfl moves, fun clean => Pgdir.stranded_of_clean clean had⟩

end RandomRepo.Xv6

import RandomRepo.Xv6.FaultProgress
import RandomRepo.Xv6.UserRun

/-!
# Counting pages: `numvp` and `numpp`

`numpp` has its own `walkpgdir`, which returns a pointer to an entry only if the entry is
present.  It counts the present pages below the size of the process.  As long as pages
come in below the size only, `mmap` leaves the count alone, and an access adds the page
that it touches first.
-/

namespace RandomRepo.Xv6

/-- The `walkpgdir` of `proc.c`; the result says whether the pointer is not null. -/
def procWalkpgdir (pd : Pgdir) (va : Nat) : Bool :=
  match pd.pde (pdx va) with
  | none => false
  | some pgtab => (pgtab.pte (ptx va)).isSome

def numvp (p : Proc) : Nat :=
  if p.sz % pgsize = 0 then p.sz / pgsize else p.sz / pgsize + 1

/-- The loop of `numpp`. -/
def numppLoop (pd : Pgdir) (sz : Nat) : Nat → Nat → Nat → Except Halt Nat
  | 0, _, _ => .error .hang
  | turns + 1, i, num =>
    if i < sz then
      numppLoop pd sz turns (u32 (i + pgsize)) (if procWalkpgdir pd i then num + 1 else num)
    else .ok num

def numpp (p : Proc) : Except Halt Nat := do
  let pd ← p.dir
  numppLoop pd p.sz (vpages + 1) 0 0

/-- The number of present pages below page `n`. -/
def Pgdir.present (pd : Pgdir) (n : Nat) : Nat :=
  ((Finset.range n).filter fun v => (pd.lookup v).isSome = true).card

variable {L : Layout} {M : Machine} {i va n : Nat} {k₀ k : Kernel} {pd pd' : Pgdir} {p p' : Proc}
  {m m' : Kmem} {T R : Multiset Nat}

/-! ## The counts -/

theorem numvp_eq (p : Proc) : numvp p = npages p.sz := by
  rw [numvp, npages, pgsize]
  by_cases even : p.sz % 4096 = 0
  · rw [if_pos even]
    omega
  · rw [if_neg even]
    omega

theorem procWalkpgdir_eq (hva : va < 4294967296) :
    procWalkpgdir pd va = (pd.lookup (vpn va)).isSome := by
  rw [← Pgdir.pte_eq_lookup pd hva, procWalkpgdir, Pgdir.pte]
  cases pd.pde (pdx va) <;> rfl

theorem Pgdir.present_succ (pd : Pgdir) (n : Nat) :
    pd.present (n + 1) = pd.present n + if (pd.lookup n).isSome then 1 else 0 := by
  rw [Pgdir.present, Finset.range_add_one, Finset.filter_insert]
  split_ifs with here
  · rw [Finset.card_insert_of_notMem (by simp)]
    rfl
  · rfl

theorem Pgdir.present_le (pd : Pgdir) (n : Nat) : pd.present n ≤ n := by
  have le := Finset.card_filter_le (Finset.range n) fun v => (pd.lookup v).isSome = true
  rwa [Finset.card_range] at le

/-- The loop from page `v` on. -/
theorem numppLoop_eq (pd : Pgdir) {sz : Nat} (v turns : Nat) (bound : sz ≤ kernbase)
    (inside : v ≤ npages sz) (enough : npages sz < v + turns) :
    numppLoop pd sz turns (v * 4096) (pd.present v) = .ok (pd.present (npages sz)) := by
  have fits := npages_le_kernPage bound
  simp only [kernPage] at fits
  induction turns generalizing v with
  | zero => omega
  | succ turns ih =>
    rw [numppLoop]
    by_cases more : v * 4096 < sz
    · have less : v < npages sz := lt_npages.mpr more
      have page : vpn (v * 4096) = v := Nat.mul_div_cancel v (by decide)
      have next : u32 (v * 4096 + pgsize) = (v + 1) * 4096 := by
        simp only [u32, pgsize]
        omega
      have count : (if procWalkpgdir pd (v * 4096) then pd.present v + 1 else pd.present v) =
          pd.present (v + 1) := by
        rw [procWalkpgdir_eq (by omega), page, Pgdir.present_succ]
        split_ifs <;> rfl
      rw [if_pos more, next, count]
      exact ih (v + 1) less (by omega)
    · have last : v = npages sz := by
        have more : ¬ v < npages sz := fun less => more (lt_npages.mp less)
        omega
      rw [if_neg more, last]

theorem numpp_eq (had : p.pgdir = some pd) (bound : p.sz ≤ kernbase) :
    numpp p = .ok (pd.present (npages p.sz)) := by
  have fits := npages_le_kernPage bound
  have dir : p.dir = .ok pd := by rw [Proc.dir, had]
  have loop := numppLoop_eq pd 0 (vpages + 1) bound (Nat.zero_le _)
    (by simp only [vpages_eq, kernPage] at *; omega)
  rw [numpp, dir, ok_bind]
  exact loop

/-! ## What changes the counts -/

/-- More room without pages. -/
theorem Pgdir.present_grown {n' : Nat} (more : n ≤ n')
    (absent : ∀ v, n ≤ v → v < n' → pd.lookup v = none) : pd.present n' = pd.present n := by
  induction n', more using Nat.le_induction with
  | base => rfl
  | succ n' more ih =>
    rw [Pgdir.present_succ, ih fun v low high => absent v low (by omega),
      absent n' more (Nat.lt_succ_self n')]
    rfl

/-- One page comes in. -/
theorem Pgdir.present_insert {v : Nat} {e : Pte} (inside : v < n) (absent : pd.lookup v = none)
    (lookup : ∀ w, pd'.lookup w = if w = v then some e else pd.lookup w) :
    pd'.present n = pd.present n + 1 := by
  have split : ((Finset.range n).filter fun w => (pd'.lookup w).isSome = true) =
      insert v ((Finset.range n).filter fun w => (pd.lookup w).isSome = true) := by
    ext w
    simp only [Finset.mem_insert, Finset.mem_filter, Finset.mem_range, lookup]
    by_cases here : w = v
    · subst here
      simp [inside]
    · simp [here]
  rw [Pgdir.present, split, Finset.card_insert_of_notMem (by simp [absent])]
  rfl

theorem numpp_mmap {size : CInt} {j : Nat} (had : p.pgdir = some pd) (below : p.Below)
    (pages : size.val = j * 4096) (fits : p.sz + j * 4096 ≤ kernbase) :
    numvp (sysMmap (some size) p).2 = numvp p + j ∧ numpp (sysMmap (some size) p).2 = numpp p := by
  have checked : ¬ (size.val < 0 ∨ size.val % (pgsize : Int) ≠ 0) := by
    simp only [pgsize]
    omega
  have sum : uaddInt p.sz size.val = p.sz + j * 4096 := by
    rw [pages]
    simp only [uaddInt, kernbase] at *
    omega
  have grown : (sysMmap (some size) p).2 = { p with sz := p.sz + j * 4096 } := by
    rw [sysMmap, if_neg checked, mmap, sum]
  have count : npages (p.sz + j * 4096) = npages p.sz + j := by
    simp only [npages]
    omega
  have inside := npages_le_kernPage fits
  rw [grown]
  refine ⟨by rw [numvp_eq, numvp_eq, count], ?_⟩
  rw [numpp_eq (p := { p with sz := p.sz + j * 4096 }) had fits, numpp_eq had (by omega)]
  dsimp only
  refine congrArg Except.ok (Pgdir.present_grown (by omega) fun v low high => ?_)
  exact below.unmapped had low (by omega)

/-- A page that has just been mapped can be accessed. -/
theorem access_mapped {q : Nat} (acc : Access) (had : p.pgdir = some pd) (hva : va < 4294967296)
    (mapped : pd.lookup (vpn va) = some (permUser.entry q)) :
    ∃ b m', access L acc va p m = .ok (.value b, p, m') := by
  have dir : p.dir = .ok pd := by rw [Proc.dir, had]
  have found : pd.userPte va acc.write = some (permUser.entry q) := by
    rw [Pgdir.userPte, Pgdir.pte_eq_lookup _ hva, mapped, Option.filter_some_pos]
    simp [permUser, Perm.entry]
  rw [access, dir, ok_bind, found]
  cases acc with
  | load => exact ⟨_, _, rfl⟩
  | store b => exact ⟨_, _, rfl⟩

/-- The first access to a reserved page. -/
theorem execute_absent (acc : Access) (whole : p.Whole) (had : p.pgdir = some pd)
    (owns : Owns L T m (pd.pages + R)) (bound : p.sz ≤ kernbase) (inside : va < p.sz)
    (absent : pd.lookup (vpn va) = none) :
    ∃ r p' m', execute L acc va p m = .ok (r, p', m') ∧
      (r.isSome ↔ pd.faultDemand va ≤ m.freelist.length) ∧
      numpp p' = .ok (pd.present (npages p.sz) + if r.isSome then 1 else 0) := by
  have hva : va < 4294967296 := by simp only [kernbase] at bound; omega
  rcases access_absent acc whole had owns hva absent with
    ⟨pd', q, m₁, taken, first, lookup⟩ | ⟨short, m₁, first, list, owns₁⟩
  · obtain ⟨b, m₂, second⟩ := access_mapped (L := L) (m := m₁)
      (p := { p with pgdir := some pd' }) (q := q) acc rfl hva (by rw [lookup, if_pos rfl])
    refine ⟨some b, { p with pgdir := some pd' }, m₂, ?_, by simp [taken], ?_⟩
    · rw [execute, first, ok_bind]
      dsimp only
      rw [second]
      rfl
    · have page : vpn va < npages p.sz := lt_npages.mpr (by simp only [vpn, pgsize]; omega)
      rw [numpp_eq (p := { p with pgdir := some pd' }) rfl bound]
      exact congrArg Except.ok (Pgdir.present_insert page absent lookup)
  · rcases access_absent acc whole had owns₁ hva absent with
      ⟨_, _, _, taken, -⟩ | ⟨-, m₂, second, -⟩
    · rw [list] at taken
      omega
    · refine ⟨none, p, m₂, ?_, ?_, ?_⟩
      · rw [execute, first, ok_bind]
        dsimp only
        rw [second]
        rfl
      · simp only [Option.isSome_none, Bool.false_eq_true, false_iff, Nat.not_le]
        exact short
      · exact numpp_eq had bound

/-- An access to a page that is present leaves the process as it is: if a handler returns, it can
only have failed. -/
theorem access_present {acc : Access} {o : Outcome} {e : Pte} (had : p.pgdir = some pd)
    (hva : va < 4294967296) (mapped : pd.lookup (vpn va) = some e)
    (h : access L acc va p m = .ok (o, p', m')) : p' = p := by
  have dir : p.dir = .ok pd := by rw [Proc.dir, had]
  rw [access, dir, ok_bind] at h
  cases found : pd.userPte va acc.write with
  | some e =>
    rw [found] at h
    cases acc <;> cases h <;> rfl
  | none =>
    rw [found] at h
    obtain ⟨⟨ok, p₁, m₁⟩, trap, rest⟩ := bind_ok_iff.mp h
    cases rest
    obtain ⟨pd₀, pd', had', rfl, fault⟩ := trapPgflt_cases trap
    rw [had] at had'
    cases had'
    cases pageFaultHandler_spec (pgrounddown_lt hva) (pgrounddown_aligned va) fault with
    | mapped absent _ _ _ =>
      rw [vpn_pgrounddown, mapped] at absent
      cases absent
    | outOfMemory _ _ _ => rw [← had]

theorem execute_present {acc : Access} {r : Option UInt8} {e : Pte} (had : p.pgdir = some pd)
    (hva : va < 4294967296) (mapped : pd.lookup (vpn va) = some e)
    (h : execute L acc va p m = .ok (r, p', m')) : p' = p := by
  obtain ⟨⟨o, p₁, m₁⟩, first, rest⟩ := bind_ok_iff.mp h
  obtain rfl := access_present had hva mapped first
  cases o with
  | value b =>
    cases rest
    rfl
  | fault ok =>
    obtain ⟨⟨o, p₂, m₂⟩, second, rest⟩ := bind_ok_iff.mp rest
    obtain rfl := access_present had hva mapped second
    cases o <;> cases rest <;> rfl

/-! ## Page accounting -/

/-- The two counts are right, and what `mmap` and accesses do to them. -/
structure PageAccounting (L : Layout) (p : Proc) (pd : Pgdir) (m : Kmem) : Prop where
  reserved : numvp p = npages p.sz
  present : numpp p = .ok (pd.present (npages p.sz))
  le : pd.present (npages p.sz) ≤ numvp p
  mmap : ∀ (size : CInt) (j : Nat), size.val = j * 4096 → p.sz + j * 4096 ≤ kernbase →
    numvp (sysMmap (some size) p).2 = numvp p + j ∧ numpp (sysMmap (some size) p).2 = numpp p
  first : ∀ acc va, va < p.sz → pd.lookup (vpn va) = none →
    ∃ r p' m', execute L acc va p m = .ok (r, p', m') ∧
      (r.isSome ↔ pd.faultDemand va ≤ m.freelist.length) ∧
      numpp p' = .ok (pd.present (npages p.sz) + if r.isSome then 1 else 0)
  later : ∀ acc va e r p' m', va < p.sz → pd.lookup (vpn va) = some e →
    execute L acc va p m = .ok (r, p', m') → numpp p' = numpp p

/-- **Page accounting.**  In every state of a run in which no `mmap` passes `kernbase` and all
faults are below the size of the process, the counts are right, and they change as described. -/
theorem page_accounting (start : boot L M = .ok k₀) (run : Kernel.Reaches L OwnFaults k₀ k)
    (alive : k.Alive i) (had : (k.proc i).pgdir = some pd) :
    PageAccounting L (k.proc i) pd k.mem := by
  have booted := Booted.of_boot start
  obtain ⟨bound, below⟩ := run.below booted
  obtain ⟨inv, -⟩ := (run.lowFaults booted).conserved booted
  obtain ⟨R, owns⟩ := inv.dir alive had
  have size : (k.proc i).sz ≤ kernbase := bound i alive
  refine ⟨numvp_eq _, numpp_eq had size, ?_, ?_, ?_, ?_⟩
  · rw [numvp_eq]
    exact pd.present_le _
  · exact fun size' j pages fits => numpp_mmap had (below i alive) pages fits
  · intro acc va inside absent
    exact execute_absent acc (run.whole booted i alive) had owns size inside absent
  · intro acc va e r p' m' inside mapped executed
    have hva : va < 4294967296 := by simp only [kernbase] at size; omega
    rw [execute_present had hva mapped executed]

/-- The first process maps a page, loads from it and stores into it.  Before that the page is
reserved only. -/
theorem page_accounting_first : ∃ k₀ k k' pd pd' e, boot kernelSym blankMachine = .ok k₀ ∧
    Kernel.Reaches kernelSym OwnFaults k₀ k ∧ (k.proc 0).sz = 0x2000 ∧
    (k.proc 0).pgdir = some pd ∧ pd.lookup 1 = none ∧ PageAccounting kernelSym (k.proc 0) pd k.mem ∧
    Kernel.Reaches kernelSym OwnFaults k k' ∧ (k'.proc 0).pgdir = some pd' ∧
    pd'.lookup 1 = some e ∧ PageAccounting kernelSym (k'.proc 0) pd' k'.mem := by
  obtain ⟨k₀, start, booted⟩ := boot_spec kernelSym blankMachine
  obtain ⟨pd, p, had, lookup⟩ := booted.dir
  obtain ⟨run, alive, here⟩ := booted.maps onePage (by decide) (by decide)
  have dir : ((k₀.mapped 0 onePage.val).proc 0).pgdir = some pd := by rw [here]; exact had
  obtain ⟨A, size, usable, loaded⟩ := booted.userRun
  have sz : (A.act (.mmap onePage)).2.sz = 0x2000 := by
    show ((A.sz : Int) + 4096).toNat = 0x2000
    rw [size]
    decide
  have reserved : UserRun kernelSym (k₀.mapped 0 onePage.val) 0 (A.act (.mmap onePage)).2 50000
      (k₀.mapped 0 onePage.val) := by
    refine ⟨.refl _, ⟨rfl, rfl, rfl, rfl, rfl, rfl, rfl⟩, fun _ _ => rfl, rfl, ?_, loaded.fine,
      loaded.room⟩
    rw [here, ← booted.sz]
    exact loaded.backs.reserve (by rw [size]; decide) (by decide) (by rw [size]; decide)
  have twice : UserRun kernelSym (k₀.mapped 0 onePage.val) 0 (A.act (.mmap onePage)).2
      (demand (A.act (.mmap onePage)).2.sz [.access .load 0x1004, .access (.store 7) 0x1004] + 40000)
      (k₀.mapped 0 onePage.val) :=
    reserved.less (show 2 + (2 + 0) + 40000 ≤ 50000 by decide)
  obtain ⟨usable, k', later⟩ := UserRun.acts (by decide) (by rw [here]; exact booted.state)
    (by rw [here]; exact booted.killed) twice
    (AddrSpace.Usable.act (.mmap onePage) usable).1
    (by rw [sz]; exact ⟨⟨by decide, id⟩, ⟨by decide, id⟩, trivial⟩)
  obtain ⟨pd', e, had', mapped, -⟩ := later.backs.touched (a := 0x1004) usable
    (show 0x1004 < (A.act (.mmap onePage)).2.sz by rw [sz]; decide) (by
      show (AddrSpace.write _ _ 7).read _ ≠ 0
      rw [AddrSpace.read_write]
      decide)
  have alive' : k'.Alive 0 := ⟨by decide, by rw [later.same.state]; exact alive.2⟩
  have all : Kernel.Reaches kernelSym OwnFaults k₀ k' := run.trans later.reached
  refine ⟨k₀, _, k', pd, pd', e, start, run, by rw [here]; rfl, dir, ?_,
    page_accounting start run alive dir, later.reached, had', mapped,
    page_accounting start all alive' had'⟩
  rw [lookup, if_neg (by decide)]
  exact kernelEntry_user (by decide)

end RandomRepo.Xv6

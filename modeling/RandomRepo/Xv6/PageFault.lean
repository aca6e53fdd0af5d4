import RandomRepo.Xv6.Reach

/-!
# Page faults

The `T_PGFLT` branch of `trap` maps a fresh page at whatever address the access
faulted, without looking at the cause of the fault.  If the page is present, as
a guard page or a page of the kernel half is, `mappages` panics.
-/

namespace RandomRepo.Xv6

variable {L : Layout} {M : Machine} {i va : Nat} {k₀ k : Kernel} {pd : Pgdir} {p : Proc} {m : Kmem}
  {T R : Multiset Nat}

theorem switchuvm_ok (whole : p.Whole) : switchuvm p = .ok () := by
  obtain ⟨stack, dir⟩ := whole
  obtain ⟨s, stack⟩ := Option.isSome_iff_exists.mp stack
  obtain ⟨pd, dir⟩ := Option.isSome_iff_exists.mp dir
  rw [switchuvm, stack, dir]
  rfl

theorem trapPgflt_total (whole : p.Whole) (ram : ∀ q ∈ m.freelist, L.InRam q) (hva : va < 4294967296)
    (had : p.pgdir = some pd) (harmless : pd.lookup (vpn va) = none ∨ m.freelist = []) :
    ∃ ok pd' m', trapPgflt L va p m = .ok (ok, { p with pgdir := some pd' }, m') ∧
      pageFaultHandler L pd (pgrounddown va) m = .ok (ok, pd', m') := by
  have dir : p.dir = .ok pd := by rw [Proc.dir, had]
  rw [← vpn_pgrounddown] at harmless
  obtain ⟨ok, pd', m', handled⟩ := pageFaultHandler_total (pgrounddown_lt hva)
    (pgrounddown_aligned va) ram harmless
  have stays : Proc.Whole { p with pgdir := some pd' } := ⟨whole.1, rfl⟩
  exact ⟨ok, pd', m', bind_ok_iff.mpr ⟨pd, dir, bind_ok_iff.mpr ⟨_, handled,
    bind_ok_iff.mpr ⟨(), switchuvm_ok stays, rfl⟩⟩⟩, handled⟩

/-- Growing and shrinking a process whose user pages lie below its size. -/
theorem growproc_total (n : Int) (whole : p.Whole) (bound : p.sz ≤ kernbase)
    (had : p.pgdir = some pd) (owns : Owns L T m (pd.pages + R))
    (unmapped : ∀ v, npages p.sz ≤ v → v < kernPage → pd.lookup v = none) :
    ∃ r, growproc L n p m = .ok r := by
  have kern : kernbase = 2147483648 := rfl
  have kp : kernPage = 524288 := rfl
  have dir : p.dir = .ok pd := by rw [Proc.dir, had]
  unfold growproc
  by_cases zero : n = 0
  · rw [if_pos zero]
    exact ⟨_, bind_ok_iff.mpr ⟨(), switchuvm_ok whole, rfl⟩⟩
  · rw [if_neg zero, dir, ok_bind]
    have resized : ∃ r pd' m', (if 0 < n then allocuvm L pd p.sz (uaddInt p.sz n) m
        else deallocuvm L pd p.sz (uaddInt p.sz n) m) = .ok (r, pd', m') := by
      split_ifs
      · by_cases big : kernbase ≤ uaddInt p.sz n
        · exact ⟨0, pd, m, by rw [allocuvm, if_pos big]⟩
        · exact allocuvm_total (fun v low high => unmapped v low (by omega)) owns
      · exact deallocuvm_total _ bound owns
    obtain ⟨r, pd', m', resized⟩ := resized
    dsimp only
    rw [resized, ok_bind]
    dsimp only
    by_cases failed : r = 0
    · exact ⟨_, if_pos failed⟩
    · have stays : Proc.Whole { p with pgdir := some pd', sz := r } := ⟨whole.1, rfl⟩
      rw [if_neg failed, switchuvm_ok stays]
      exact ⟨_, rfl⟩

/-! ## Accesses that trap -/

theorem access_trapped {acc : Access} (had : p.pgdir = some pd)
    (trapped : pd.userPte va acc.write = none) :
    access L acc va p m = (trapPgflt L va p m >>= fun (ok, p, m) => .ok (.fault ok, p, m)) := by
  have dir : p.dir = .ok pd := by rw [Proc.dir, had]
  rw [access, dir, ok_bind, trapped]

/-- The pages that mapping the page of `va` takes. -/
def Pgdir.faultDemand (pd : Pgdir) (va : Nat) : Nat := if (pd.pde (pdx va)).isSome then 1 else 2

theorem Pgdir.faultDemand_bounds (pd : Pgdir) (va : Nat) :
    0 < pd.faultDemand va ∧ pd.faultDemand va ≤ 2 := by
  unfold Pgdir.faultDemand
  split_ifs <;> decide

/-- A handler that fails has found no page, or only one although a page table was missing. -/
theorem pageFaultHandler_fails (hva : va < 4294967296)
    (h : pageFaultHandler L pd (pgrounddown va) m = .ok (false, pd', m')) :
    pd' = pd ∧ m'.freelist = m.freelist ∧ m.freelist.length < pd.faultDemand va := by
  unfold Pgdir.faultDemand
  rcases pageFaultHandler_cases h with
    ⟨-, rfl, page⟩ | ⟨-, q, m₁, m₂, page, turn, free⟩ | ⟨impossible, -⟩
  · rcases kalloc_cases page with ⟨empty, -, rfl⟩ | ⟨q, rest, -, impossible, -⟩
    · refine ⟨rfl, rfl, ?_⟩
      rw [empty, List.length_nil]
      split_ifs <;> decide
    · cases impossible
  · rw [mappages_one (pgrounddown_lt hva) (pgrounddown_aligned va)] at turn
    rcases mapPage_cases (pgrounddown_lt hva) turn with ⟨-, rfl, absent, none_⟩ | ⟨impossible, -⟩
    swap
    · cases impossible
    rcases kalloc_cases page with ⟨-, impossible, -⟩ | ⟨r, rest, list, first, rfl⟩
    · cases impossible
    cases first
    rcases kalloc_cases none_ with ⟨empty, -, rfl⟩ | ⟨r, rest', -, impossible, -⟩
    swap
    · cases impossible
    have last : rest = [] := empty
    obtain ⟨-, rfl⟩ := kfree_eq_ok free
    rw [pdx_pgrounddown] at absent
    refine ⟨rfl, ?_, ?_⟩
    · rw [list, last]
      rfl
    · rw [list, last, absent]
      exact Nat.lt_succ_self 1
  · cases impossible

/-- A handler that succeeds has taken the pages that it needed. -/
theorem pageFaultHandler_takes (hva : va < 4294967296) (owns : Owns L T m (pd.pages + R))
    (h : pageFaultHandler L pd (pgrounddown va) m = .ok (true, pd', m')) :
    m.freelist.length = m'.freelist.length + pd.faultDemand va := by
  rcases pageFaultHandler_cases h with ⟨impossible, -⟩ | ⟨impossible, -⟩ | ⟨-, q, m₁, page, turn⟩
  · cases impossible
  · cases impossible
  · rw [mappages_one (pgrounddown_lt hva) (pgrounddown_aligned va)] at turn
    obtain ⟨fresh, gains, card⟩ := mapPage_new page (memset_moves (L := L) 0) (pgrounddown_lt hva)
      (owned_user _ _) turn
    have count := gains.length owns
    have grown := congrArg Multiset.card gains.pages
    rw [zero_add, Multiset.card_add] at grown
    rw [pdx_pgrounddown] at card
    unfold Pgdir.faultDemand
    split_ifs at card ⊢ <;> omega

/-- The outcome of a page fault at a page that is not present. -/
theorem access_absent (acc : Access) (whole : p.Whole) (had : p.pgdir = some pd)
    (owns : Owns L T m (pd.pages + R)) (hva : va < 4294967296)
    (absent : pd.lookup (vpn va) = none) :
    (∃ pd' q m', m.freelist.length = m'.freelist.length + pd.faultDemand va ∧
      access L acc va p m = .ok (.fault true, { p with pgdir := some pd' }, m') ∧
      ∀ v, pd'.lookup v = if v = vpn va then some (permUser.entry q) else pd.lookup v) ∨
    (m.freelist.length < pd.faultDemand va ∧ ∃ m', access L acc va p m = .ok (.fault false, p, m') ∧
      m'.freelist = m.freelist ∧ Owns L T m' (pd.pages + R)) := by
  have trapped : pd.userPte va acc.write = none := by
    rw [Pgdir.userPte, Pgdir.pte_eq_lookup _ hva, absent]
    rfl
  obtain ⟨ok, pd', m', handled, fault⟩ := trapPgflt_total whole
    (fun _ member => owns.free_inRam member) hva had (.inl absent)
  have traps : access L acc va p m = .ok (.fault ok, { p with pgdir := some pd' }, m') := by
    rw [access_trapped had trapped, handled]
    rfl
  cases ok with
  | true =>
    have taken := pageFaultHandler_takes hva owns fault
    cases pageFaultHandler_spec (pgrounddown_lt hva) (pgrounddown_aligned va) fault with
    | @mapped _ _ q _ lookup _ _ =>
      rw [vpn_pgrounddown] at lookup
      exact .inl ⟨pd', q, m', taken, traps, lookup⟩
  | false =>
    obtain ⟨rfl, list, few⟩ := pageFaultHandler_fails hva fault
    rw [← had] at traps
    refine .inr ⟨few, m', traps, list, ?_⟩
    cases pageFaultHandler_spec (pgrounddown_lt hva) (pgrounddown_aligned va) fault with
    | outOfMemory _ moves _ =>
      exact (moves.owns (owns.congr (zero_add _).symm)).congr (zero_add _)

theorem access_done {acc : Access} {o : Outcome} (ha : a < 4294967296)
    (done : access L acc a p m = .ok (o, p', m')) :
    MemOp.run L (.access acc a) p m = .ok (.access o, p', m') := by
  rw [MemOp.run, u32_of_lt ha, done]
  rfl

/-- A process touches a page that is not mapped. -/
theorem Kernel.step_fault (acc : Access) (hi : i < nproc)
    (state : (k.proc i).state = .runnable) (live : (k.proc i).killed = false)
    (whole : (k.proc i).Whole) (had : (k.proc i).pgdir = some pd)
    (owns : Owns L T k.mem (pd.pages + R)) (room : pd.faultDemand va ≤ k.mem.freelist.length)
    (hva : va < 4294967296) (hole : pd.lookup (vpn va) = none) :
    ∃ pd' m' p, k.Step L (i, .mem (.access acc va))
        ({ k with mem := m' }.setProc i { k.proc i with pgdir := some pd' }) ∧
      (∀ v, pd'.lookup v = if v = vpn va then some (permUser.entry p) else pd.lookup v) ∧
      k.mem.freelist.length = m'.freelist.length + pd.faultDemand va := by
  rcases access_absent acc whole had owns hva hole with ⟨pd', p, m', taken, traps, lookup⟩ | short
  · exact ⟨pd', m', p, Kernel.step_mem hi state live (access_done hva traps), lookup, taken⟩
  · omega

end RandomRepo.Xv6

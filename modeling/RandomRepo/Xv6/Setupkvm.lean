import RandomRepo.Xv6.Dealloc
import RandomRepo.Xv6.Mappages
import Mathlib.Order.Interval.Finset.Nat
import Mathlib.Algebra.BigOperators.Ring.Finset

/-!
# The kernel part of an address space

`setupkvm` either builds the directory whose entries are exactly those of `kmap`
(`kernelEntry`), taking one page for it and one for each of its 64 page tables,
or gives back whatever it took; the latter happens only with fewer than 65 free
pages.
-/

namespace RandomRepo.Xv6

variable {L : Layout} {pd pd' : Pgdir} {m m' : Kmem} {T R : Multiset Nat} {v i : Nat}

/-- The entry of page `v` in every page table. -/
def kernelEntry (L : Layout) (v : Nat) : Option Pte :=
  if kernPage ≤ v ∧ v < 581632 then
    -- kernel text and read-only data are not writable
    if 524544 ≤ v ∧ v < vpn L.data then some ⟨v - kernPage, false, false⟩
    else some ⟨v - kernPage, true, false⟩
  else if 1040384 ≤ v ∧ v < 1048576 then some ⟨v, true, false⟩
  else none

/-- Directory indices of the kernel's page tables. -/
def KernTable (i : Nat) : Prop := (512 ≤ i ∧ i < 568) ∨ (1016 ≤ i ∧ i < 1024)

instance (i : Nat) : Decidable (KernTable i) := by
  unfold KernTable
  infer_instance

/-- A directory with nothing but (part of) the kernel's mappings. -/
structure KernelPart (pd : Pgdir) : Prop where
  entry : ∀ v e, pd.lookup v = some e → kernPage ≤ v ∧ v < 1048576 ∧ e.u = false
  table : ∀ i, (pd.pde i).isSome → KernTable i

theorem KernelPart.stranded (kernel : KernelPart pd) : pd.stranded = 0 :=
  Pgdir.stranded_eq_zero fun v e _ mapped => (kernel.entry v e mapped).2.2

/-! ## Counting pages -/

/-- The number of page tables of a directory. -/
def Pgdir.tables (pd : Pgdir) : Nat :=
  ((Finset.range npdentries).filter fun i => (pd.pde i).isSome).card

theorem Pgdir.card_tabPages (pd : Pgdir) :
    (∑ i ∈ Finset.range npdentries, pd.tabPage i).card = pd.tables := by
  rw [Pgdir.tables, Finset.card_filter, Multiset.card_sum]
  refine Finset.sum_congr rfl fun i _ => ?_
  simp only [Pgdir.tabPage]
  cases pd.pde i <;> rfl

theorem KernelPart.card_pages (kernel : KernelPart pd) : pd.pages.card = 1 + pd.tables := by
  have leaves : ∑ v ∈ Finset.range vpages, pd.leafPage v = 0 := by
    refine Finset.sum_eq_zero fun v _ => ?_
    cases mapped : pd.lookup v with
    | none => exact Pgdir.leafPage_none mapped
    | some e =>
      obtain ⟨high, -, user⟩ := kernel.entry v e mapped
      refine Pgdir.leafPage_kernel mapped ?_
      rintro (low | flag)
      · omega
      · rw [user] at flag
        cases flag
  rw [Pgdir.pages, leaves, add_zero, Multiset.card_add, Pgdir.card_tabPages,
    Multiset.card_singleton]

/-- The kernel's page tables as a set of indices. -/
def kernTables : Finset Nat := Finset.Ico 512 568 ∪ Finset.Ico 1016 1024

theorem mem_kernTables : i ∈ kernTables ↔ KernTable i := by
  simp [kernTables, KernTable]

theorem card_kernTables : kernTables.card = 64 := by
  decide +kernel

theorem KernelPart.tables_subset (kernel : KernelPart pd) :
    ((Finset.range npdentries).filter fun i => (pd.pde i).isSome) ⊆ kernTables := by
  intro i hi
  exact mem_kernTables.mpr (kernel.table i (Finset.mem_filter.mp hi).2)

/-- A directory that still lacks a page table has at most 64 pages. -/
theorem KernelPart.card_pages_le (kernel : KernelPart pd) (hi : KernTable i)
    (absent : pd.pde i = none) : pd.pages.card ≤ 64 := by
  have missing : pd.tables ≤ (kernTables.erase i).card := by
    refine Finset.card_le_card fun j hj => Finset.mem_erase.mpr ⟨?_, kernel.tables_subset hj⟩
    rintro rfl
    simp [absent] at hj
  rw [Finset.card_erase_of_mem (mem_kernTables.mpr hi), card_kernTables] at missing
  rw [kernel.card_pages]
  omega

/-! ## One entry of `kmap` -/

/-- Number of pages a `kmap` entry covers. -/
def Kmap.pages (k : Kmap) : Nat := usub k.physEnd k.physStart / pgsize

structure Kmap.Wf (k : Kmap) : Prop where
  aligned : k.virt % 4096 = 0
  kernel : kernbase ≤ k.virt
  top : k.virt + k.pages * 4096 ≤ 4294967296
  whole : usub k.physEnd k.physStart = k.pages * 4096
  some_ : 0 < k.pages
  phys : k.physStart / 4096 + k.pages ≤ 1048576
  user : k.perm.u = false
  tables : ∀ i, vpn k.virt / 1024 ≤ i → i ≤ (vpn k.virt + (k.pages - 1)) / 1024 → KernTable i

/-- Page `v` is mapped by the entry. -/
def Kmap.Covers (k : Kmap) (v : Nat) : Prop := vpn k.virt ≤ v ∧ v < vpn k.virt + k.pages

instance (k : Kmap) (v : Nat) : Decidable (k.Covers v) := by
  unfold Kmap.Covers
  infer_instance

def Kmap.entry (k : Kmap) (v : Nat) : Pte :=
  k.perm.entry (k.physStart / pgsize + (v - vpn k.virt))

/-- `mappages` of a whole number of pages is its loop over them. -/
theorem mappages_kmap {k : Kmap} (wf : k.Wf) :
    mappages pd k.virt (usub k.physEnd k.physStart) (k.physStart / pgsize) k.perm m =
      mapLoop k.perm (k.pages - 1) k.virt (k.physStart / pgsize) pd m := by
  have aligned := wf.aligned
  have top := wf.top
  have some_ := wf.some_
  have down : pgrounddown k.virt = k.virt := by simp only [pgrounddown, pgsize]; omega
  have last : pgrounddown (usub (u32 (k.virt + k.pages * 4096)) 1) =
      k.virt + (k.pages - 1) * 4096 := by
    simp only [pgrounddown, usub, u32, pgsize]
    omega
  have steps : usub (k.virt + (k.pages - 1) * 4096) k.virt / pgsize = k.pages - 1 := by
    simp only [usub, u32, pgsize]
    omega
  simp only [mappages, wf.whole, down, last, steps]

theorem kernPage_le_vpn {k : Kmap} (wf : k.Wf) : kernPage ≤ vpn k.virt := by
  have kernel := wf.kernel
  simp only [kernPage, vpn, pgsize, kernbase] at *
  omega

theorem kmap_room {k : Kmap} (wf : k.Wf) : k.virt + (k.pages - 1) * 4096 < 4294967296 := by
  have top := wf.top
  have some_ := wf.some_
  omega

theorem kmap_fits {k : Kmap} (wf : k.Wf) : k.physStart / pgsize + (k.pages - 1) < 1048576 := by
  have phys := wf.phys
  have some_ := wf.some_
  simp only [pgsize]
  omega

/-- Mapping one `kmap` entry keeps a directory within the kernel part. -/
theorem MapLoop.kernelPart {k : Kmap} {ok : Bool} (wf : k.Wf) (kernel : KernelPart pd)
    (loop : MapLoop pd k.virt (k.pages - 1) (k.physStart / pgsize) k.perm ok pd' m') :
    KernelPart pd' := by
  have low := kernPage_le_vpn wf
  have top := wf.top
  have some_ := wf.some_
  refine ⟨fun v e mapped => ?_, fun i present => ?_⟩
  · rcases loop.entry v with same | ⟨hlow, hhigh, new⟩
    · exact kernel.entry v e (same ▸ mapped)
    · rw [mapped] at new
      cases new
      refine ⟨by omega, ?_, wf.user⟩
      simp only [vpn, pgsize] at *
      omega
  · rcases loop.isSome i present with old | ⟨hlow, hhigh⟩
    · exact kernel.table i old
    · exact wf.tables i hlow hhigh

theorem MapLoop.lookup_kmap {k : Kmap} (wf : k.Wf)
    (loop : MapLoop pd k.virt (k.pages - 1) (k.physStart / pgsize) k.perm true pd' m') (v : Nat) :
    pd'.lookup v = if k.Covers v then some (k.entry v) else pd.lookup v := by
  have some_ := wf.some_
  by_cases covers : k.Covers v
  · rw [if_pos covers]
    unfold Kmap.Covers at covers
    exact loop.all rfl v (by omega) (by omega)
  · rw [if_neg covers]
    unfold Kmap.Covers at covers
    rcases loop.entry v with same | ⟨hlow, hhigh, -⟩
    · exact same
    · omega

/-! ## The loop over `kmap` -/

/-- Lookups after the entries `ks` have been mapped over `base`. -/
def kmapLookup : List Kmap → (Nat → Option Pte) → Nat → Option Pte
  | [], base => base
  | k :: ks, base => kmapLookup ks fun v => if k.Covers v then some (k.entry v) else base v

theorem kmapLoop_some {ks : List Kmap} (wf : ∀ k ∈ ks, k.Wf) (kernel : KernelPart pd)
    (h : kmapLoop L ks pd m = .ok (some pd', m')) :
    KernelPart pd' ∧ pd'.lookup = kmapLookup ks pd.lookup ∧ Moves L m pd.pages m' pd'.pages ∧
      m'.data = m.data ∧ m'.oom = m.oom := by
  induction ks generalizing pd m with
  | nil =>
    cases h
    exact ⟨kernel, rfl, .refl _ _ _, rfl, rfl⟩
  | cons k ks ih =>
    have wfk := wf k List.mem_cons_self
    obtain ⟨⟨ok, pd₁, m₁⟩, first, rest⟩ := bind_ok_iff.mp h
    rw [mappages_kmap wfk] at first
    obtain ⟨loop, data⟩ := mapLoop_spec (kmap_room wfk) (kmap_fits wfk) first
    have moves := mapLoop_moves (L := L) (kmap_room wfk) (kernPage_le_vpn wfk) wfk.user
      (kmap_fits wfk) first
    cases ok with
    | false =>
      obtain ⟨m₂, -, impossible⟩ := bind_ok_iff.mp rest
      cases impossible
    | true =>
      obtain ⟨kernel', lookup, moves', data', oom⟩ :=
        ih (fun k hk => wf k (List.mem_cons_of_mem _ hk)) (loop.kernelPart wfk kernel) rest
      refine ⟨kernel', ?_, moves.trans moves', data'.trans data, oom.trans (mapLoop_oom first)⟩
      rw [lookup, kmapLookup]
      congr 1
      exact funext (loop.lookup_kmap wfk)

/-- A failed run gives everything back, and started with few pages. -/
theorem kmapLoop_none {ks : List Kmap} (wf : ∀ k ∈ ks, k.Wf) (kernel : KernelPart pd)
    (h : kmapLoop L ks pd m = .ok (none, m')) :
    Moves L m pd.pages m' 0 ∧
      ∀ T R, Owns L T m (pd.pages + R) → m.freelist.length + pd.pages.card ≤ 64 := by
  induction ks generalizing pd m with
  | nil => cases h
  | cons k ks ih =>
    have wfk := wf k List.mem_cons_self
    obtain ⟨⟨ok, pd₁, m₁⟩, first, rest⟩ := bind_ok_iff.mp h
    rw [mappages_kmap wfk] at first
    obtain ⟨loop, -⟩ := mapLoop_spec (kmap_room wfk) (kmap_fits wfk) first
    have moves := mapLoop_moves (L := L) (kmap_room wfk) (kernPage_le_vpn wfk) wfk.user
      (kmap_fits wfk) first
    have kernel₁ := loop.kernelPart wfk kernel
    have count : ∀ T R, Owns L T m (pd.pages + R) →
        m.freelist.length + pd.pages.card = m₁.freelist.length + pd₁.pages.card := by
      intro T R owns
      have before := congrArg Multiset.card owns.ledger.balance
      have after := congrArg Multiset.card (moves.owns owns).ledger.balance
      simp only [Multiset.card_add, Multiset.coe_card] at before after
      omega
    cases ok with
    | false =>
      obtain ⟨m₂, free, last⟩ := bind_ok_iff.mp rest
      cases last
      refine ⟨moves.trans ((freevm_moves free).congr rfl kernel₁.stranded), ?_⟩
      intro T R owns
      obtain ⟨empty, i, low, high, absent⟩ := loop.fail rfl
      have small := kernel₁.card_pages_le (wfk.tables i low high) absent
      rw [count T R owns, empty]
      simpa using small
    | true =>
      obtain ⟨moves', small⟩ :=
        ih (fun k hk => wf k (List.mem_cons_of_mem _ hk)) kernel₁ rest
      refine ⟨moves.trans moves', fun T R owns => ?_⟩
      rw [count T R owns]
      exact small T R (moves.owns owns)

/-- Entries that map different pages are mapped without a panic. -/
theorem kmapLoop_total {ks : List Kmap} (wf : ∀ k ∈ ks, k.Wf)
    (apart : ks.Pairwise fun j k => ∀ v, j.Covers v → ¬ k.Covers v)
    (fresh : ∀ k ∈ ks, ∀ v, k.Covers v → pd.lookup v = none)
    (owns : Owns L T m (pd.pages + R)) :
    ∃ r m', kmapLoop L ks pd m = .ok (r, m') := by
  induction ks generalizing pd m with
  | nil => exact ⟨_, _, rfl⟩
  | cons k ks ih =>
    have wfk := wf k List.mem_cons_self
    have some_ := wfk.some_
    obtain ⟨ok, pd₁, m₁, first⟩ := mapLoop_total k.perm m (kmap_room wfk) (kmap_fits wfk)
      (fun v low high => fresh k List.mem_cons_self v (by unfold Kmap.Covers; omega))
    obtain ⟨loop, -⟩ := mapLoop_spec (kmap_room wfk) (kmap_fits wfk) first
    have moves := mapLoop_moves (L := L) (kmap_room wfk) (kernPage_le_vpn wfk) wfk.user
      (kmap_fits wfk) first
    cases ok with
    | false =>
      obtain ⟨m', free⟩ := freevm_total (moves.owns owns)
      exact ⟨none, m', bind_ok_iff.mpr ⟨_, (mappages_kmap wfk).trans first,
        bind_ok_iff.mpr ⟨m', free, rfl⟩⟩⟩
    | true =>
      have fresh' : ∀ k' ∈ ks, ∀ v, k'.Covers v → pd₁.lookup v = none := by
        intro k' hk' v covers
        have other : ¬ k.Covers v := fun here =>
          (List.pairwise_cons.mp apart).1 k' hk' v here covers
        rw [loop.lookup_kmap wfk, if_neg other]
        exact fresh k' (List.mem_cons_of_mem _ hk') v covers
      obtain ⟨r, m', rest⟩ := ih (fun k hk => wf k (List.mem_cons_of_mem _ hk))
        (List.pairwise_cons.mp apart).2 fresh' (moves.owns owns)
      exact ⟨r, m', bind_ok_iff.mpr ⟨_, (mappages_kmap wfk).trans first, rest⟩⟩

/-! ## `setupkvm` -/

theorem Layout.data_bounds (L : Layout) :
    0x80101000 ≤ L.data ∧ L.data ≤ 0x80380000 ∧ L.data % 4096 = 0 := by
  have gt := L.data_gt
  have aligned := L.data_aligned
  have le := L.data_le
  have top := L.end_le
  simp only [kernlink, kernbase, extmem, pgsize] at *
  omega

theorem v2p_data (L : Layout) : v2p L.data = L.data - 0x80000000 := by
  obtain ⟨low, high, -⟩ := L.data_bounds
  simp only [v2p, usub, u32, kernbase]
  omega

theorem kmap_wf (L : Layout) : ∀ k ∈ kmap L, k.Wf := by
  obtain ⟨low, high, aligned⟩ := L.data_bounds
  intro k hk
  simp only [kmap, List.mem_cons, List.not_mem_nil, or_false] at hk
  rcases hk with rfl | rfl | rfl | rfl
  all_goals
    constructor
    all_goals
      simp only [Kmap.pages, KernTable, v2p, usub, u32, vpn, pgsize, kernbase, kernlink,
        extmem, phystop, devspace] at *
    all_goals omega

theorem kmap_apart (L : Layout) :
    (kmap L).Pairwise fun j k => ∀ v, j.Covers v → ¬ k.Covers v := by
  obtain ⟨low, high, aligned⟩ := L.data_bounds
  have data := v2p_data L
  simp only [kmap, List.pairwise_cons, List.mem_cons, List.not_mem_nil, or_false,
    forall_eq_or_imp, forall_eq, Kmap.Covers, Kmap.pages, data]
  simp only [v2p, usub, u32, vpn, pgsize, kernbase, kernlink, extmem, phystop, devspace]
  refine ⟨⟨?_, ?_, ?_⟩, ⟨?_, ?_⟩, ?_, ?_⟩
  all_goals first | omega | simp

theorem kmapLookup_kmap (L : Layout) (v : Nat) :
    kmapLookup (kmap L) (fun _ => none) v = kernelEntry L v := by
  obtain ⟨low, high, aligned⟩ := L.data_bounds
  have data := v2p_data L
  have io : Kmap.Covers ⟨kernbase, 0, extmem, ⟨true, false⟩⟩ v ↔ 524288 ≤ v ∧ v < 524544 := by
    simp only [Kmap.Covers, Kmap.pages, usub, u32, vpn, pgsize, kernbase, extmem]
  have text : Kmap.Covers ⟨kernlink, v2p kernlink, v2p L.data, ⟨false, false⟩⟩ v ↔
      524544 ≤ v ∧ v < L.data / 4096 := by
    simp only [Kmap.Covers, Kmap.pages, data]
    simp only [v2p, usub, u32, vpn, pgsize, kernbase, kernlink, extmem]
    omega
  have ram : Kmap.Covers ⟨L.data, v2p L.data, phystop, ⟨true, false⟩⟩ v ↔
      L.data / 4096 ≤ v ∧ v < 581632 := by
    simp only [Kmap.Covers, Kmap.pages, data]
    simp only [usub, u32, vpn, pgsize, phystop]
    omega
  have dev : Kmap.Covers ⟨devspace, devspace, 0, ⟨true, false⟩⟩ v ↔
      1040384 ≤ v ∧ v < 1048576 := by
    simp only [Kmap.Covers, Kmap.pages, usub, u32, vpn, pgsize, devspace]
  have kern : kernPage = 524288 := rfl
  have vdata : vpn L.data = L.data / 4096 := rfl
  have vbase : vpn kernbase = 524288 := by decide
  have vlink : vpn kernlink = 524544 := by decide
  have plink : v2p kernlink / pgsize = 256 := by decide
  have vdev : vpn devspace = 1040384 := by decide
  have pdev : devspace / pgsize = 1040384 := by decide
  have pdata : v2p L.data / pgsize = L.data / 4096 - 524288 := by
    simp only [data, pgsize]
    omega
  simp only [kmap, kmapLookup, kernelEntry, io, text, ram, dev, Kmap.entry, Perm.entry]
  rw [vdata, vbase, vlink, plink, vdev, pdev, pdata, kern, Nat.zero_div]
  -- in each region of the address space every condition is decided
  have region : v < 524288 ∨ (524288 ≤ v ∧ v < 524544) ∨ (524544 ≤ v ∧ v < L.data / 4096) ∨
      (L.data / 4096 ≤ v ∧ v < 581632) ∨ (581632 ≤ v ∧ v < 1040384) ∨
      (1040384 ≤ v ∧ v < 1048576) ∨ 1048576 ≤ v := by
    omega
  rcases region with r | r | r | r | r | r | r <;>
    (repeat' first | rw [if_pos (by omega)] | rw [if_neg (by omega)]) <;>
    (try simp only [Option.some.injEq, Pte.mk.injEq, and_true]) <;>
    omega

/-- The fresh directory of `setupkvm`. -/
theorem kernelPart_empty (p : Nat) : KernelPart ⟨p, fun _ => none⟩ :=
  ⟨fun v e mapped => by simp [Pgdir.lookup] at mapped, fun i present => by simp at present⟩

theorem pages_empty (p : Nat) : Pgdir.pages ⟨p, fun _ => none⟩ = {p} := by
  have tabs : ∑ i ∈ Finset.range npdentries, Pgdir.tabPage ⟨p, fun _ => none⟩ i = 0 :=
    Finset.sum_eq_zero fun i _ => rfl
  have leaves : ∑ v ∈ Finset.range vpages, Pgdir.leafPage ⟨p, fun _ => none⟩ v = 0 :=
    Finset.sum_eq_zero fun v _ => rfl
  rw [Pgdir.pages, tabs, leaves, add_zero, add_zero]

/-- A directory with exactly the kernel's mappings. -/
structure KernelHalf (L : Layout) (pd : Pgdir) : Prop where
  lookup : ∀ v, pd.lookup v = kernelEntry L v
  part : KernelPart pd

theorem kmapLoop_start {r : Option Pgdir} (h : setupkvm L m = .ok (r, m')) :
    (r = none ∧ m.freelist = [] ∧ kalloc m = (none, m')) ∨
      ∃ p m₁, kalloc m = (some p, m₁) ∧
        kmapLoop L (kmap L) ⟨p, fun _ => none⟩ m₁ = .ok (r, m') := by
  unfold setupkvm at h
  rcases page : kalloc m with ⟨_ | p, m₁⟩
  · simp only [page] at h
    cases h
    rcases kalloc_cases page with ⟨empty, -, -⟩ | ⟨p, rest, -, impossible, -⟩
    · exact .inl ⟨rfl, empty, rfl⟩
    · cases impossible
  · simp only [page] at h
    rw [if_neg (by decide)] at h
    exact .inr ⟨p, m₁, rfl, h⟩

theorem setupkvm_some (h : setupkvm L m = .ok (some pd, m')) :
    KernelHalf L pd ∧ Moves L m 0 m' pd.pages ∧ m'.data = m.data ∧ m'.oom = m.oom := by
  rcases kmapLoop_start h with ⟨impossible, -⟩ | ⟨p, m₁, page, loop⟩
  · cases impossible
  · obtain ⟨part, lookup, moves, data, oom⟩ :=
      kmapLoop_some (kmap_wf L) (kernelPart_empty p) loop
    refine ⟨⟨fun v => ?_, part⟩, ?_, data.trans (kalloc_data page), oom.trans (kalloc_some_oom page)⟩
    · rw [lookup]
      exact kmapLookup_kmap L v
    · exact (kalloc_some_moves page).trans (moves.congr (pages_empty p) rfl)

theorem setupkvm_none (h : setupkvm L m = .ok (none, m')) :
    Moves L m 0 m' 0 ∧ ∀ T R, Owns L T m R → m.freelist.length ≤ 64 := by
  rcases kmapLoop_start h with ⟨-, empty, page⟩ | ⟨p, m₁, page, loop⟩
  · exact ⟨kalloc_none_moves page, fun _ _ _ => by simp [empty]⟩
  · obtain ⟨moves, small⟩ := kmapLoop_none (kmap_wf L) (kernelPart_empty p) loop
    rw [pages_empty] at moves small
    refine ⟨(kalloc_some_moves page).trans moves, fun T R owns => ?_⟩
    have owns₁ := (kalloc_some_moves page).owns (owns.congr (zero_add R).symm)
    have few := small T R owns₁
    rcases kalloc_cases page with ⟨-, impossible, -⟩ | ⟨q, rest, free, -, rfl⟩
    · cases impossible
    · simpa [free] using few

theorem setupkvm_total (owns : Owns L T m R) : ∃ r m', setupkvm L m = .ok (r, m') := by
  unfold setupkvm
  rcases page : kalloc m with ⟨_ | p, m₁⟩
  · exact ⟨_, _, rfl⟩
  · dsimp only
    rw [if_neg (by decide)]
    have owns₁ := (kalloc_some_moves page).owns (owns.congr (zero_add R).symm)
    exact kmapLoop_total (kmap_wf L) (kmap_apart L) (fun _ _ _ _ => rfl)
      (owns₁.congr (by rw [pages_empty]))

/-- The page tables are exactly the kernel's. -/
theorem KernelHalf.isSome_iff (half : KernelHalf L pd) (i : Nat) :
    (pd.pde i).isSome ↔ KernTable i := by
  refine ⟨half.part.table i, fun kern => ?_⟩
  unfold KernTable at kern
  -- the first page of the table's region is mapped
  have mapped : (pd.lookup (i * 1024)).isSome := by
    rw [half.lookup, kernelEntry]
    have kp : kernPage = 524288 := rfl
    by_cases ram : kernPage ≤ i * 1024 ∧ i * 1024 < 581632
    · rw [if_pos ram]
      split_ifs <;> rfl
    · rw [if_neg ram, if_pos (by omega)]
      rfl
  unfold Pgdir.lookup at mapped
  rw [Nat.mul_div_cancel _ (by decide)] at mapped
  cases table : pd.pde i with
  | some t => rfl
  | none => rw [table] at mapped; cases mapped

theorem KernelHalf.card_pages (half : KernelHalf L pd) : pd.pages.card = 65 := by
  have same : ((Finset.range npdentries).filter fun i => (pd.pde i).isSome) = kernTables := by
    refine Finset.Subset.antisymm half.part.tables_subset fun i hi => ?_
    have kern := mem_kernTables.mp hi
    refine Finset.mem_filter.mpr ⟨Finset.mem_range.mpr ?_, (half.isSome_iff i).mpr kern⟩
    rw [npdentries_eq]
    unfold KernTable at kern
    omega
  rw [half.part.card_pages, Pgdir.tables, same, card_kernTables]

end RandomRepo.Xv6

import RandomRepo.Xv6.KernelInv

/-!
# Starting the kernel

The part of `main` that hands out memory: `kinit1`, `kvmalloc`, `startothers`,
`kinit2` and `userinit`.  On every machine it ends in a state with one process,
in which every page the allocator was given is accounted for.
-/

namespace RandomRepo.Xv6

def ncpuMax : Nat := 8

/-- What the kernel finds: the contents of memory, the number of processors and the code of
the first process, which `inituvm` wants to be less than a page. -/
structure Machine where
  data : Nat → PageData
  ncpu : Nat
  init : List UInt8
  ncpu_le : ncpu ≤ ncpuMax
  init_lt : init.length < pgsize

/-- A machine with one processor and an empty first program. -/
def blankMachine : Machine := ⟨fun _ _ => 0, 1, [], by decide, by decide⟩

def kinit1 (L : Layout) (m : Kmem) : Except Halt Kmem :=
  freerange L L.end_ (p2v (4 * 1024 * 1024)) m

def kinit2 (L : Layout) (m : Kmem) : Except Halt Kmem :=
  freerange L (p2v (4 * 1024 * 1024)) (p2v phystop) m

/-- The stacks of `n` processors; the result of `kalloc` is not tested. -/
def startothers : Nat → Kmem → Except Halt (List Nat × Kmem)
  | 0, m => .ok ([], m)
  | n + 1, m =>
    match kalloc m with
    | (none, _) => .error .null
    | (some s, m) => do
      let (ss, m) ← startothers n m
      .ok (s :: ss, m)

/-- "initcode" -/
def initcodeName : List UInt8 := [105, 110, 105, 116, 99, 111, 100, 101]

def userinit (L : Layout) (init : List UInt8) (k : Kernel) : Except Halt Kernel :=
  match allocproc k with
  | (none, _) => .error .null
  | (some i, k) => do
    let (d, m) ← setupkvm L k.mem
    match d with
    | none => .error (.panic .userinitOutOfMemory)
    | some d => do
      let (d, m) ← inituvm d init m
      let p := { k.proc i with
        pgdir := some d, sz := pgsize, tf := ⟨0, pgsize, 0⟩, name := initcodeName,
        state := .runnable }
      .ok ({ k with mem := m, initproc := some i }.setProc i p)

/-- A slot of the process table in the zeroed data of the kernel. -/
def emptyProc : Proc :=
  ⟨0, none, none, .unused, 0, none, ⟨0, 0, 0⟩, false, fun _ => none, []⟩

def emptyFiles : Files := ⟨fun _ => ⟨.fdNone, 0, false, false, 0, 0⟩, fun _ => none⟩

/-- The calls of `main` that allocate memory; `kvmalloc` does not test its result either. -/
def boot (L : Layout) (M : Machine) : Except Halt Kernel := do
  let m ← kinit1 L ⟨[], M.data, false, false⟩
  let (kpgdir, m) ← setupkvm L m
  match kpgdir with
  | none => .error .null
  | some kpgdir => do
    let (stacks_, m) ← startothers (M.ncpu - 1) m
    let m ← kinit2 L m
    userinit L M.init ⟨m, kpgdir, stacks_, fun _ => emptyProc, none, 1, emptyFiles⟩

variable {L : Layout} {M : Machine} {m m' : Kmem} {T S : Multiset Nat} {a n : Nat}

/-! ## The pages the allocator is given -/

/-- First page above the kernel. -/
def Layout.firstPage (L : Layout) : Nat := npages L.end_ - kernPage

/-- The pages handed to the allocator at boot. -/
def bootPages (L : Layout) : Multiset Nat :=
  (List.range' L.firstPage (57344 - L.firstPage) : List Nat)

theorem Layout.firstPage_bounds (L : Layout) : 256 < L.firstPage ∧ L.firstPage ≤ 896 := by
  have above := L.data_gt
  have order := L.data_le
  have below := L.end_le
  simp only [kernlink, kernbase, extmem] at above below
  simp only [firstPage, npages, kernPage]
  omega

theorem Layout.inRam_of_range (h : L.firstPage ≤ a) (top : a < 57344) : L.InRam a := by
  have below := L.end_le
  have above := L.data_gt
  have order := L.data_le
  simp only [kernlink, kernbase, extmem] at above below
  simp only [firstPage, npages, kernPage] at h
  simp only [Layout.InRam, kva, p2v, u32, pgsize, kernbase, phystop]
  omega

/-- `freerange` over whole pages, from the last one of which it frees the last. -/
theorem freeLoop_spec (top : a + n ≤ 57344) (ram : ∀ j, a ≤ j → j < a + n → L.InRam j) :
    ∃ m', freeLoop L ((524288 + (a + n)) * 4096) ((524288 + a) * 4096) m = .ok m' ∧
      m'.freelist = (List.range' a n).reverse ++ m.freelist ∧ m'.oom = m.oom ∧
      (m.twice = false → (∀ j, a ≤ j → j ∉ m.freelist) → m'.twice = false) := by
  induction n generalizing a m with
  | zero =>
    refine ⟨m, ?_, rfl, rfl, fun once _ => once⟩
    rw [freeLoop, if_neg]
    simp only [pgsize]
    omega
  | succ n ih =>
    have page : v2p ((524288 + a) * 4096) / pgsize = a := by
      simp only [v2p, usub, u32, kernbase, pgsize]
      omega
    have next : (524288 + a) * 4096 + pgsize = (524288 + (a + 1)) * 4096 := by
      simp only [pgsize]
      omega
    have last : (524288 + (a + (n + 1))) * 4096 = (524288 + (a + 1 + n)) * 4096 := by omega
    have free := kfree_ok (m := m) (ram a (Nat.le_refl a) (by omega))
    obtain ⟨m', loop, list, oom, once⟩ := ih (a := a + 1)
      (m := ⟨a :: m.freelist, Function.update m.data a fun _ => 1, m.oom,
        m.twice || m.freelist.contains a⟩) (by omega)
      (fun j low high => ram j (by omega) (by omega))
    refine ⟨m', ?_, ?_, oom, fun start fresh => once ?_ ?_⟩
    · rw [freeLoop, if_pos (by simp only [pgsize]; omega), page, free, ok_bind, next, last]
      exact loop
    · rw [list, List.range'_succ, List.reverse_cons, List.append_assoc]
      rfl
    · have notFree := fresh a (Nat.le_refl a)
      simpa [start] using notFree
    · intro j low member
      rcases List.mem_cons.mp member with rfl | old
      · omega
      · exact fresh j (by omega) old

/-- Handing new pages to the allocator. -/
theorem freeLoop_owns (owns : Owns L T m S) (top : a + n ≤ 57344)
    (ram : ∀ j, a ≤ j → j < a + n → L.InRam j) (fresh : ∀ p ∈ T, p < a) :
    ∃ m', freeLoop L ((524288 + (a + n)) * 4096) ((524288 + a) * 4096) m = .ok m' ∧
      Owns L (T + (List.range' a n : List Nat)) m' S ∧ m'.oom = m.oom := by
  obtain ⟨m', loop, list, oom, once⟩ := freeLoop_spec (m := m) top ram
  refine ⟨m', loop, ⟨⟨?_, ?_⟩, fun p hp => ?_, once owns.once fun j low member => ?_⟩, oom⟩
  · rw [list, ← Multiset.coe_add, Multiset.coe_reverse, add_assoc, owns.ledger.balance, add_comm]
  · refine Multiset.nodup_add.mpr ⟨owns.ledger.nodup, ?_, ?_⟩
    · exact Multiset.coe_nodup.mpr List.nodup_range'
    · refine Multiset.disjoint_left.mpr ?_
      intro p hp new
      have := fresh p hp
      have := (List.mem_range'_1.mp (Multiset.mem_coe.mp new)).1
      omega
  · rcases Multiset.mem_add.mp hp with old | new
    · exact owns.ram p old
    · obtain ⟨low, high⟩ := List.mem_range'_1.mp (Multiset.mem_coe.mp new)
      exact ram p low high
  · have := fresh j (owns.ledger.mem_of_free (Multiset.mem_coe.mpr member))
    omega

theorem kinit1_owns (L : Layout) (data : Nat → PageData) :
    ∃ m, kinit1 L ⟨[], data, false, false⟩ = .ok m ∧
      Owns L (List.range' L.firstPage (1024 - L.firstPage) : List Nat) m 0 ∧ m.oom = false := by
  obtain ⟨low, high⟩ := L.firstPage_bounds
  have nothing : Owns L 0 ⟨[], data, false, false⟩ 0 :=
    ⟨⟨rfl, Multiset.nodup_zero⟩, fun p hp => absurd hp (Multiset.notMem_zero p), rfl⟩
  have first : pgroundup L.end_ = (524288 + L.firstPage) * 4096 := by
    have below := L.end_le
    have above := L.data_gt
    have order := L.data_le
    simp only [kernlink, kernbase, extmem] at above below
    rw [pgroundup_eq (by omega)]
    simp only [Layout.firstPage, npages, kernPage]
    omega
  have last : p2v (4 * 1024 * 1024) = (524288 + (L.firstPage + (1024 - L.firstPage))) * 4096 := by
    simp only [p2v, u32, kernbase]
    omega
  obtain ⟨m, loop, owns, oom⟩ := freeLoop_owns nothing (a := L.firstPage) (n := 1024 - L.firstPage)
    (by omega) (fun j low high => L.inRam_of_range low (by omega)) (by simp)
  rw [zero_add] at owns
  exact ⟨m, by rw [kinit1, freerange, first, last]; exact loop, owns, oom⟩

theorem kinit2_owns (owns : Owns L (List.range' L.firstPage (1024 - L.firstPage) : List Nat) m S) :
    ∃ m', kinit2 L m = .ok m' ∧ Owns L (bootPages L) m' S ∧ m'.oom = m.oom := by
  obtain ⟨low, high⟩ := L.firstPage_bounds
  obtain ⟨m', loop, owns', oom⟩ := freeLoop_owns owns (a := 1024) (n := 56320) (by decide)
    (fun j low' high' => L.inRam_of_range (by omega) (by omega)) (fun p hp => by
      have := List.mem_range'_1.mp (Multiset.mem_coe.mp hp)
      omega)
  refine ⟨m', loop, ?_, oom⟩
  rw [Multiset.coe_add] at owns'
  have joined : List.range' L.firstPage (1024 - L.firstPage) ++ List.range' 1024 56320 =
      List.range' L.firstPage (57344 - L.firstPage) := by
    have := List.range'_append_1 (s := L.firstPage) (m := 1024 - L.firstPage) (n := 56320)
    rw [show L.firstPage + (1024 - L.firstPage) = 1024 by omega] at this
    rw [this, show 1024 - L.firstPage + 56320 = 57344 - L.firstPage by omega]
  rw [joined] at owns'
  exact owns'

/-! ## The state after `main` -/

theorem setupkvm_room (owns : Owns L T m S) (room : 65 ≤ m.freelist.length) :
    ∃ pd m', setupkvm L m = .ok (some pd, m') ∧ KernelHalf L pd ∧ Owns L T m' (pd.pages + S) ∧
      m'.freelist.length + 65 = m.freelist.length ∧ m'.oom = m.oom := by
  obtain ⟨r, m', setup⟩ := setupkvm_total owns
  cases r with
  | none =>
    have := (setupkvm_none setup).2 T S owns
    omega
  | some pd =>
    obtain ⟨half, moves, -, oom⟩ := setupkvm_some setup
    have owns' := moves.owns (owns.congr (zero_add S).symm)
    refine ⟨pd, m', setup, half, owns', ?_, oom⟩
    have before := owns.length_add
    have after := owns'.length_add
    rw [Multiset.card_add, half.card_pages] at after
    omega

theorem kalloc_room (owns : Owns L T m S) (room : 0 < m.freelist.length) :
    ∃ p m', kalloc m = (some p, m') ∧ Owns L T m' ({p} + S) ∧
      m'.freelist.length + 1 = m.freelist.length ∧ m'.oom = m.oom := by
  rcases page : kalloc m with ⟨_ | p, m'⟩
  · rcases kalloc_cases page with ⟨empty, -⟩ | ⟨p, rest, -, impossible, -⟩
    · rw [empty] at room
      exact absurd room (Nat.lt_irrefl 0)
    · cases impossible
  · exact ⟨p, m', rfl, (kalloc_some_moves page).owns (owns.congr (zero_add S).symm),
      (kalloc_length page).symm, kalloc_some_oom page⟩

theorem startothers_room (owns : Owns L T m S) (room : n ≤ m.freelist.length) :
    ∃ ss m', startothers n m = .ok (ss, m') ∧ Owns L T m' ((ss : Multiset Nat) + S) ∧
      m'.freelist.length + n = m.freelist.length ∧ m'.oom = m.oom := by
  induction n generalizing m S with
  | zero => exact ⟨[], m, rfl, owns.congr (zero_add S).symm, rfl, rfl⟩
  | succ n ih =>
    obtain ⟨p, m₁, page, owns₁, less, oom₁⟩ := kalloc_room owns (by omega)
    obtain ⟨ss, m', rest, owns', left, oom⟩ := ih owns₁ (by omega)
    refine ⟨p :: ss, m', ?_, owns'.congr ?_, by omega, oom.trans oom₁⟩
    · rw [startothers, page]
      dsimp only
      rw [rest]
      rfl
    · rw [← Multiset.cons_coe, ← Multiset.singleton_add, add_left_comm, add_assoc]

/-- The new page is the only one of the process. -/
theorem inituvm_room {pd : Pgdir} {init : List UInt8} (half : KernelHalf L pd)
    (owns : Owns L T m (pd.pages + S)) (room : 2 ≤ m.freelist.length)
    (small : init.length < pgsize) :
    ∃ pd' m' p, inituvm pd init m = .ok (pd', m') ∧ Owns L T m' (pd'.pages + S) ∧
      m.freelist.length ≤ m'.freelist.length + 2 ∧ m'.oom = m.oom ∧
      ∀ v, pd'.lookup v = if v = 0 then some (permUser.entry p) else kernelEntry L v := by
  obtain ⟨p, m₁, page, -, less, -⟩ := kalloc_room owns (by omega)
  have free : pd.lookup (vpn 0) = none := by
    rw [half.lookup]
    exact kernelEntry_user (by decide)
  obtain ⟨ok, pd', m₂, map⟩ := mapPage_total p permUser (m₁.memset p 0) (by decide) free
  cases ok with
  | false =>
    obtain ⟨-, -, empty, -⟩ := mapPage_new_fail page (memset_moves (L := L) 0) (by decide) map
    have : m₁.freelist.length = 0 := List.length_eq_zero_iff.mpr empty
    omega
  | true =>
    obtain ⟨fresh, gains, -⟩ := mapPage_new page (memset_moves (L := L) 0) (by decide)
      (owned_user _ p) map
    obtain ⟨oom, left⟩ := mapPage_new_room page (memset_moves (L := L) 0) (by decide)
      (owned_user _ p) rfl map owns
    have owns₂ := gains.moved.owns (owns.congr (by rw [zero_add]))
    have lookup := mapPage_lookup (by decide) map
    have mapped : p ∈ pd'.pages := by
      have here : pd'.lookup 0 = some (permUser.entry p) := by rw [lookup, if_pos (by decide)]
      have := Pgdir.leaf_mem_pages (by rw [vpages_eq]; decide) here (owned_user 0 p)
      exact this
    obtain ⟨rest, split⟩ := Multiset.exists_cons_of_mem mapped
    rw [← Multiset.singleton_add] at split
    refine ⟨pd', m₂.write p 0 init, p, ?_, ?_, left, oom, fun v => ?_⟩
    · rw [inituvm, if_neg (by omega), page]
      dsimp only
      rw [mappages_one (by decide) (by decide), map]
      rfl
    · rw [split, add_assoc] at owns₂ ⊢
      exact (write_moves 0 init).owns owns₂
    · rw [lookup, half.lookup]
      rfl

/-- What `main` has set up when the first process is ready to run. -/
structure Booted (L : Layout) (k : Kernel) : Prop where
  owns : Owns L (bootPages L) k.mem k.held
  files : k.files = emptyFiles
  initproc : k.initproc = some 0
  others : ∀ j, j ≠ 0 → k.proc j = emptyProc
  sz : (k.proc 0).sz = pgsize
  state : (k.proc 0).state = .runnable
  killed : (k.proc 0).killed = false
  ofile : (k.proc 0).ofile = fun _ => none
  stack : (k.proc 0).kstack.isSome
  dir : ∃ pd p, (k.proc 0).pgdir = some pd ∧
    ∀ v, pd.lookup v = if v = 0 then some (permUser.entry p) else kernelEntry L v
  room : 50000 ≤ k.mem.freelist.length
  oom : k.mem.oom = false

theorem bootPages_card (L : Layout) : (bootPages L).card = 57344 - L.firstPage := by
  rw [bootPages, Multiset.coe_card, List.length_range']

theorem emptyFiles_pages : emptyFiles.pages = 0 := by
  rw [Files.pages]
  exact Finset.sum_eq_zero fun p _ => rfl

theorem allocproc_empty {k : Kernel} {p : Nat} (empty : ∀ j, k.proc j = emptyProc)
    (page : kalloc k.mem = (some p, m')) :
    allocproc k = (some 0, { k with mem := m', nextpid := k.nextpid + 1 }.setProc 0
      { emptyProc with pid := k.nextpid, kstack := some p, state := .embryo }) := by
  have found : (List.range nproc).find? (fun i => decide ((k.proc i).state = .unused)) =
      some 0 := by
    simp only [empty]
    rfl
  unfold allocproc
  rw [found]
  dsimp only
  rw [page, empty]

theorem emptyProc_pages : emptyProc.pages = 0 := rfl

/-- The process `userinit` makes. -/
def firstProc (pid s : Nat) (pd : Pgdir) : Proc :=
  { emptyProc with
    pid := pid, kstack := some s, pgdir := some pd, sz := pgsize, tf := ⟨0, pgsize, 0⟩,
    name := initcodeName, state := .runnable }

theorem userinit_spec {k : Kernel} {init : List UInt8} (empty : ∀ j, k.proc j = emptyProc)
    (files : k.files = emptyFiles)
    (owns : Owns L (bootPages L) k.mem (k.kpgdir.pages + k.cpuStacks))
    (room : 50100 ≤ k.mem.freelist.length) (fine : k.mem.oom = false)
    (small : init.length < pgsize) :
    ∃ k', userinit L init k = .ok k' ∧ Booted L k' := by
  obtain ⟨s, m₁, page, owns₁, less, oom₁⟩ := kalloc_room owns (by omega)
  obtain ⟨pd, m₂, setup, half, owns₂, left, oom₂⟩ := setupkvm_room owns₁ (by omega)
  obtain ⟨pd', m₃, p, user, owns₃, left', oom₃, lookup⟩ :=
    inituvm_room half owns₂ (by omega) small
  let first := firstProc k.nextpid s pd'
  let k' := { k with mem := m₃, nextpid := k.nextpid + 1, initproc := some 0 }.setProc 0 first
  have result : userinit L init k = .ok k' := by
    have new := allocproc_empty empty page
    rw [userinit, new]
    dsimp only [Kernel.setProc]
    rw [setup, ok_bind]
    dsimp only
    rw [user, ok_bind]
    dsimp only [Kernel.setProc]
    rw [Function.update_self, Function.update_idem]
    rfl
  have here : k'.proc 0 = first := Kernel.setProc_self _ _ _
  obtain ⟨rest, split, after⟩ := k.held_split (n := 0) (by decide)
  have alone : rest = k.kpgdir.pages + k.cpuStacks := by
    rw [empty, emptyProc_pages, zero_add] at split
    rw [← split, Kernel.held, files, emptyFiles_pages, add_zero]
    simp only [empty, emptyProc_pages, Finset.sum_const_zero, add_zero]
  refine ⟨k', result, ⟨?_, files, rfl, fun j hj => ?_, ?_, ?_, ?_, ?_, ?_, ?_, ?_, ?_⟩⟩
  · refine owns₃.congr ?_
    have total : first.pages + rest = k'.held := after _ first rfl rfl rfl rfl
    rw [← total, alone, ← add_assoc]
    exact congrArg (· + _) (add_comm _ _)
  · exact (Kernel.setProc_ne _ hj _).trans (empty j)
  · rw [here]; rfl
  · rw [here]; rfl
  · rw [here]; rfl
  · rw [here]; rfl
  · rw [here]; rfl
  · exact ⟨pd', p, by rw [here]; rfl, lookup⟩
  · show 50000 ≤ m₃.freelist.length
    omega
  · show m₃.oom = false
    rw [oom₃, oom₂, oom₁, fine]

/-- The kernel starts on every machine. -/
theorem boot_spec (L : Layout) (M : Machine) : ∃ k, boot L M = .ok k ∧ Booted L k := by
  obtain ⟨low, high⟩ := L.firstPage_bounds
  obtain ⟨m₁, early, owns₁, oom₁⟩ := kinit1_owns L M.data
  have count₁ := owns₁.length_add
  rw [Multiset.coe_card, List.length_range', Multiset.card_zero] at count₁
  obtain ⟨pd, m₂, setup, half, owns₂, left₂, oom₂⟩ := setupkvm_room owns₁ (by omega)
  have ncpu := M.ncpu_le
  simp only [ncpuMax] at ncpu
  obtain ⟨ss, m₃, others, owns₃, left₃, oom₃⟩ := startothers_room (n := M.ncpu - 1) owns₂ (by omega)
  obtain ⟨m₄, late, owns₄, oom₄⟩ := kinit2_owns owns₃
  have count₄ := owns₄.length_add
  rw [bootPages_card, add_zero, Multiset.card_add, half.card_pages] at count₄
  have count₃ := owns₃.length_add
  rw [Multiset.coe_card, List.length_range', add_zero, Multiset.card_add,
    half.card_pages] at count₃
  rw [add_zero, add_comm] at owns₄
  obtain ⟨k, user, booted⟩ := userinit_spec
    (k := ⟨m₄, pd, ss, fun _ => emptyProc, none, 1, emptyFiles⟩)
    (fun _ => rfl) rfl owns₄ (by show 50100 ≤ m₄.freelist.length; omega)
    (by rw [oom₄, oom₃, oom₂, oom₁]) M.init_lt
  refine ⟨k, ?_, booted⟩
  rw [boot, early, ok_bind, setup, ok_bind]
  dsimp only
  rw [others, ok_bind]
  dsimp only
  rw [late, ok_bind]
  exact user

theorem Booted.of_boot {k : Kernel} (h : boot L M = .ok k) : Booted L k := by
  obtain ⟨k', start, booted⟩ := boot_spec L M
  rw [h] at start
  cases start
  exact booted

end RandomRepo.Xv6

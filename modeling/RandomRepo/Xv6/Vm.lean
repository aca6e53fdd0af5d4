import RandomRepo.Xv6.Pgdir

/-!
The rest of `vm.c`: building, growing, shrinking, copying and freeing address
spaces, and the lazy page fault handler.

Loops over addresses are written with the increments of the source.  The two
whose bound may come from an arbitrary `uint` (`deallocuvm`, `copyuvm`) count
their turns: there are only `vpages` page addresses, so a loop that is not over
after that many turns has wrapped around and never ends.
-/

namespace RandomRepo.Xv6

/-! ## Shrinking and freeing -/

def deallocLoop (L : Layout) (oldsz : Nat) :
    Nat → Nat → Pgdir → Kmem → Except Halt (Pgdir × Kmem)
  | 0, _, _, _ => .error .hang
  | turns + 1, a, pd, m =>
    if a < oldsz then
      match walkpgdir pd a false m with
      | (false, pd, m) =>
        deallocLoop L oldsz turns (u32 (usub (pgaddr (pdx a + 1) 0 0) pgsize + pgsize)) pd m
      | (true, pd, m) =>
        match pd.pte a with
        | none => deallocLoop L oldsz turns (u32 (a + pgsize)) pd m
        | some e =>
          if e.ppn = 0 then .error (.panic .kfree)
          else do
            let m ← kfree L e.ppn m
            deallocLoop L oldsz turns (u32 (a + pgsize)) (pd.setPte a none) m
    else .ok (pd, m)

/-- Returns the new size, the directory and the memory. -/
def deallocuvm (L : Layout) (pd : Pgdir) (oldsz newsz : Nat) (m : Kmem) :
    Except Halt (Nat × Pgdir × Kmem) :=
  if oldsz ≤ newsz then .ok (oldsz, pd, m)
  else do
    let (pd, m) ← deallocLoop L oldsz (vpages + 1) (pgroundup newsz) pd m
    .ok (newsz, pd, m)

/-- The loop of `freevm` over the page directory. -/
def freeTables (L : Layout) (pd : Pgdir) : List Nat → Kmem → Except Halt Kmem
  | [], m => .ok m
  | i :: is, m =>
    match pd.pde i with
    | none => freeTables L pd is m
    | some t => do
      let m ← kfree L t.page m
      freeTables L pd is m

def freevm (L : Layout) (pd : Pgdir) (m : Kmem) : Except Halt Kmem := do
  let (_, pd, m) ← deallocuvm L pd kernbase 0 m
  let m ← freeTables L pd (List.range npdentries) m
  kfree L pd.page m

/-! ## The kernel part of an address space -/

structure Kmap where
  virt : Nat
  physStart : Nat
  physEnd : Nat
  perm : Perm

/-- The kernel's mappings, which are present in every process's page table. -/
def kmap (L : Layout) : List Kmap :=
  [ ⟨kernbase, 0, extmem, ⟨true, false⟩⟩,               -- I/O space
    ⟨kernlink, v2p kernlink, v2p L.data, ⟨false, false⟩⟩, -- kern text+rodata
    ⟨L.data, v2p L.data, phystop, ⟨true, false⟩⟩,        -- kern data+memory
    ⟨devspace, devspace, 0, ⟨true, false⟩⟩ ]             -- more devices

/-- The loop of `setupkvm` over `kmap`. -/
def kmapLoop (L : Layout) : List Kmap → Pgdir → Kmem → Except Halt (Option Pgdir × Kmem)
  | [], pd, m => .ok (some pd, m)
  | k :: ks, pd, m => do
    let (ok, pd, m) ←
      mappages pd k.virt (usub k.physEnd k.physStart) (k.physStart / pgsize) k.perm m
    if ok then kmapLoop L ks pd m
    else do
      let m ← freevm L pd m
      .ok (none, m)

def setupkvm (L : Layout) (m : Kmem) : Except Halt (Option Pgdir × Kmem) :=
  match kalloc m with
  | (none, m) => .ok (none, m)
  | (some pgdir, m) =>
    if devspace < p2v phystop then .error (.panic .phystopTooHigh)
    else kmapLoop L (kmap L) ⟨pgdir, fun _ => none⟩ m

/-! ## Growing -/

/-- The loop of `allocuvm`; returns 0 on error. -/
def allocLoop (L : Layout) (oldsz newsz a : Nat) (pd : Pgdir) (m : Kmem) :
    Except Halt (Nat × Pgdir × Kmem) :=
  if a < newsz then
    match kalloc m with
    | (none, m) => do
      -- allocuvm out of memory
      let (_, pd, m) ← deallocuvm L pd newsz oldsz m
      .ok (0, pd, m)
    | (some mem, m) => do
      let m := m.memset mem 0
      let (ok, pd, m) ← mappages pd a pgsize mem permUser m
      if ok then allocLoop L oldsz newsz (a + pgsize) pd m
      else do
        -- allocuvm out of memory (2)
        let (_, pd, m) ← deallocuvm L pd newsz oldsz m
        let m ← kfree L mem m
        .ok (0, pd, m)
  else .ok (newsz, pd, m)
  termination_by newsz - a
  decreasing_by simp only [pgsize]; omega

def allocuvm (L : Layout) (pd : Pgdir) (oldsz newsz : Nat) (m : Kmem) :
    Except Halt (Nat × Pgdir × Kmem) :=
  if kernbase ≤ newsz then .ok (0, pd, m)
  else if newsz < oldsz then .ok (oldsz, pd, m)
  else allocLoop L oldsz newsz (pgroundup oldsz) pd m

/-- Copied from `allocuvm`; the result is the printed success flag. -/
def pageFaultHandler (L : Layout) (pd : Pgdir) (a : Nat) (m : Kmem) :
    Except Halt (Bool × Pgdir × Kmem) :=
  match kalloc m with
  | (none, m) => .ok (false, pd, m)
  | (some mem, m) => do
    let m := m.memset mem 0
    let (ok, pd, m) ← mappages pd a pgsize mem permUser m
    if ok then .ok (true, pd, m)
    else do
      let m ← kfree L mem m
      .ok (false, pd, m)

/-- Clear `PTE_U` on a page. -/
def clearpteu (pd : Pgdir) (uva : Nat) (m : Kmem) : Except Halt (Pgdir × Kmem) :=
  match walkpgdir pd uva false m with
  | (false, _, _) => .error (.panic .clearpteu)
  | (true, pd, m) => .ok (pd.setPte uva ((pd.pte uva).map fun e => { e with u := false }), m)

/-! ## Copying -/

/-- The loop of `copyuvm` from the page at `i` on, copying `src` into `d`. -/
def copyLoop (L : Layout) (src : Pgdir) (sz : Nat) :
    Nat → Nat → Pgdir → Kmem → Except Halt (Option Pgdir × Kmem)
  | 0, _, _, _ => .error .hang
  | turns + 1, i, d, m =>
    if i < sz then
      match walkpgdir src i false m with
      | (false, _, _) => .error (.panic .copyuvmPte)
      | (true, _, m) =>
        match src.pte i with
        | none => .error (.panic .copyuvmPresent)
        | some e =>
          match kalloc m with
          | (none, m) => do
            let m ← freevm L d m
            .ok (none, m)
          | (some mem, m) => do
            let m := m.copyPage mem e.ppn
            let (ok, d, m) ← mappages d i pgsize mem e.perm m
            if ok then copyLoop L src sz turns (u32 (i + pgsize)) d m
            else do
              let m ← kfree L mem m
              let m ← freevm L d m
              .ok (none, m)
    else .ok (some d, m)

def copyuvm (L : Layout) (pd : Pgdir) (sz : Nat) (m : Kmem) :
    Except Halt (Option Pgdir × Kmem) := do
  let (d, m) ← setupkvm L m
  match d with
  | none => .ok (none, m)
  | some d => copyLoop L pd sz (vpages + 1) 0 d m

/-! ## Kernel access to the pages of an address space -/

/-- Map user virtual address to kernel address, here to the page it names.  The source does not
test the result of `walkpgdir`.  `null` is what comes of reading the entry through a null pointer,
other than finding a word without `PTE_P` or without `PTE_U`. -/
def uva2ka (null : Kmem → Except Halt Unit) (pd : Pgdir) (uva : Nat) (m : Kmem) :
    Except Halt (Option Nat) :=
  match walkpgdir pd uva false m with
  | (false, _, _) => (null m).map fun _ => none
  | (true, pd, _) =>
    match pd.pte uva with
    | none => .ok none
    | some e => .ok (if e.u then some e.ppn else none)

/-- Copy `buf` to user address `va`; the result says whether 0 is returned. -/
def copyoutWith (null : Kmem → Except Halt Unit) (pd : Pgdir) (va : Nat) (buf : List UInt8)
    (m : Kmem) : Except Halt (Bool × Kmem) :=
  if 0 < buf.length then do
    let va0 := pgrounddown va
    match ← uva2ka null pd va0 m with
    | none => .ok (false, m)
    | some ppn =>
      let n := min (pgsize - (va - va0)) buf.length
      copyoutWith null pd (u32 (va0 + pgsize)) (buf.drop n) (m.write ppn (va - va0) (buf.take n))
  else .ok (true, m)
  termination_by buf.length
  decreasing_by simp only [List.length_drop, pgrounddown, pgsize]; omega

/-- `copyout`, up to a null pointer. -/
def copyout (pd : Pgdir) (va : Nat) (buf : List UInt8) (m : Kmem) : Except Halt (Bool × Kmem) :=
  copyoutWith (fun _ => .error .null) pd va buf m

/-- `readi` of `fs.c` on an inode that is not a device, with the given contents:
the bytes it copies out, or `none` for its result -1. -/
def readi (content : List UInt8) (off n : Nat) : Option (List UInt8) :=
  if content.length < off ∨ u32 (off + n) < off then none
  else some ((content.drop off).take n)

/-- The loop of `loaduvm`; its bound is below `kernbase` wherever it is called. -/
def loadLoop (pd : Pgdir) (addr : Nat) (ip : List UInt8) (offset sz i : Nat) (m : Kmem) :
    Except Halt (Bool × Kmem) :=
  if i < sz then
    match walkpgdir pd (u32 (addr + i)) false m with
    | (false, _, _) => .error (.panic .loaduvmExist)
    | (true, pd, m) =>
      -- PTE_ADDR of a word that is not present is 0
      let ppn := ((pd.pte (u32 (addr + i))).map Pte.ppn).getD 0
      let n := min (sz - i) pgsize
      match readi ip (u32 (offset + i)) n with
      | none => .ok (false, m)
      | some bytes =>
        let m := m.write ppn 0 bytes
        if bytes.length ≠ n then .ok (false, m)
        else loadLoop pd addr ip offset sz (i + pgsize) m
  else .ok (true, m)
  termination_by sz - i
  decreasing_by simp only [pgsize]; omega

/-- Load a program segment; the result says whether 0 is returned. -/
def loaduvm (pd : Pgdir) (addr : Nat) (ip : List UInt8) (offset sz : Nat) (m : Kmem) :
    Except Halt (Bool × Kmem) :=
  if addr % pgsize ≠ 0 then .error (.panic .loaduvmAlign)
  else loadLoop pd addr ip offset sz 0 m

/-- Load the initcode into address 0 of `pd`.  Neither of the two allocations is
tested: a null page is written through, a failed `mappages` is ignored. -/
def inituvm (pd : Pgdir) (init : List UInt8) (m : Kmem) : Except Halt (Pgdir × Kmem) :=
  if pgsize ≤ init.length then .error (.panic .inituvm)
  else
    match kalloc m with
    | (none, _) => .error .null
    | (some mem, m) => do
      let m := m.memset mem 0
      let (_, pd, m) ← mappages pd 0 pgsize mem permUser m
      .ok (pd, m.write mem 0 init)

/-! ## One turn of the loops that allocate -/

variable {L : Layout} {pd pd' src d : Pgdir} {m m' : Kmem} {a i sz oldsz newsz turns : Nat}

theorem allocLoop_cases {r : Nat} (h : allocLoop L oldsz newsz a pd m = .ok (r, pd', m')) :
    (newsz ≤ a ∧ r = newsz ∧ pd' = pd ∧ m' = m) ∨
      (a < newsz ∧ r = 0 ∧ ∃ m₁ s, kalloc m = (none, m₁) ∧
        deallocuvm L pd newsz oldsz m₁ = .ok (s, pd', m')) ∨
      (a < newsz ∧ r = 0 ∧ ∃ p m₁ pd₁ m₂ s m₃, kalloc m = (some p, m₁) ∧
        mappages pd a pgsize p permUser (m₁.memset p 0) = .ok (false, pd₁, m₂) ∧
        deallocuvm L pd₁ newsz oldsz m₂ = .ok (s, pd', m₃) ∧ kfree L p m₃ = .ok m') ∨
      (a < newsz ∧ ∃ p m₁ pd₁ m₂, kalloc m = (some p, m₁) ∧
        mappages pd a pgsize p permUser (m₁.memset p 0) = .ok (true, pd₁, m₂) ∧
        allocLoop L oldsz newsz (a + pgsize) pd₁ m₂ = .ok (r, pd', m')) := by
  rw [allocLoop] at h
  by_cases inside : a < newsz
  · rw [if_pos inside] at h
    rcases page : kalloc m with ⟨_ | p, m₁⟩
    · simp only [page] at h
      obtain ⟨⟨s, pd₁, m₂⟩, dealloc, rest⟩ := bind_ok_iff.mp h
      cases rest
      exact .inr (.inl ⟨inside, rfl, m₁, s, rfl, dealloc⟩)
    · simp only [page] at h
      obtain ⟨⟨ok, pd₁, m₂⟩, turn, rest⟩ := bind_ok_iff.mp h
      cases ok with
      | true =>
        dsimp only at rest
        rw [if_pos rfl] at rest
        exact .inr (.inr (.inr ⟨inside, p, m₁, pd₁, m₂, rfl, turn, rest⟩))
      | false =>
        dsimp only at rest
        rw [if_neg Bool.false_ne_true] at rest
        obtain ⟨⟨s, pd₂, m₃⟩, dealloc, rest⟩ := bind_ok_iff.mp rest
        obtain ⟨m₄, free, rest⟩ := bind_ok_iff.mp rest
        cases rest
        exact .inr (.inr (.inl
          ⟨inside, rfl, p, m₁, pd₁, m₂, s, m₃, rfl, turn, dealloc, free⟩))
  · rw [if_neg inside] at h
    cases h
    exact .inl ⟨Nat.le_of_not_lt inside, rfl, rfl, rfl⟩

theorem allocLoop_next {p : Nat} {m₁ m₂ : Kmem} {pd₁ : Pgdir} (inside : a < newsz)
    (page : kalloc m = (some p, m₁))
    (turn : mappages pd a pgsize p permUser (m₁.memset p 0) = .ok (true, pd₁, m₂)) :
    allocLoop L oldsz newsz a pd m = allocLoop L oldsz newsz (a + pgsize) pd₁ m₂ := by
  conv_lhs => rw [allocLoop]
  rw [if_pos inside, page]
  dsimp only
  rw [turn, ok_bind]
  dsimp only
  rw [if_pos rfl]

theorem pageFaultHandler_cases {ok : Bool} (h : pageFaultHandler L pd a m = .ok (ok, pd', m')) :
    (ok = false ∧ pd' = pd ∧ kalloc m = (none, m')) ∨
      (ok = false ∧ ∃ p m₁ m₂, kalloc m = (some p, m₁) ∧
        mappages pd a pgsize p permUser (m₁.memset p 0) = .ok (false, pd', m₂) ∧
        kfree L p m₂ = .ok m') ∨
      (ok = true ∧ ∃ p m₁, kalloc m = (some p, m₁) ∧
        mappages pd a pgsize p permUser (m₁.memset p 0) = .ok (true, pd', m')) := by
  unfold pageFaultHandler at h
  rcases page : kalloc m with ⟨_ | p, m₁⟩
  · simp only [page] at h
    cases h
    exact .inl ⟨rfl, rfl, rfl⟩
  · simp only [page] at h
    obtain ⟨⟨mapped, pd₁, m₂⟩, turn, rest⟩ := bind_ok_iff.mp h
    cases mapped with
    | true => cases rest; exact .inr (.inr ⟨rfl, p, m₁, rfl, turn⟩)
    | false =>
      obtain ⟨m₃, free, rest⟩ := bind_ok_iff.mp rest
      cases rest
      exact .inr (.inl ⟨rfl, p, m₁, m₂, rfl, turn, free⟩)

/-- A turn of `copyuvm`'s loop that does not panic. -/
theorem copyLoop_cases {r : Option Pgdir}
    (h : copyLoop L src sz (turns + 1) i d m = .ok (r, m')) :
    (sz ≤ i ∧ r = some d ∧ m' = m) ∨
      ∃ e, i < sz ∧ src.pte i = some e ∧
        ((r = none ∧ ∃ m₁, kalloc m = (none, m₁) ∧ freevm L d m₁ = .ok m') ∨
          (r = none ∧ ∃ p m₁ d₁ m₂ m₃, kalloc m = (some p, m₁) ∧
            mappages d i pgsize p e.perm (m₁.copyPage p e.ppn) = .ok (false, d₁, m₂) ∧
            kfree L p m₂ = .ok m₃ ∧ freevm L d₁ m₃ = .ok m') ∨
          ∃ p m₁ d₁ m₂, kalloc m = (some p, m₁) ∧
            mappages d i pgsize p e.perm (m₁.copyPage p e.ppn) = .ok (true, d₁, m₂) ∧
            copyLoop L src sz turns (u32 (i + pgsize)) d₁ m₂ = .ok (r, m')) := by
  rw [copyLoop] at h
  by_cases inside : i < sz
  · rw [if_pos inside] at h
    rcases walk : walkpgdir src i false m with ⟨_ | _, src₁, m₀⟩
    · simp only [walk] at h
      cases h
    · have here : m₀ = m := by
        rcases walkpgdir_cases walk with ⟨-, -, -, same⟩ | ⟨impossible, -⟩ | ⟨p, -, impossible, -⟩
        · exact same
        · cases impossible
        · cases impossible
      subst here
      simp only [walk] at h
      cases pte : src.pte i with
      | none => simp only [pte] at h; cases h
      | some e =>
        simp only [pte] at h
        refine .inr ⟨e, inside, rfl, ?_⟩
        rcases page : kalloc m₀ with ⟨_ | p, m₁⟩
        · simp only [page] at h
          obtain ⟨m₂, free, rest⟩ := bind_ok_iff.mp h
          cases rest
          exact .inl ⟨rfl, m₁, rfl, free⟩
        · simp only [page] at h
          obtain ⟨⟨ok, d₁, m₂⟩, turn, rest⟩ := bind_ok_iff.mp h
          cases ok with
          | true => exact .inr (.inr ⟨p, m₁, d₁, m₂, rfl, turn, rest⟩)
          | false =>
            obtain ⟨m₃, free, rest⟩ := bind_ok_iff.mp rest
            obtain ⟨m₄, freed, rest⟩ := bind_ok_iff.mp rest
            cases rest
            exact .inr (.inl ⟨rfl, p, m₁, d₁, m₂, m₃, rfl, turn, free, freed⟩)
  · rw [if_neg inside] at h
    cases h
    exact .inl ⟨Nat.le_of_not_lt inside, rfl, rfl⟩

end RandomRepo.Xv6

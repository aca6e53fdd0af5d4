import RandomRepo.Lib.Script
import RandomRepo.Xv6.AddrSpace

/-!
# Lazy and eager `mmap`

The kernel reserves the pages of an `mmap` by changing the size of the process and
maps them when they are touched.  A kernel that maps them at once, by `growproc`,
gives user code the same results, as long as memory is not exhausted: both stand
for the same address space.
-/

namespace RandomRepo.Xv6

/-- What user code does with its memory. -/
inductive UserOp
  | mmap (size : CInt)
  | sbrk (n : CInt)
  | access (acc : Access) (a : Nat)

/-- What user code sees: the result of a call, or the byte of an access. -/
inductive Seen
  | addr (w : Nat)
  | byte (b : Option UInt8)

/-! ## The two kernels -/

def sbrkStep (L : Layout) (n : CInt) (s : Proc × Kmem) : Except Halt (Seen × Proc × Kmem) := do
  let (r, p, m) ← sysSbrk L (some n) s.1 s.2
  .ok (.addr r, p, m)

def accessStep (L : Layout) (acc : Access) (a : Nat) (s : Proc × Kmem) :
    Except Halt (Seen × Proc × Kmem) := do
  let (b, p, m) ← execute L acc a s.1 s.2
  .ok (.byte b, p, m)

/-- The kernel as it is. -/
def lazyStep (L : Layout) (s : Proc × Kmem) : UserOp → Except Halt (Seen × Proc × Kmem)
  | .mmap size => let (r, p) := sysMmap (some size) s.1; .ok (.addr r, p, s.2)
  | .sbrk n => sbrkStep L n s
  | .access acc a => accessStep L acc a s

/-- `sys_mmap` with `growproc` in the place of `mmap`. -/
def eagerMmap (L : Layout) (size : CInt) (p : Proc) (m : Kmem) : Except Halt (Nat × Proc × Kmem) :=
  if size.val < 0 ∨ size.val % (pgsize : Int) ≠ 0 then .ok (0, p, m)
  else do
    let addr := p.sz
    let (ok, p, m) ← growproc L size.val p m
    .ok (if ok then addr else 0, p, m)

/-- The kernel that maps the pages of an `mmap` at once. -/
def eagerStep (L : Layout) (s : Proc × Kmem) : UserOp → Except Halt (Seen × Proc × Kmem)
  | .mmap size => do
    let (r, p, m) ← eagerMmap L size s.1 s.2
    .ok (.addr r, p, m)
  | .sbrk n => sbrkStep L n s
  | .access acc a => accessStep L acc a s

/-- Physical memory has not been exhausted. -/
def Roomy (s : Proc × Kmem) : Prop := s.2.oom = false

/-! ## What they stand for -/

def UserOp.newSize (sz : Nat) : UserOp → Nat
  | .mmap size => (sz + size.val).toNat
  | .sbrk n => (sz + n.val).toNat
  | .access _ _ => sz

/-- Enough pages for the operation: each new page may come with a page table. -/
def UserOp.need (sz : Nat) : UserOp → Nat
  | .access _ _ => 2
  | op => 2 * (npages (op.newSize sz) - npages sz)

def AddrSpace.act (A : AddrSpace) : UserOp → Seen × AddrSpace
  | .mmap size => (.addr A.sz, A.resize (A.sz + size.val).toNat)
  | .sbrk n => (.addr A.sz, A.resize (A.sz + n.val).toNat)
  | .access acc a => (.byte (some (A.perform a acc).1), (A.perform a acc).2)

/-- What user code may ask for: sizes in the user half, and accesses to its own pages. -/
def AddrSpace.Admits (A : AddrSpace) : UserOp → Prop
  | .mmap size => 0 ≤ size.val ∧ size.val % 4096 = 0 ∧ 0 < A.sz + size.val ∧
      A.sz + size.val < kernbase
  | .sbrk n => 0 < A.sz + n.val ∧ A.sz + n.val < kernbase
  | .access _ a => a < A.sz ∧ (A.page (vpn a)).u = true ∧ (A.page (vpn a)).w = true

variable {L : Layout} {lazily : Bool} {A : AddrSpace} {p : Proc} {m : Kmem} {guard : Nat → Prop}

theorem Backs.sbrkStep {n : CInt} {s : Proc × Kmem} (backs : Backs L lazily A s.1 s.2)
    (allowed : A.Admits (.sbrk n)) : ∃ b s', Xv6.sbrkStep L n s = .ok (b, s') ∧
      Spends ((UserOp.sbrk n).need A.sz) s.2 s'.2 ∧
      (Roomy s' → b = (A.act (.sbrk n)).1 ∧ Backs L lazily (A.act (.sbrk n)).2 s'.1 s'.2) := by
  obtain ⟨positive, fits⟩ := allowed
  obtain ⟨ok, p, m, grow, spends, done⟩ := backs.growproc n.val (A.sz + n.val).toNat
    (by omega) (by omega) (by omega)
  refine ⟨.addr (if ok then s.1.sz else minusOne), (p, m), ?_, spends, fun room => ?_⟩
  · rw [Xv6.sbrkStep, sysSbrk, grow]
    rfl
  · obtain ⟨rfl, after⟩ := done room
    rw [if_pos rfl, backs.size]
    exact ⟨rfl, after⟩

theorem Backs.accessStep {acc : Access} {a : Nat} {s : Proc × Kmem}
    (backs : Backs L lazily A s.1 s.2) (allowed : A.Admits (.access acc a)) :
    ∃ b s', Xv6.accessStep L acc a s = .ok (b, s') ∧
      Spends ((UserOp.access acc a).need A.sz) s.2 s'.2 ∧
      (Roomy s' → b = (A.act (.access acc a)).1 ∧
        Backs L lazily (A.act (.access acc a)).2 s'.1 s'.2) := by
  obtain ⟨inside, user, writable⟩ := allowed
  obtain ⟨r, p, m, done, spends, after⟩ := backs.execute acc inside user writable
  refine ⟨.byte r, (p, m), ?_, spends, fun room => ?_⟩
  · rw [Xv6.accessStep, done]
    rfl
  · obtain ⟨rfl, backs'⟩ := after room
    exact ⟨rfl, backs'⟩

/-- The kernel stands for the address space with pages left out. -/
theorem Backs.lazyStep {op : UserOp} {s : Proc × Kmem} (backs : Backs L true A s.1 s.2)
    (allowed : A.Admits op) : ∃ b s', Xv6.lazyStep L s op = .ok (b, s') ∧
      Spends (op.need A.sz) s.2 s'.2 ∧
      (Roomy s' → b = (A.act op).1 ∧ Backs L true (A.act op).2 s'.1 s'.2) := by
  cases op with
  | mmap size =>
    obtain ⟨positive, aligned, -, fits⟩ := allowed
    refine ⟨.addr s.1.sz, ((mmap size.val s.1).2, s.2), ?_, fun _ => ⟨rfl, Nat.le_add_right _ _⟩,
      fun _ => ⟨?_, ?_⟩⟩
    · rw [Xv6.lazyStep, sysMmap, if_neg (by simp only [pgsize]; omega)]
      rfl
    · rw [backs.size]
      rfl
    · exact backs.reserve (by omega) ⟨positive, aligned⟩ (by omega)
  | sbrk n => exact backs.sbrkStep allowed
  | access acc a => exact backs.accessStep allowed

/-- The eager kernel leaves nothing out. -/
theorem Backs.eagerStep {op : UserOp} {s : Proc × Kmem} (backs : Backs L false A s.1 s.2)
    (allowed : A.Admits op) : ∃ b s', Xv6.eagerStep L s op = .ok (b, s') ∧
      Spends (op.need A.sz) s.2 s'.2 ∧
      (Roomy s' → b = (A.act op).1 ∧ Backs L false (A.act op).2 s'.1 s'.2) := by
  cases op with
  | mmap size =>
    obtain ⟨nonneg, aligned, positive, fits⟩ := allowed
    obtain ⟨ok, p, m, grow, spends, done⟩ := backs.growproc size.val
      (A.sz + size.val).toNat (by omega) (by omega) (by omega)
    refine ⟨.addr (if ok then s.1.sz else 0), (p, m), ?_, spends, fun room => ?_⟩
    · rw [Xv6.eagerStep, eagerMmap, if_neg (by simp only [pgsize]; omega), grow]
      rfl
    · obtain ⟨rfl, after⟩ := done room
      rw [if_pos rfl, backs.size]
      exact ⟨rfl, after⟩
  | sbrk n => exact backs.sbrkStep allowed
  | access acc a => exact backs.accessStep allowed

/-! ## Refinement -/

/-- A process as `exec` leaves it: all pages below its size are mapped, and user code may read and
write them, except for the guard pages. -/
structure Loaded (L : Layout) (guard : Nat → Prop) (p : Proc) (m : Kmem) : Prop where
  whole : p.Whole
  bound : p.sz < kernbase
  pages : ∃ pd T R, p.pgdir = some pd ∧ Owns L T m (pd.pages + R) ∧
    (∀ v, npages p.sz ≤ v → v < kernPage → pd.lookup v = none) ∧
    ∀ v, v < npages p.sz → ∃ e, pd.lookup v = some e ∧ (¬ guard v → e.u = true ∧ e.w = true)

/-- What may be asked for at size `sz`. -/
def UserOp.Allowed (guard : Nat → Prop) (sz : Nat) : UserOp → Prop
  | .mmap size => 0 ≤ size.val ∧ size.val % 4096 = 0 ∧ 0 < sz + size.val ∧ sz + size.val < kernbase
  | .sbrk n => 0 < sz + n.val ∧ sz + n.val < kernbase
  | .access _ a => a < sz ∧ ¬ guard (vpn a)

/-- Every operation is allowed at the size that those before it ask for. -/
def Valid (guard : Nat → Prop) : Nat → List UserOp → Prop
  | _, [] => True
  | sz, op :: ops => op.Allowed guard sz ∧ Valid guard (op.newSize sz) ops

/-- Outside of the guard pages user code may read and write. -/
def AddrSpace.Usable (guard : Nat → Prop) (A : AddrSpace) : Prop :=
  ∀ v, ¬ guard v → (A.page v).u = true ∧ (A.page v).w = true

theorem AddrSpace.Usable.act (op : UserOp) (usable : A.Usable guard) :
    (A.act op).2.Usable guard ∧ (A.act op).2.sz = op.newSize A.sz := by
  have resized : ∀ sz, (A.resize sz).Usable guard := by
    intro sz v free
    unfold AddrSpace.resize
    dsimp only
    split_ifs
    · exact ⟨rfl, rfl⟩
    · exact usable v free
  cases op with
  | mmap size => exact ⟨resized _, rfl⟩
  | sbrk n => exact ⟨resized _, rfl⟩
  | access acc a =>
    cases acc with
    | load => exact ⟨usable, rfl⟩
    | store b =>
      refine ⟨fun v free => ?_, rfl⟩
      unfold AddrSpace.act AddrSpace.perform AddrSpace.write
      dsimp only
      split_ifs <;> exact usable v free

theorem Valid.admitted {ops : List UserOp} (usable : A.Usable guard)
    (valid : Valid guard A.sz ops) : Admitted AddrSpace.act AddrSpace.Admits A ops := by
  induction ops generalizing A with
  | nil => trivial
  | cons op ops ih =>
    obtain ⟨here, later⟩ := valid
    obtain ⟨usable', size⟩ := usable.act op
    refine ⟨?_, ih usable' (by rw [size]; exact later)⟩
    cases op with
    | mmap => exact here
    | sbrk => exact here
    | access acc a => exact ⟨here.1, usable _ here.2⟩

/-- The address space of a loaded process. -/
theorem Loaded.backs (loaded : Loaded L guard p m) :
    ∃ A : AddrSpace, A.sz = p.sz ∧ A.Usable guard ∧ ∀ lazily, Backs L lazily A p m := by
  obtain ⟨pd, T, R, had, owns, above, present⟩ := loaded.pages
  let A : AddrSpace := ⟨p.sz, fun v => if v < npages p.sz then (pd.userPage m v).getD freshPage
    else freshPage⟩
  refine ⟨A, rfl, fun v free => ?_, fun lazily => ⟨rfl, loaded.bound, loaded.whole, pd, had,
    ⟨T, R, owns⟩, above, fun v hv => .inl ?_⟩⟩
  · show (if v < npages p.sz then _ else freshPage).u = true ∧ (if _ then _ else freshPage).w = true
    split_ifs with inside
    · obtain ⟨e, mapped, flags⟩ := present v inside
      rw [Pgdir.userPage, mapped]
      exact flags free
    · exact ⟨rfl, rfl⟩
  · have hv : v < npages p.sz := hv
    obtain ⟨e, mapped, -⟩ := present v hv
    show _ = some (if v < npages p.sz then _ else _)
    rw [if_pos hv, Pgdir.userPage, mapped]
    rfl

/-- The results of a kernel that stands for the address space. -/
theorem runAll_backs {step : Proc × Kmem → UserOp → Except Halt (Seen × Proc × Kmem)}
    {ops : List UserOp}
    (sim : ∀ A s op, Backs L lazily A s.1 s.2 → A.Admits op → ∃ b s', step s op = .ok (b, s') ∧
      Spends (op.need A.sz) s.2 s'.2 ∧
      (Roomy s' → b = (A.act op).1 ∧ Backs L lazily (A.act op).2 s'.1 s'.2))
    (backs : Backs L lazily A p m) (admitted : Admitted AddrSpace.act AddrSpace.Admits A ops)
    (roomy : StaysGood step Roomy (p, m) ops) :
    ∃ s', runAll step (p, m) ops = .ok (results AddrSpace.act A ops, s') := by
  refine runAll_refines (fun A s => Backs L lazily A s.1 s.2) ?_ backs admitted roomy
  intro A s op backs allowed
  obtain ⟨b, s', done, -, after⟩ := sim A s op backs allowed
  exact ⟨b, s', done, after⟩

/-- **Lazy `mmap` refines eager allocation.**  From a loaded process, on every valid sequence of
`mmap`, `sbrk`, loads and stores on which neither kernel exhausts memory, both return, and user
code sees the same. -/
theorem lazy_mmap_refines_eager {ops : List UserOp} (loaded : Loaded L guard p m)
    (valid : Valid guard p.sz ops) (roomyLazy : StaysGood (lazyStep L) Roomy (p, m) ops)
    (roomyEager : StaysGood (eagerStep L) Roomy (p, m) ops) :
    ∃ rs s₁ s₂, runAll (lazyStep L) (p, m) ops = .ok (rs, s₁) ∧
      runAll (eagerStep L) (p, m) ops = .ok (rs, s₂) := by
  obtain ⟨A, size, usable, backs⟩ := loaded.backs
  rw [← size] at valid
  have admitted := valid.admitted usable
  obtain ⟨s₁, runs₁⟩ := runAll_backs (fun _ _ _ backs allowed => backs.lazyStep allowed)
    (backs true) admitted roomyLazy
  obtain ⟨s₂, runs₂⟩ := runAll_backs (fun _ _ _ backs allowed => backs.eagerStep allowed)
    (backs false) admitted roomyEager
  exact ⟨results AddrSpace.act A ops, s₁, s₂, runs₁, runs₂⟩

/-! ## Enough memory -/

theorem staysRoomy {step : Proc × Kmem → UserOp → Except Halt (Seen × Proc × Kmem)}
    {ops : List UserOp}
    (sim : ∀ A s op, Backs L lazily A s.1 s.2 → A.Admits op → ∃ b s', step s op = .ok (b, s') ∧
      Spends (op.need A.sz) s.2 s'.2 ∧
      (Roomy s' → b = (A.act op).1 ∧ Backs L lazily (A.act op).2 s'.1 s'.2))
    (backs : Backs L lazily A p m) (fine : m.oom = false)
    (admitted : Admitted AddrSpace.act AddrSpace.Admits A ops)
    (enough : totalCost AddrSpace.act (fun A op => op.need A.sz) A ops ≤ m.freelist.length) :
    StaysGood step Roomy (p, m) ops := by
  refine staysGood_of_budget (fun A s => Backs L lazily A s.1 s.2) (fun s => s.2.freelist.length)
    _ ?_ backs fine admitted enough
  intro A s op b s' backs fine allowed enough done
  obtain ⟨b', s'', done', spends, after⟩ := sim A s op backs allowed
  rw [done] at done'
  cases done'
  obtain ⟨oom, left⟩ := spends enough
  have roomy : Roomy s' := oom.trans fine
  exact ⟨roomy, (after roomy).2, left⟩

/-- Physical memory that is enough for a sequence. -/
def demand : Nat → List UserOp → Nat
  | _, [] => 0
  | sz, op :: ops => op.need sz + demand (op.newSize sz) ops

theorem AddrSpace.Usable.demand {ops : List UserOp} (usable : A.Usable guard) :
    totalCost AddrSpace.act (fun A op => op.need A.sz) A ops = Xv6.demand A.sz ops := by
  induction ops generalizing A with
  | nil => rfl
  | cons op ops ih =>
    obtain ⟨usable', size⟩ := usable.act op
    rw [totalCost, Xv6.demand, ih usable', size]

theorem Loaded.staysRoomy {ops : List UserOp} (loaded : Loaded L guard p m)
    (fine : m.oom = false) (valid : Valid guard p.sz ops)
    (enough : demand p.sz ops ≤ m.freelist.length) :
    StaysGood (lazyStep L) Roomy (p, m) ops ∧ StaysGood (eagerStep L) Roomy (p, m) ops := by
  obtain ⟨A, size, usable, backs⟩ := loaded.backs
  rw [← size] at valid enough
  rw [← usable.demand] at enough
  have admitted := valid.admitted usable
  exact ⟨Xv6.staysRoomy (fun _ _ _ backs allowed => backs.lazyStep allowed) (backs true) fine
      admitted enough,
    Xv6.staysRoomy (fun _ _ _ backs allowed => backs.eagerStep allowed) (backs false) fine
      admitted enough⟩

theorem Booted.loaded {k : Kernel} (booted : Booted L k) :
    Loaded L (fun _ => False) (k.proc 0) k.mem := by
  have one : npages (k.proc 0).sz = 1 := by rw [booted.sz]; rfl
  obtain ⟨pd, q, had, lookup⟩ := booted.dir
  obtain ⟨R, owns⟩ := booted.accounted.dir booted.alive_first had
  refine ⟨booted.whole 0 booted.alive_first, by rw [booted.sz]; decide, pd, _, R, had, owns,
    fun v low user => ?_, fun v inside => ?_⟩
  · rw [lookup, if_neg (by omega)]
    exact kernelEntry_user user
  · rw [lookup, if_pos (by omega)]
    exact ⟨_, rfl, fun _ => ⟨rfl, rfl⟩⟩

/-- The first process maps a page, stores into it and loads what it has stored. -/
theorem lazy_mmap_refines_eager_first : ∃ k rs s₁ s₂, boot kernelSym blankMachine = .ok k ∧
    runAll (lazyStep kernelSym) (k.proc 0, k.mem)
      [.mmap onePage, .access (.store 7) 0x1004, .access .load 0x1004] = .ok (rs, s₁) ∧
    runAll (eagerStep kernelSym) (k.proc 0, k.mem)
      [.mmap onePage, .access (.store 7) 0x1004, .access .load 0x1004] = .ok (rs, s₂) := by
  obtain ⟨k, start, booted⟩ := boot_spec kernelSym blankMachine
  have valid : Valid (fun _ => False) (k.proc 0).sz
      [.mmap onePage, .access (.store 7) 0x1004, .access .load 0x1004] := by
    rw [booted.sz]
    exact ⟨⟨by decide, by decide, by decide, by decide⟩, ⟨by decide, id⟩, ⟨by decide, id⟩, trivial⟩
  have room := booted.room
  obtain ⟨roomyLazy, roomyEager⟩ := booted.loaded.staysRoomy booted.oom valid (by
    rw [booted.sz]
    exact Nat.le_trans (by decide) room)
  obtain ⟨rs, s₁, s₂, runs⟩ := lazy_mmap_refines_eager booted.loaded valid roomyLazy roomyEager
  exact ⟨k, rs, s₁, s₂, start, runs⟩

end RandomRepo.Xv6

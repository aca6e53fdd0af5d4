import RandomRepo.Xv6.Vm

/-!
The parts of `proc.c`, `sysproc.c`, `syscall.c` and `trap.c` that concern one
process and its memory: growing and shrinking it, `mmap`, the checks of system
call arguments, user loads and stores, and the page fault trap.

A system call function takes the outcome of its `argint`: `none` if the fetch
fails.  Results are the words left in `%eax`.
-/

namespace RandomRepo.Xv6

inductive ProcState
  | unused | embryo | sleeping | runnable | running | zombie
  deriving DecidableEq, Repr

/-- The registers of the trap frame that kernel code reads or writes. -/
structure Trapframe where
  eip : Nat
  esp : Nat
  eax : Nat
  deriving DecidableEq, Repr

structure Proc where
  sz : Nat
  pgdir : Option Pgdir
  kstack : Option Nat
  state : ProcState
  pid : Nat
  parent : Option Nat
  tf : Trapframe
  killed : Bool
  ofile : Nat → Option Nat
  name : List UInt8

/-- A C `int`. -/
abbrev CInt := { n : Int // IsInt n }

/-- The result -1. -/
def minusOne : Nat := 0xFFFFFFFF

/-- The checks of `switchuvm`; the rest of it sets up the hardware. -/
def switchuvm (p : Proc) : Except Halt Unit :=
  if p.kstack.isNone then .error (.panic .switchuvmKstack)
  else if p.pgdir.isNone then .error (.panic .switchuvmPgdir)
  else .ok ()

/-- The page directory a function of `vm.c` is handed; a null one is dereferenced. -/
def Proc.dir (p : Proc) : Except Halt Pgdir :=
  match p.pgdir with
  | none => .error .null
  | some pd => .ok pd

/-! ## Growing and shrinking -/

/-- The result says whether 0 is returned.  On -1 the size keeps its old value, whatever
has happened to the page table. -/
def growproc (L : Layout) (n : Int) (p : Proc) (m : Kmem) : Except Halt (Bool × Proc × Kmem) :=
  if n = 0 then do
    switchuvm p
    .ok (true, p, m)
  else do
    let pd ← p.dir
    let newsz := uaddInt p.sz n
    let resized := if 0 < n then allocuvm L pd p.sz newsz m else deallocuvm L pd p.sz newsz m
    let (sz, pd, m) ← resized
    if sz = 0 then .ok (false, { p with pgdir := some pd }, m)
    else do
      let p := { p with pgdir := some pd, sz := sz }
      switchuvm p
      .ok (true, p, m)

def sysSbrk (L : Layout) (arg : Option CInt) (p : Proc) (m : Kmem) :
    Except Halt (Nat × Proc × Kmem) :=
  match arg with
  | none => .ok (minusOne, p, m)
  | some n => do
    let addr := p.sz
    let (ok, p, m) ← growproc L n.val p m
    .ok (if ok then addr else minusOne, p, m)

/-- No page is mapped and no limit is checked. -/
def mmap (size : Int) (p : Proc) : Nat × Proc :=
  (p.sz, { p with sz := uaddInt p.sz size })

def sysMmap (arg : Option CInt) (p : Proc) : Nat × Proc :=
  match arg with
  | none => (0, p)
  | some size =>
    if size.val < 0 ∨ size.val % (pgsize : Int) ≠ 0 then (0, p)
    else mmap size.val p

/-! ## System call arguments

`mem` is the user memory as the kernel sees it through the page table of the
process. -/

/-- The little-endian word at `addr`. -/
def word (mem : Nat → UInt8) (addr : Nat) : Nat :=
  (mem addr).toNat + 256 * (mem (u32 (addr + 1))).toNat + 65536 * (mem (u32 (addr + 2))).toNat +
    16777216 * (mem (u32 (addr + 3))).toNat

/-- What the hardware looks up for a user access: the entry, if it is present with `PTE_U`
and, for a store, with `PTE_W`. -/
def Pgdir.userPte (pd : Pgdir) (va : Nat) (write : Bool) : Option Pte :=
  (pd.pte va).filter fun e => e.u && (!write || e.w)

/-- The `T_PGFLT` branch of `trap`: the handler's result is only printed. -/
def trapPgflt (L : Layout) (va : Nat) (p : Proc) (m : Kmem) :
    Except Halt (Bool × Proc × Kmem) := do
  let pd ← p.dir
  let (ok, pd, m) ← pageFaultHandler L pd (pgrounddown va) m
  let p := { p with pgdir := some pd }
  switchuvm p
  .ok (ok, p, m)

/-- A load or a store, as the hardware executes it once. -/
inductive Access
  | load
  | store (b : UInt8)
  deriving DecidableEq, Repr

def Access.write : Access → Bool
  | .load => false
  | .store _ => true

/-- The outcome of one execution of an access. -/
inductive Outcome
  | value (b : UInt8)
  | fault (handled : Bool)
  deriving DecidableEq, Repr

/-- Execute an access at `va` once: it reads or writes the byte, or it traps.  After the trap
the instruction is executed again, which is another access. -/
def access (L : Layout) (acc : Access) (va : Nat) (p : Proc) (m : Kmem) :
    Except Halt (Outcome × Proc × Kmem) := do
  let pd ← p.dir
  match pd.userPte va acc.write with
  | some e =>
    match acc with
    | .load => .ok (.value (m.data e.ppn (va % pgsize)), p, m)
    | .store b => .ok (.value b, p, m.write e.ppn (va % pgsize) [b])
  | none => do
    let (ok, p, m) ← trapPgflt L va p m
    .ok (.fault ok, p, m)

end RandomRepo.Xv6

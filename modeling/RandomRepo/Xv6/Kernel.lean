import RandomRepo.Xv6.File
import RandomRepo.Xv6.ProcStep

/-!
The process table of `proc.c` with the system calls that act on several
processes or on open files, and the steps the whole kernel takes.

A system call runs as a whole, by any process that is ready to run; there is no
scheduler.  A process that sleeps in `wait` changes nothing, so `wait` either
returns or leaves the state as it is.  The inode of the current directory belongs
to the file system and is left out, and the descriptors that `sys_pipe` stores in
user memory are ordinary stores of their own.
-/

namespace RandomRepo.Xv6

structure Kernel where
  mem : Kmem
  kpgdir : Pgdir
  /-- The stacks `startothers` allocates for the other processors. -/
  cpuStacks : List Nat
  proc : Nat → Proc
  initproc : Option Nat
  nextpid : Nat
  files : Files

def Kernel.setProc (k : Kernel) (i : Nat) (p : Proc) : Kernel :=
  { k with proc := Function.update k.proc i p }

/-! ## Creating processes -/

/-- Look in the process table for an unused slot and give it a kernel stack. -/
def allocproc (k : Kernel) : Option Nat × Kernel :=
  match (List.range nproc).find? fun i => (k.proc i).state = .unused with
  | none => (none, k)
  | some i =>
    let p := { k.proc i with state := .embryo, pid := k.nextpid }
    let k := { k with nextpid := k.nextpid + 1 }
    match kalloc k.mem with
    | (none, m) => (none, { k with mem := m }.setProc i { p with kstack := none, state := .unused })
    | (some s, m) => (some i, { k with mem := m }.setProc i { p with kstack := some s })

/-- `filedup` of every open file among the given descriptors. -/
def dupFiles (ofile : Nat → Option Nat) : List Nat → Files → Except Halt Files
  | [], fs => .ok fs
  | fd :: fds, fs =>
    match ofile fd with
    | none => dupFiles ofile fds fs
    | some f => do
      let fs ← filedup f fs
      dupFiles ofile fds fs

/-- A null kernel stack is an address below the kernel. -/
def kfreePtr (L : Layout) (s : Option Nat) (m : Kmem) : Except Halt Kmem :=
  match s with
  | none => .error (.panic .kfree)
  | some s => kfree L s m

def fork (L : Layout) (i : Nat) (k : Kernel) : Except Halt (Nat × Kernel) :=
  match allocproc k with
  | (none, k) => .ok (minusOne, k)
  | (some n, k) => do
    let curproc := k.proc i
    let np := k.proc n
    let pd ← curproc.dir
    let (d, m) ← copyuvm L pd curproc.sz k.mem
    match d with
    | none => do
      let m ← kfreePtr L np.kstack m
      let np := { np with pgdir := none, kstack := none, state := .unused }
      .ok (minusOne, { k with mem := m }.setProc n np)
    | some d => do
      let fs ← dupFiles curproc.ofile (List.range nofile) k.files
      let np := { np with
        pgdir := some d
        sz := curproc.sz
        parent := some i
        tf := { curproc.tf with eax := 0 }
        ofile := fun fd => (curproc.ofile fd).orElse fun _ => np.ofile fd
        name := curproc.name
        state := .runnable }
      .ok (np.pid, { k with mem := m, files := fs }.setProc n np)

/-! ## Ending processes -/

/-- `fileclose` of every open file among the given descriptors. -/
def closeFiles (L : Layout) (ofile : Nat → Option Nat) :
    List Nat → Files → Kmem → Except Halt (Files × Kmem)
  | [], fs, m => .ok (fs, m)
  | fd :: fds, fs, m =>
    match ofile fd with
    | none => closeFiles L ofile fds fs m
    | some f => do
      let (fs, m) ← fileclose L f fs m
      closeFiles L ofile fds fs m

/-- Pass the children of process `i` to init. -/
def Kernel.reparent (k : Kernel) (i : Nat) (p : Proc) : Proc :=
  if p.parent = some i then { p with parent := k.initproc } else p

def exit (L : Layout) (i : Nat) (k : Kernel) : Except Halt Kernel :=
  if k.initproc = some i then .error (.panic .initExiting)
  else do
    let curproc := k.proc i
    let (fs, m) ← closeFiles L curproc.ofile (List.range nofile) k.files k.mem
    let curproc := { k.reparent i curproc with ofile := fun _ => none, state := .zombie }
    let proc := fun j => k.reparent i (k.proc j)
    .ok ({ k with mem := m, files := fs, proc := proc }.setProc i curproc)

/-- The result `none` says that the process goes to sleep. -/
def wait (L : Layout) (i : Nat) (k : Kernel) : Except Halt (Option Nat × Kernel) :=
  let child := fun j => (k.proc j).parent = some i
  match (List.range nproc).find? fun j => child j ∧ (k.proc j).state = .zombie with
  | some j => do
    let p := k.proc j
    let m ← kfreePtr L p.kstack k.mem
    let m ← freevmPtr L p.pgdir m
    let p' := { p with
      kstack := none, pid := 0, parent := none, name := [], killed := false, state := .unused }
    .ok (some p.pid, { k with mem := m }.setProc j p')
  | none =>
    if !(List.range nproc).any (fun j => child j) || (k.proc i).killed then .ok (some minusOne, k)
    else .ok (none, k)

def kill (pid : Int) (k : Kernel) : Nat × Kernel :=
  match (List.range nproc).find? fun j => ((k.proc j).pid : Int) = pid with
  | none => (minusOne, k)
  | some j =>
    let p := k.proc j
    let state := if p.state = .sleeping then .runnable else p.state
    (0, k.setProc j { p with killed := true, state := state })

/-! ## Open files -/

/-- The descriptor and the file it stands for. -/
def argfd (p : Proc) (arg : Option CInt) : Option (Nat × Nat) :=
  match arg with
  | none => none
  | some fd =>
    if fd.val < 0 ∨ (nofile : Int) ≤ fd.val then none
    else (p.ofile fd.val.toNat).map fun f => (fd.val.toNat, f)

def Proc.setFd (p : Proc) (fd : Nat) (f : Option Nat) : Proc :=
  { p with ofile := Function.update p.ofile fd f }

def fdalloc (p : Proc) (f : Nat) : Option (Nat × Proc) :=
  match (List.range nofile).find? fun fd => (p.ofile fd).isNone with
  | none => none
  | some fd => some (fd, p.setFd fd (some f))

def sysDup (i : Nat) (arg : Option CInt) (k : Kernel) : Except Halt (Nat × Kernel) :=
  match argfd (k.proc i) arg with
  | none => .ok (minusOne, k)
  | some (_, f) =>
    match fdalloc (k.proc i) f with
    | none => .ok (minusOne, k)
    | some (fd, p) => do
      let fs ← filedup f k.files
      .ok (fd, { k with files := fs }.setProc i p)

def sysClose (L : Layout) (i : Nat) (arg : Option CInt) (k : Kernel) : Except Halt (Nat × Kernel) :=
  match argfd (k.proc i) arg with
  | none => .ok (minusOne, k)
  | some (fd, f) => do
    let (fs, m) ← fileclose L f k.files k.mem
    .ok (0, { k with files := fs, mem := m }.setProc i ((k.proc i).setFd fd none))

/-- The flag is the outcome of the call of `argptr`. -/
def sysPipe (L : Layout) (i : Nat) (arg : Bool) (k : Kernel) : Except Halt (Nat × Kernel) :=
  if !arg then .ok (minusOne, k)
  else do
    let (r, fs, m) ← pipealloc L k.files k.mem
    match r with
    | none => .ok (minusOne, { k with files := fs, mem := m })
    | some (rf, wf) =>
      let fds := (fdalloc (k.proc i) rf).bind fun (_, p) => fdalloc p wf
      match fds with
      | some (_, p) => .ok (0, { k with files := fs, mem := m }.setProc i p)
      | none => do
        -- a descriptor taken for the read end has been given back
        let (fs, m) ← fileclose L rf fs m
        let (fs, m) ← fileclose L wf fs m
        .ok (minusOne, { k with files := fs, mem := m })

/-! ## Steps -/

inductive Op
  | mem (op : MemOp)
  | fork
  | exit
  | wait
  | kill (arg : Option CInt)
  | dup (arg : Option CInt)
  | close (arg : Option CInt)
  | pipe (arg : Bool)

/-- A system call or an access, without the checks of `killed` around it. -/
def Kernel.call (L : Layout) (i : Nat) (op : Op) (k : Kernel) :
    Except Halt (Option Reply × Kernel) :=
  match op with
  | .mem op => do
    let (r, p, m) ← op.run L (k.proc i) k.mem
    .ok (some r, { k with mem := m }.setProc i p)
  | .fork => do
    let (r, k) ← Xv6.fork L i k
    .ok (some (.word r), k)
  | .exit => do
    let k ← Xv6.exit L i k
    .ok (none, k)
  | .wait => do
    let (r, k) ← Xv6.wait L i k
    .ok (r.map .word, k)
  | .kill none => .ok (some (.word minusOne), k)
  | .kill (some pid) => let (r, k) := Xv6.kill pid.val k; .ok (some (.word r), k)
  | .dup arg => do
    let (r, k) ← sysDup i arg k
    .ok (some (.word r), k)
  | .close arg => do
    let (r, k) ← sysClose L i arg k
    .ok (some (.word r), k)
  | .pipe arg => do
    let (r, k) ← sysPipe L i arg k
    .ok (some (.word r), k)

/-- Whether `trap` is entered through a page fault or not at all, so that `killed` is not
tested first. -/
def Op.isAccess : Op → Bool
  | .mem (.access _ _) => true
  | _ => false

/-- What `trap` and the hardware make of an operation: a process that has been killed exits
instead of making a system call, and after a page fault.  A process may have been killed
while it slept in `wait`, so that call goes on. -/
def Kernel.run (L : Layout) (i : Nat) (op : Op) (k : Kernel) :
    Except Halt (Option Reply × Kernel) :=
  if op.isAccess then do
    let (r, k) ← k.call L i op
    match r with
    | some (.access (.fault _)) => if (k.proc i).killed then k.call L i .exit else .ok (r, k)
    | _ => .ok (r, k)
  else
    match op with
    | .wait => k.call L i .wait
    | op => if (k.proc i).killed then k.call L i .exit else k.call L i op

/-- Process `a.1` takes the step `a.2`. -/
def Kernel.Step (L : Layout) (k : Kernel) (a : Nat × Op) (k' : Kernel) : Prop :=
  a.1 < nproc ∧ (k.proc a.1).state = .runnable ∧ ∃ r, k.run L a.1 a.2 = .ok (r, k')

end RandomRepo.Xv6

import Mathlib.Algebra.GroupWithZero.Nat
import Mathlib.Data.List.FinRange
import RandomRepo.Lib.Run
import RandomRepo.Xv6.Proc

/-!
# The process tree

`fork`, `exit`, `wait` and `kill` of `proc.c` with the scheduler, over the process
table alone.  What runs with `ptable.lock` held is one step.  `fork` also writes to
the slot it has taken without the lock; each of these writes is a step of its own.
The slot is an `EMBRYO` then, in which nobody else does anything but set `killed`.

A process that sleeps in `wait` goes on with the lock held when it is resumed, so
this is one step with its scheduling.  `sleep` and `wakeup` on channels other than
processes stand for the rest of the kernel.

`birth` is the number with which `allocproc` has counted the process; its pid is the
low half of it.  With `forks`, `exits` and `waits`, which say what these calls
have returned, it is a history variable.
-/

namespace RandomRepo.Xv6

abbrev Pslot : Type := Fin nproc

instance : NeZero nproc := ⟨Nat.succ_ne_zero _⟩

inductive TreeChan
  | proc (p : Pslot)
  | other (c : Nat)
  deriving DecidableEq, Repr

/-- Where a process is between two steps. -/
inductive TreePlace
  | user
  /-- In `fork`, after `allocproc` has taken the slot. -/
  | forking (np : Pslot)
  /-- In `fork`, after `np->parent = curproc`. -/
  | linked (np : Pslot)
  /-- In `sleep`, called from `wait`. -/
  | waiting
  deriving DecidableEq, Repr

structure TreeProc where
  state : ProcState
  pid : UInt32
  parent : Option Pslot
  chan : Option TreeChan
  killed : Bool
  place : TreePlace
  birth : Nat
  deriving DecidableEq, Repr

/-- A `fork` that has returned to the parent. -/
structure Forked where
  child : Nat
  pid : UInt32
  parent : Nat
  deriving DecidableEq, Repr

/-- A `wait` that has returned a pid. -/
structure Reaped where
  child : Nat
  pid : UInt32
  reaper : Nat
  deriving DecidableEq, Repr

structure TreeSys where
  proc : Pslot → TreeProc
  nextpid : Nat
  forks : List Forked
  exits : List Nat
  waits : List Reaped

inductive TreeAct
  | schedule (i : Pslot)
  | yield (i : Pslot)
  | sleep (i : Pslot) (c : Nat)
  | wakeup (c : Nat)
  | fork (i : Pslot)
  | forkFail (i : Pslot)
  | forkLink (i : Pslot)
  | forkRun (i : Pslot)
  | exit (i : Pslot)
  | wait (i : Pslot)
  | kill (pid : UInt32)

namespace TreeSys

/-- The slot that `userinit` takes. -/
def initproc : Pslot := 0

def setProc (s : TreeSys) (i : Pslot) (p : TreeProc) : TreeSys :=
  { s with proc := Function.update s.proc i p }

theorem setProc_self (s : TreeSys) (i : Pslot) (p : TreeProc) : (s.setProc i p).proc i = p :=
  Function.update_self ..

theorem setProc_of_ne {s : TreeSys} {i j : Pslot} (h : j ≠ i) (p : TreeProc) :
    (s.setProc i p).proc j = s.proc j :=
  Function.update_of_ne h ..

def at_ (s : TreeSys) (i : Pslot) (x : TreePlace) : TreeSys :=
  s.setProc i { s.proc i with place := x }

/-! ## Sleeping and waking -/

def rouse (chan : Option TreeChan) (p : TreeProc) : TreeProc :=
  if p.state = .sleeping ∧ p.chan = chan then { p with state := .runnable } else p

def wakeup1 (chan : Option TreeChan) (s : TreeSys) : TreeSys :=
  { s with proc := fun j => rouse chan (s.proc j) }

def kill (pid : UInt32) (s : TreeSys) : TreeSys :=
  match (List.finRange nproc).find? fun j => (s.proc j).pid = pid with
  | none => s
  | some j =>
    let p := s.proc j
    let state := if p.state = .sleeping then .runnable else p.state
    s.setProc j { p with killed := true, state := state }

/-! ## Creating processes -/

/-- `allocproc`, up to the kernel stack. -/
def fork (i : Pslot) (s : TreeSys) : TreeSys :=
  match (List.finRange nproc).find? fun j => (s.proc j).state = .unused with
  | none => s
  | some n =>
    let p := { s.proc n with state := .embryo, pid := .ofNat s.nextpid, birth := s.nextpid }
    ({ s with nextpid := s.nextpid + 1 }.setProc n p).at_ i (.forking n)

/-- There is no page for the kernel stack, or `copyuvm` fails. -/
def forkFail (i n : Pslot) (s : TreeSys) : TreeSys :=
  (s.setProc n { s.proc n with state := .unused }).at_ i .user

def forkLink (i n : Pslot) (s : TreeSys) : TreeSys :=
  (s.setProc n { s.proc n with parent := some i }).at_ i (.linked n)

def forkRun (i n : Pslot) (s : TreeSys) : TreeSys :=
  let f : Forked := ⟨(s.proc n).birth, (s.proc n).pid, (s.proc i).birth⟩
  ({ s with forks := f :: s.forks }.setProc n { s.proc n with state := .runnable }).at_ i .user

/-! ## Ending processes -/

/-- Pass abandoned children to init. -/
def passChildren (cur : Pslot) : List Pslot → TreeSys → TreeSys
  | [], s => s
  | p :: ps, s =>
    if (s.proc p).parent = some cur then
      let s := s.setProc p { s.proc p with parent := some initproc }
      passChildren cur ps
        (if (s.proc p).state = .zombie then s.wakeup1 (some (.proc initproc)) else s)
    else passChildren cur ps s

/-- The last part of `exit`; `none` is the panic of init. -/
def exit (i : Pslot) (s : TreeSys) : Option TreeSys :=
  if i = initproc then none
  else
    let s := s.wakeup1 ((s.proc i).parent.map .proc)
    let s := passChildren i (List.finRange nproc) s
    some ({ s with exits := (s.proc i).birth :: s.exits }.setProc i
      { s.proc i with state := .zombie })

/-- Look for an exited child; the flag is `havekids`. -/
def waitScan (cur : Pslot) (s : TreeSys) : List Pslot → Bool → Option Pslot × Bool
  | [], kids => (none, kids)
  | p :: ps, kids =>
    if (s.proc p).parent ≠ some cur then waitScan cur s ps kids
    else if (s.proc p).state = .zombie then (some p, true)
    else waitScan cur s ps true

def reap (i c : Pslot) (s : TreeSys) : TreeSys :=
  let r : Reaped := ⟨(s.proc c).birth, (s.proc c).pid, (s.proc i).birth⟩
  { s with waits := r :: s.waits }.setProc c
    { s.proc c with pid := 0, parent := none, killed := false, state := .unused }

/-- A turn of the outer loop of `wait`. -/
def waitLoop (i : Pslot) (s : TreeSys) : TreeSys :=
  match s.waitScan i (List.finRange nproc) false with
  | (some c, _) => (s.reap i c).at_ i .user
  | (none, kids) =>
    if !kids || (s.proc i).killed then s.at_ i .user
    else s.setProc i
      { s.proc i with chan := some (.proc i), state := .sleeping, place := .waiting }

/-- The scheduler resumes the process; in `sleep` this clears `p->chan`. -/
def schedule (i : Pslot) (s : TreeSys) : TreeSys :=
  let t := s.setProc i { s.proc i with state := .running, chan := none }
  if (s.proc i).place = .waiting then t.waitLoop i else t

/-! ## Steps -/

def act (s : TreeSys) : TreeAct → Option TreeSys
  | .schedule i => if (s.proc i).state = .runnable then some (s.schedule i) else none
  | .yield i =>
    if (s.proc i).state = .running then some (s.setProc i { s.proc i with state := .runnable })
    else none
  | .sleep i c =>
    if (s.proc i).state = .running ∧ (s.proc i).place = .user then
      some (s.setProc i { s.proc i with state := .sleeping, chan := some (.other c) })
    else none
  | .wakeup c => some (s.wakeup1 (some (.other c)))
  | .fork i =>
    if (s.proc i).state = .running ∧ (s.proc i).place = .user then some (s.fork i) else none
  | .forkFail i =>
    match (s.proc i).place with
    | .forking n => if (s.proc i).state = .running then some (s.forkFail i n) else none
    | _ => none
  | .forkLink i =>
    match (s.proc i).place with
    | .forking n => if (s.proc i).state = .running then some (s.forkLink i n) else none
    | _ => none
  | .forkRun i =>
    match (s.proc i).place with
    | .linked n => if (s.proc i).state = .running then some (s.forkRun i n) else none
    | _ => none
  | .exit i => if (s.proc i).state = .running ∧ (s.proc i).place = .user then s.exit i else none
  | .wait i =>
    if (s.proc i).state = .running ∧ (s.proc i).place = .user then some (s.waitLoop i) else none
  | .kill pid => some (s.kill pid)

def Step (s : TreeSys) (a : TreeAct) (s' : TreeSys) : Prop := s.act a = some s'

/-- The process table as `userinit` leaves it. -/
def boot : TreeSys where
  proc := fun i =>
    if i = initproc then ⟨.runnable, 1, none, none, false, .user, 1⟩
    else ⟨.unused, 0, none, none, false, .user, 0⟩
  nextpid := 2
  forks := []
  exits := []
  waits := []

end TreeSys

end RandomRepo.Xv6

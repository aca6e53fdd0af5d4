import RandomRepo.Lib.Run
import RandomRepo.Lib.RingQueue

/-!
# Pipes

`pipe.c` with `sleep`, `wakeup` and `kill` of `proc.c`, for one pipe and any number
of processes.  Every process is at a place of `pipewrite`, `piperead` or
`pipeclose`.  Between two places it takes one step: it takes or drops a lock, makes a
test, or copies one byte.  `p->lock` and `ptable.lock` are the names of the
processes that hold them.  What runs with `ptable.lock` held from its beginning to
its end is one step; `sleep` drops `p->lock` in the middle, so it is two.

`sent` and `received` are history variables: the bytes stored in the pipe, and those
taken from it, in their order.
-/

namespace RandomRepo.Xv6

def pipesize : Nat := 512

/-- What a process sleeps on. -/
inductive PipeChan
  | nread | nwrite
  deriving DecidableEq, Repr

/-- A call with what is left to do: the bytes to write, the number of bytes to read, or the
end to close. -/
inductive PipeCall
  | write (rest : List UInt8)
  | read (n : Nat)
  | close (writable : Bool)
  deriving DecidableEq, Repr

/-- The channel on which the call sleeps. -/
def PipeCall.chan : PipeCall → PipeChan
  | .write _ => .nwrite
  | _ => .nread

inductive PipePlace
  /-- In no call. -/
  | out
  /-- Before `acquire(&p->lock)`. -/
  | enter (c : PipeCall)
  /-- In the loop of `pipewrite`; `fresh` if bytes were stored since the last `wakeup`. -/
  | write (rest : List UInt8) (fresh : Bool)
  /-- Before the `wakeup` in the loop. -/
  | full (rest : List UInt8)
  /-- In the first loop of `piperead`. -/
  | test (n : Nat)
  /-- In the second loop of `piperead`. -/
  | copy (n : Nat)
  /-- In `pipeclose`, with the lock. -/
  | close (writable : Bool)
  /-- In `sleep`, before `acquire(&ptable.lock)`. -/
  | sleep (c : PipeCall)
  /-- In `sleep`, after `release(lk)`. -/
  | drop (c : PipeCall)
  /-- Switched away in `sleep`. -/
  | asleep (c : PipeCall)
  /-- Before the last `wakeup`. -/
  | wake (ch : PipeChan)
  /-- Before the last `release(&p->lock)`. -/
  | leave
  deriving DecidableEq, Repr

structure PipeSys where
  data : Nat → UInt8
  nread : UInt32
  nwrite : UInt32
  readopen : Bool
  writeopen : Bool
  lock : Option Nat
  ptable : Option Nat
  place : Nat → PipePlace
  /-- The channel of a process that is `SLEEPING`. -/
  chan : Nat → Option PipeChan
  killed : Nat → Bool
  sent : List UInt8
  received : List UInt8

inductive PipeAct
  | call (i : Nat) (c : PipeCall)
  | run (i : Nat)
  | kill (i : Nat)

namespace PipeSys

def at_ (s : PipeSys) (i : Nat) (x : PipePlace) : PipeSys :=
  { s with place := Function.update s.place i x }

/-- Every process that sleeps on the channel is made runnable. -/
def wakeup (ch : PipeChan) (s : PipeSys) : PipeSys :=
  { s with chan := fun j => if s.chan j = some ch then none else s.chan j }

/-- Take `p->lock`. -/
def acquire (i : Nat) (x : PipePlace) (s : PipeSys) : Option PipeSys :=
  if s.lock = none then some ({ s with lock := some i }.at_ i x) else none

/-- Drop `p->lock` and return. -/
def return_ (i : Nat) (s : PipeSys) : PipeSys := { s with lock := none }.at_ i .out

/-- `wakeup`, which takes `ptable.lock`. -/
def waking (i : Nat) (ch : PipeChan) (x : PipePlace) (s : PipeSys) : Option PipeSys :=
  if s.ptable = none then some ((s.wakeup ch).at_ i x) else none

/-- A turn of the loop of `pipewrite`. -/
def writeLoop (i : Nat) (s : PipeSys) : List UInt8 → PipeSys
  | [] => s.at_ i (.wake .nread)
  | b :: rest =>
    if s.nwrite = s.nread + .ofNat pipesize then
      if !s.readopen || s.killed i then s.return_ i else s.at_ i (.full (b :: rest))
    else
      { s with
        data := Function.update s.data (s.nwrite.toNat % pipesize) b
        nwrite := s.nwrite + 1
        sent := s.sent ++ [b] }.at_ i (.write rest true)

/-- A turn of the first loop of `piperead`. -/
def readTest (i n : Nat) (s : PipeSys) : PipeSys :=
  if s.nread = s.nwrite && s.writeopen then
    if s.killed i then s.return_ i else s.at_ i (.sleep (.read n))
  else s.at_ i (.copy n)

/-- A turn of the second loop of `piperead`. -/
def readCopy (i : Nat) (s : PipeSys) : Nat → PipeSys
  | 0 => s.at_ i (.wake .nwrite)
  | n + 1 =>
    if s.nread = s.nwrite then s.at_ i (.wake .nwrite)
    else
      { s with
        nread := s.nread + 1
        received := s.received ++ [s.data (s.nread.toNat % pipesize)] }.at_ i (.copy n)

def closeEnd (i : Nat) (writable : Bool) (s : PipeSys) : PipeSys :=
  if writable then { s with writeopen := false }.at_ i (.wake .nread)
  else { s with readopen := false }.at_ i (.wake .nwrite)

/-- The next step of a process; `none` if it is in no call, waits for a lock or sleeps. -/
def run (i : Nat) (s : PipeSys) : Option PipeSys :=
  match s.place i with
  | .out => none
  | .enter (.write rest) => s.acquire i (.write rest false)
  | .enter (.read n) => s.acquire i (.test n)
  | .enter (.close w) => s.acquire i (.close w)
  | .write rest _ => some (s.writeLoop i rest)
  | .full rest => s.waking i .nread (.sleep (.write rest))
  | .test n => some (s.readTest i n)
  | .copy n => some (s.readCopy i n)
  | .close w => some (s.closeEnd i w)
  | .sleep c =>
    if s.ptable = none then some ({ s with ptable := some i, lock := none }.at_ i (.drop c))
    else none
  | .drop c =>
    some ({ s with ptable := none, chan := Function.update s.chan i (some c.chan) }.at_ i
      (.asleep c))
  | .asleep c =>
    if s.chan i = none ∧ s.ptable = none then some (s.at_ i (.enter c)) else none
  | .wake ch => s.waking i ch .leave
  | .leave => some (s.return_ i)

def act (s : PipeSys) : PipeAct → Option PipeSys
  | .call i c => if s.place i = .out then some (s.at_ i (.enter c)) else none
  | .run i => s.run i
  | .kill i =>
    if s.ptable = none then
      some { s with
        killed := Function.update s.killed i true
        chan := Function.update s.chan i none }
    else none

def Step (s : PipeSys) (a : PipeAct) (s' : PipeSys) : Prop := s.act a = some s'

/-- A pipe as `pipealloc` leaves it. -/
def init : PipeSys where
  data := fun _ => 0
  nread := 0
  nwrite := 0
  readopen := true
  writeopen := true
  lock := none
  ptable := none
  place := fun _ => .out
  chan := fun _ => none
  killed := fun _ => false
  sent := []
  received := []

/-! ## What a step does -/

/-- The place with which a call starts once it has the lock. -/
def start : PipeCall → PipePlace
  | .write rest => .write rest false
  | .read n => .test n
  | .close w => .close w

/-- The steps of process `i`. -/
inductive Runs (s : PipeSys) (i : Nat) : PipeSys → Prop
  | acquire (c : PipeCall) (place : s.place i = .enter c) (free : s.lock = none) :
      Runs s i ({ s with lock := some i }.at_ i (start c))
  | written (fresh : Bool) (place : s.place i = .write [] fresh) :
      Runs s i (s.at_ i (.wake .nread))
  | giveUp (b : UInt8) (rest : List UInt8) (fresh : Bool) (place : s.place i = .write (b :: rest) fresh)
      (full : s.nwrite = s.nread + .ofNat pipesize) (cause : s.readopen = false ∨ s.killed i = true) :
      Runs s i (s.return_ i)
  | stuck (b : UInt8) (rest : List UInt8) (fresh : Bool) (place : s.place i = .write (b :: rest) fresh)
      (full : s.nwrite = s.nread + .ofNat pipesize) (readers : s.readopen = true) :
      Runs s i (s.at_ i (.full (b :: rest)))
  | store (b : UInt8) (rest : List UInt8) (fresh : Bool) (place : s.place i = .write (b :: rest) fresh)
      (room : s.nwrite ≠ s.nread + .ofNat pipesize) :
      Runs s i ({ s with
        data := Function.update s.data (s.nwrite.toNat % pipesize) b
        nwrite := s.nwrite + 1
        sent := s.sent ++ [b] }.at_ i (.write rest true))
  | prod (rest : List UInt8) (place : s.place i = .full rest) (free : s.ptable = none) :
      Runs s i ((s.wakeup .nread).at_ i (.sleep (.write rest)))
  | killed (n : Nat) (place : s.place i = .test n) (empty : s.nread = s.nwrite) :
      Runs s i (s.return_ i)
  | idle (n : Nat) (place : s.place i = .test n) (empty : s.nread = s.nwrite)
      (writers : s.writeopen = true) : Runs s i (s.at_ i (.sleep (.read n)))
  | ready (n : Nat) (place : s.place i = .test n) : Runs s i (s.at_ i (.copy n))
  | copied (n : Nat) (place : s.place i = .copy n) : Runs s i (s.at_ i (.wake .nwrite))
  | take (n : Nat) (place : s.place i = .copy (n + 1)) (some_ : s.nread ≠ s.nwrite) :
      Runs s i ({ s with
        nread := s.nread + 1
        received := s.received ++ [s.data (s.nread.toNat % pipesize)] }.at_ i (.copy n))
  | closeWrite (place : s.place i = .close true) :
      Runs s i ({ s with writeopen := false }.at_ i (.wake .nread))
  | closeRead (place : s.place i = .close false) :
      Runs s i ({ s with readopen := false }.at_ i (.wake .nwrite))
  | drop (c : PipeCall) (place : s.place i = .sleep c) (free : s.ptable = none) :
      Runs s i ({ s with ptable := some i, lock := none }.at_ i (.drop c))
  | sleep (c : PipeCall) (place : s.place i = .drop c) :
      Runs s i ({ s with
        ptable := none, chan := Function.update s.chan i (some c.chan) }.at_ i (.asleep c))
  | resume (c : PipeCall) (place : s.place i = .asleep c) (awake : s.chan i = none) :
      Runs s i (s.at_ i (.enter c))
  | wake (ch : PipeChan) (place : s.place i = .wake ch) (free : s.ptable = none) :
      Runs s i ((s.wakeup ch).at_ i .leave)
  | leave (place : s.place i = .leave) : Runs s i (s.return_ i)

variable {s s' : PipeSys} {i : Nat}

theorem writeLoop_runs {fresh : Bool} {rest : List UInt8} (place : s.place i = .write rest fresh) :
    Runs s i (s.writeLoop i rest) := by
  cases rest with
  | nil => exact .written fresh place
  | cons b rest =>
    rw [writeLoop]
    split_ifs with full stop
    · exact .giveUp b rest fresh place full (by simpa using stop)
    · exact .stuck b rest fresh place full (by simp at stop; exact stop.1)
    · exact .store b rest fresh place full

theorem readTest_runs {n : Nat} (place : s.place i = .test n) : Runs s i (s.readTest i n) := by
  rw [readTest]
  split_ifs with waits stop
  · simp only [Bool.and_eq_true, decide_eq_true_eq] at waits
    exact .killed n place waits.1
  · simp only [Bool.and_eq_true, decide_eq_true_eq] at waits
    exact .idle n place waits.1 waits.2
  · exact .ready n place

theorem readCopy_runs {n : Nat} (place : s.place i = .copy n) : Runs s i (s.readCopy i n) := by
  cases n with
  | zero => exact .copied 0 place
  | succ n =>
    rw [readCopy]
    split_ifs with empty
    · exact .copied (n + 1) place
    · exact .take n place empty

theorem run_runs (h : s.run i = some s') : Runs s i s' := by
  unfold run at h
  split at h
  case h_1 => cases h
  case h_2 rest place =>
    unfold acquire at h
    split_ifs at h with free
    cases h
    exact .acquire (.write rest) place free
  case h_3 n place =>
    unfold acquire at h
    split_ifs at h with free
    cases h
    exact .acquire (.read n) place free
  case h_4 w place =>
    unfold acquire at h
    split_ifs at h with free
    cases h
    exact .acquire (.close w) place free
  case h_5 rest fresh place =>
    cases h
    exact writeLoop_runs place
  case h_6 rest place =>
    unfold waking at h
    split_ifs at h with free
    cases h
    exact .prod rest place free
  case h_7 n place =>
    cases h
    exact readTest_runs place
  case h_8 n place =>
    cases h
    exact readCopy_runs place
  case h_9 w place =>
    cases h
    rw [closeEnd]
    cases w with
    | true => exact .closeWrite place
    | false => exact .closeRead place
  case h_10 c place =>
    split_ifs at h with free
    cases h
    exact .drop c place free
  case h_11 c place =>
    cases h
    exact .sleep c place
  case h_12 c place =>
    split_ifs at h with awake
    cases h
    exact .resume c place awake.1
  case h_13 ch place =>
    unfold waking at h
    split_ifs at h with free
    cases h
    exact .wake ch place free
  case h_14 place =>
    cases h
    exact .leave place

/-- The steps of the whole system. -/
inductive Acts (s : PipeSys) : PipeAct → PipeSys → Prop
  | call (i : Nat) (c : PipeCall) (place : s.place i = .out) :
      Acts s (.call i c) (s.at_ i (.enter c))
  | run (i : Nat) (s' : PipeSys) (runs : Runs s i s') : Acts s (.run i) s'
  | kill (i : Nat) (free : s.ptable = none) :
      Acts s (.kill i) { s with
        killed := Function.update s.killed i true, chan := Function.update s.chan i none }

theorem Step.acts {a : PipeAct} (step : Step s a s') : Acts s a s' := by
  unfold Step act at step
  cases a with
  | call i c =>
    dsimp only at step
    split_ifs at step with place
    cases step
    exact .call i c place
  | run i => exact .run i s' (run_runs step)
  | kill i =>
    dsimp only at step
    split_ifs at step with free
    cases step
    exact .kill i free

end PipeSys

end RandomRepo.Xv6

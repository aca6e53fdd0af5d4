import Mathlib.Algebra.GroupWithZero.Nat
import RandomRepo.Lib.LinkedRing
import RandomRepo.Lib.Run
import RandomRepo.Xv6.Log

/-!
# The buffer cache

`bio.c` for `n` users of buffers.  A user asks for a block with `bread`, changes the data
and calls `log_write` or `bwrite` any number of times, and gives the buffer back with
`brelse`; a process that holds several buffers at once is several users.

What runs with `bcache.lock` held is one step.  The flags of a buffer are written
without this lock, but only by a process that has a reference to it, and `bget`
looks at them only if nobody has.  A sleep lock is the name of its holder.  The driver
(`iderw`) copies a whole block when its request is done.  Callers change `b->data`
while they hold the lock of the buffer, and then call `log_write` or `bwrite`; the
change and the call are one step.

`last` is a history variable: the data that were logged or written last for a block.
-/

namespace RandomRepo.Xv6

def nbuf : Nat := maxopblocks * 3

abbrev Bslot : Type := Fin nbuf

instance : NeZero nbuf := ⟨Nat.succ_ne_zero _⟩

/-- A device and a block on it. -/
structure BlockId where
  dev : UInt32
  blockno : UInt32
  deriving DecidableEq, Repr

structure Buf (n : Nat) where
  /-- `B_VALID` and `B_DIRTY`. -/
  valid : Bool
  dirty : Bool
  id : BlockId
  lock : Option (Fin n)
  refcnt : Nat
  data : Block

inductive BufPlace
  | idle
  /-- In `bget`, before `acquire(&bcache.lock)`. -/
  | want (k : BlockId)
  /-- In `acquiresleep(&b->lock)`. -/
  | wait (k : BlockId) (b : Bslot)
  /-- In `bread`, at the test of `B_VALID`. -/
  | check (k : BlockId) (b : Bslot)
  /-- In `iderw`, called from `bread`. -/
  | read (k : BlockId) (b : Bslot)
  /-- After `bread`, with the buffer locked. -/
  | hold (k : BlockId) (b : Bslot)
  /-- In `iderw`, called from `bwrite`. -/
  | write (k : BlockId) (b : Bslot)
  /-- In `brelse`, after `releasesleep`. -/
  | drop (k : BlockId) (b : Bslot)
  deriving DecidableEq, Repr

structure BufSys (n : Nat) where
  buf : Bslot → Buf n
  /-- The pointers `prev` and `next`; `none` is `&bcache.head`. -/
  links : Links (Option Bslot)
  disk : BlockId → Block
  place : Fin n → BufPlace
  last : BlockId → Block

inductive BufAct (n : Nat)
  | bread (i : Fin n) (k : BlockId)
  | logWrite (i : Fin n) (data : Block)
  | bwrite (i : Fin n) (data : Block)
  | brelse (i : Fin n)
  | run (i : Fin n)

namespace BufSys

variable {n : Nat}

def setBuf (s : BufSys n) (b : Bslot) (q : Buf n) : BufSys n :=
  { s with buf := Function.update s.buf b q }

def at_ (s : BufSys n) (i : Fin n) (x : BufPlace) : BufSys n :=
  { s with place := Function.update s.place i x }

/-- The loops of `bget`, from `bcache.head.next` and from `bcache.head.prev`. -/
def search (step : Option Bslot → Option Bslot) (p : Bslot → Bool) : Option Bslot :=
  (Links.search step none (fun x => x.any p) (nbuf + 1) (step none)).join

/-- Is the block already cached? -/
def cached (s : BufSys n) (k : BlockId) : Option Bslot :=
  search s.links.next fun b => (s.buf b).id = k

/-- An unused buffer. -/
def unused (s : BufSys n) : Option Bslot :=
  search s.links.prev fun b => (s.buf b).refcnt = 0 ∧ (s.buf b).dirty = false

/-- `none` is the panic "bget: no buffers". -/
def bget (i : Fin n) (k : BlockId) (s : BufSys n) : Option (BufSys n) :=
  match s.cached k with
  | some b =>
    some ((s.setBuf b { s.buf b with refcnt := (s.buf b).refcnt + 1 }).at_ i (.wait k b))
  | none =>
    match s.unused with
    | some b =>
      some ((s.setBuf b { s.buf b with
        id := k, valid := false, dirty := false, refcnt := 1 }).at_ i (.wait k b))
    | none => none

def acquiresleep (i : Fin n) (b : Bslot) (x : BufPlace) (s : BufSys n) : Option (BufSys n) :=
  if (s.buf b).lock = none then some ((s.setBuf b { s.buf b with lock := some i }).at_ i x)
  else none

/-- The driver writes a dirty buffer and reads the others. -/
def iderw (i : Fin n) (b : Bslot) (x : BufPlace) (s : BufSys n) : BufSys n :=
  let q := s.buf b
  if q.dirty then
    ({ s with disk := Function.update s.disk q.id q.data }.setBuf b
      { q with valid := true, dirty := false }).at_ i x
  else (s.setBuf b { q with data := s.disk q.id, valid := true }).at_ i x

/-- The rest of `brelse`: move to the head of the list. -/
def unref (i : Fin n) (b : Bslot) (s : BufSys n) : BufSys n :=
  let t := (s.setBuf b { s.buf b with refcnt := (s.buf b).refcnt - 1 }).at_ i .idle
  if (s.buf b).refcnt - 1 = 0 then
    { t with links := (t.links.unlink (some b)).pushFront none (some b) }
  else t

/-- The next step of a user; `none` if it is in no call or waits for a lock. -/
def run (i : Fin n) (s : BufSys n) : Option (BufSys n) :=
  match s.place i with
  | .idle | .hold _ _ => none
  | .want k => s.bget i k
  | .wait k b => s.acquiresleep i b (.check k b)
  | .check k b => some (s.at_ i (if (s.buf b).valid then .hold k b else .read k b))
  | .read k b => some (s.iderw i b (.hold k b))
  | .write k b => some (s.iderw i b (.hold k b))
  | .drop _ b => some (s.unref i b)

/-- `B_DIRTY` is set and the data are the last ones for the block. -/
def mark (b : Bslot) (data : Block) (s : BufSys n) : BufSys n :=
  { s with last := Function.update s.last (s.buf b).id data }.setBuf b
    { s.buf b with data := data, dirty := true }

def act (s : BufSys n) : BufAct n → Option (BufSys n)
  | .bread i k => if s.place i = .idle then some (s.at_ i (.want k)) else none
  | .logWrite i data =>
    match s.place i with
    | .hold _ b => some (s.mark b data)
    | _ => none
  | .bwrite i data =>
    match s.place i with
    | .hold k b => some ((s.mark b data).at_ i (.write k b))
    | _ => none
  | .brelse i =>
    match s.place i with
    | .hold k b => some ((s.setBuf b { s.buf b with lock := none }).at_ i (.drop k b))
    | _ => none
  | .run i => s.run i

def Step (s : BufSys n) (a : BufAct n) (s' : BufSys n) : Prop := s.act a = some s'

/-- The list that `binit` builds: the head alone, and then every buffer put in front. -/
def binitLinks : Links (Option Bslot) :=
  ((List.finRange nbuf).map some).foldl (fun L b => L.pushFront none b)
    ⟨fun _ => none, fun _ => none⟩

/-- The cache after `binit`, with what is on the disk. -/
def init (n : Nat) (disk : BlockId → Block) : BufSys n where
  buf := fun _ => ⟨false, false, ⟨0, 0⟩, none, 0, fun _ => 0⟩
  links := binitLinks
  disk := disk
  place := fun _ => .idle
  last := disk

end BufSys

end RandomRepo.Xv6

import RandomRepo.Lib.Writes
import RandomRepo.Xv6.Kalloc

/-!
# The log

`log.c`, with the disk as a store of blocks.  A block is seen as the 128 words of
its 512 bytes.  Of the buffer cache only the buffers with `B_DIRTY` matter: every
other buffer holds what the disk holds, whether it is still cached or read again.
`writes` is a history variable with the disk writes so far, in the order in
which they are issued.
-/

namespace RandomRepo.Xv6

def maxopblocks : Nat := 10

def logsize : Nat := maxopblocks * 3

abbrev Block := Fin 128 → UInt32

abbrev Disk := Nat → Block

/-- `log.start` and `log.size`: the header block and the blocks after it. -/
structure LogArea where
  start : Nat
  size : Nat
  size_pos : 0 < size
  deriving DecidableEq, Repr

/-- A block outside of the log. -/
def LogArea.Home (A : LogArea) (b : Nat) : Prop := b < A.start ∨ A.start + A.size ≤ b

instance (A : LogArea) (b : Nat) : Decidable (A.Home b) := inferInstanceAs (Decidable (_ ∨ _))

/-- The disk, the buffers that are not to be evicted, and the numbers in `log.lh`. -/
structure Store where
  disk : Disk
  dirty : Nat → Option Block
  lh : List UInt32
  writes : List (Nat × Block)

/-- After a crash only the disk is left. -/
def Store.fresh (d : Disk) : Store := ⟨d, fun _ => none, [], []⟩

def bread (s : Store) (b : Nat) : Block := (s.dirty b).getD (s.disk b)

def bwrite (b : Nat) (data : Block) (s : Store) : Store :=
  { s with
    disk := Function.update s.disk b data
    dirty := Function.update s.dirty b none
    writes := s.writes ++ [(b, data)] }

/-! ## The header block -/

/-- `n`, a signed number, as the bound of a loop. -/
def Block.count (h : Block) : Nat := if (h 0).toNat < 2147483648 then (h 0).toNat else 0

/-- The first `n` entries of `block`. -/
def Block.numbers (h : Block) (n : Nat) : List UInt32 :=
  (List.range n).map fun i => h (Fin.ofNat 128 (i + 1))

/-- The header with the numbers `lh`; entries after them are left as they are. -/
def Block.header (lh : List UInt32) (old : Block) : Block :=
  fun i => if i = 0 then UInt32.ofNat lh.length else lh[i.val - 1]?.getD (old i)

/-- `none` if the numbers do not fit into the array in memory. -/
def readHead (A : LogArea) (s : Store) : Option Store :=
  let h := bread s A.start
  if logsize < h.count then none else some { s with lh := h.numbers h.count }

def writeHead (A : LogArea) (s : Store) : Store :=
  bwrite A.start (Block.header s.lh (bread s A.start)) s

/-! ## Copying blocks -/

/-- The loop of `write_log` from `tail` on. -/
def writeLogFrom (A : LogArea) : Nat → List UInt32 → Store → Store
  | _, [], s => s
  | tail, b :: bs, s =>
    writeLogFrom A (tail + 1) bs (bwrite (A.start + tail + 1) (bread s b.toNat) s)

def writeLog (A : LogArea) (s : Store) : Store := writeLogFrom A 0 s.lh s

/-- The loop of `install_trans` from `tail` on. -/
def installFrom (A : LogArea) : Nat → List UInt32 → Store → Store
  | _, [], s => s
  | tail, b :: bs, s =>
    installFrom A (tail + 1) bs (bwrite b.toNat (bread s (A.start + tail + 1)) s)

def installTrans (A : LogArea) (s : Store) : Store := installFrom A 0 s.lh s

def recoverFromLog (A : LogArea) (s : Store) : Option Store :=
  (readHead A s).map fun s => writeHead A { installTrans A s with lh := [] }

def commit (A : LogArea) (s : Store) : Store :=
  if 0 < s.lh.length then
    let s := installTrans A (writeHead A (writeLog A s))
    writeHead A { s with lh := [] }
  else s

/-! ## `log_write` -/

/-- The first test of `log_write`. -/
def LogArea.Full (A : LogArea) (lh : List UInt32) : Prop :=
  logsize ≤ lh.length ∨ A.size - 1 ≤ lh.length

instance (A : LogArea) (lh : List UInt32) : Decidable (A.Full lh) :=
  inferInstanceAs (Decidable (_ ∨ _))

/-- A block that is in the log already is not added again. -/
def absorb (b : UInt32) : List UInt32 → List UInt32
  | [] => [b]
  | x :: xs => if x = b then b :: xs else x :: absorb b xs

/-- `log_write` of a buffer with new data, inside of an operation. -/
def logWrite (A : LogArea) (b : UInt32) (data : Block) (s : Store) : Except Halt Store :=
  if A.Full s.lh then .error (.panic .tooBigTransaction)
  else .ok { s with lh := absorb b s.lh, dirty := Function.update s.dirty b.toNat (some data) }

/-- An update of a block of the file system. -/
structure Update (A : LogArea) where
  blockno : UInt32
  data : Block
  home : A.Home blockno.toNat

/-- The updates of the operations between two commits. -/
abbrev Txn (A : LogArea) := List (Update A)

def logAll (A : LogArea) : Txn A → Store → Except Halt Store
  | [], s => .ok s
  | u :: us, s => do
    let s ← logWrite A u.blockno u.data s
    logAll A us s

/-- Transactions one after the other.  A panic in one of them ends them. -/
def transactions (A : LogArea) : List (Txn A) → Store → Store
  | [], s => s
  | t :: ts, s =>
    match logAll A t s with
    | .ok s => transactions A ts (commit A s)
    | .error _ => s

end RandomRepo.Xv6

import RandomRepo.Xv6.Dirent
import RandomRepo.Xv6.Volume

/-!
# `mkfs`

The program that builds the first image of the file system.  It hands out inodes and blocks
in order, from the counters `freeinode` and `freeblock`, and writes the bitmap last.
-/

namespace RandomRepo.Xv6.Volume.Mkfs

/-! ## The layout -/

def ninodes : Nat := 200

def nbitmap : Nat := fssize / (bsize * 8) + 1

def ninodeblocks : Nat := ninodes / ipb + 1

def nlog : Nat := logsize

/-- Boot block, super block, log, inodes and bitmap. -/
def nmeta : Nat := 2 + nlog + ninodeblocks + nbitmap

def nblocks : Nat := fssize - nmeta

/-- The super block, as far as the kernel's functions on blocks read it. -/
def sb : Superblock := ⟨fssize, ninodes, 2 + nlog, 2 + nlog + ninodeblocks⟩

/-- The words of `struct superblock`. -/
def sbWords : List Nat := [fssize, nblocks, ninodes, nlog, 2, sb.inodestart, sb.bmapstart]

/-- The block that holds the super block. -/
def sbData : Data := fun x => UInt8.ofNat (sbWords.getD (x / 4) 0 / 256 ^ (x % 4))

/-- What the kernel's `readsb` takes from that block. -/
def readsb (bp : Data) : Superblock :=
  ⟨readWord bp 0, readWord bp 8, readWord bp 20, readWord bp 24⟩

def rootino : Nat := 1

def tDir : UInt16 := 1

def tFile : UInt16 := 2

/-! ## The image -/

/-- The image file and the counters. -/
structure Build where
  image : Nat → Data
  /-- The length of the image file, in sectors. -/
  sectors : Nat
  freeinode : Nat
  freeblock : Nat

/-- An assertion failed, or the program called `exit(1)`. -/
inductive Halt
  | abort | exit1
deriving DecidableEq, Repr

abbrev MkfsM := StateT Build (Except Halt)

/-- The image file is empty when `main` has opened it. -/
def start : Build := ⟨fun _ _ => 0, 0, 1, nmeta⟩

/-- The sector at offset `sec * BSIZE`, which is a `uint`. -/
def lseek (sec : Nat) : Nat := u32 (sec * bsize) / bsize

/-- A write behind the end of the file makes it longer. -/
def wsect (sec : Nat) (buf : Data) : MkfsM Unit :=
  modify fun m => { m with
    image := Function.update m.image (lseek sec) buf
    sectors := max m.sectors (lseek sec + 1) }

def rsect (sec : Nat) : MkfsM Data := do
  let m ← get
  if lseek sec < m.sectors then return m.image (lseek sec) else throw .exit1

/-! ## Inodes -/

def winode (inum : Nat) (ip : Inode) : MkfsM Unit := do
  let buf ← rsect (sb.iblock inum)
  wsect (sb.iblock inum) (putInode buf (inum % ipb) ip)

def rinode (inum : Nat) : MkfsM Inode := do
  let buf ← rsect (sb.iblock inum)
  return getInode buf (inum % ipb)

/-- An inode with one link and nothing in it. -/
def newInode (type : UInt16) : Inode := ⟨type, 0, 0, 1, 0, fun _ => 0⟩

/-- The value of `freeinode++`. -/
def nextInode : MkfsM Nat :=
  modifyGet fun m => (m.freeinode, { m with freeinode := m.freeinode + 1 })

def ialloc (type : UInt16) : MkfsM Nat := do
  let inum ← nextInode
  winode inum (newInode type)
  return inum

/-! ## Content -/

/-- The value of `freeblock++`. -/
def nextBlock : MkfsM Nat :=
  modifyGet fun m => (m.freeblock, { m with freeblock := m.freeblock + 1 })

/-- Slot `k` of the inode gets a block if it has none. -/
def fillSlot (din : Inode) (k : Fin 13) : MkfsM Inode := do
  if din.addrs k = 0 then do
    let b ← nextBlock
    return din.setAddr k b
  else return din

/-- The part of `iappend` that finds block `fbn` of the file, `x` in the source. -/
def appendBlock (din : Inode) (fbn : Nat) : MkfsM (Nat × Inode) := do
  if fbn < ndirect then do
    let din ← fillSlot din (slotIndex fbn)
    return ((din.addrs (slotIndex fbn)).toNat, din)
  else do
    let din ← fillSlot din indirect
    let table ← rsect (din.addrs indirect).toNat
    if readWord table (4 * (fbn - ndirect)) = 0 then do
      let b ← nextBlock
      let table := writeWord table (4 * (fbn - ndirect)) b
      wsect (din.addrs indirect).toNat table
      return (readWord table (4 * (fbn - ndirect)), din)
    else return (readWord table (4 * (fbn - ndirect)), din)

/-- The loop of `iappend`, with at most `turns` turns. -/
def appendLoop : Nat → Inode → Nat → List UInt8 → MkfsM (Nat × Inode)
  | 0, din, off, _ => return (off, din)
  | turns + 1, din, off, p => do
    if p.length = 0 then return (off, din)
    else if maxfile ≤ off / bsize then throw .abort
    else do
      let (x, din) ← appendBlock din (off / bsize)
      let n1 := min p.length ((off / bsize + 1) * bsize - off)
      let buf ← rsect x
      wsect x (overlay buf (off - off / bsize * bsize) (p.take n1))
      appendLoop turns din (off + n1) (p.drop n1)

def iappend (inum : Nat) (p : List UInt8) : MkfsM Unit := do
  let din ← rinode inum
  let (off, din) ← appendLoop p.length din din.size.toNat p
  winode inum { din with size := UInt32.ofNat off }

/-! ## The whole program -/

/-- The block of the bitmap after the loop of `balloc`. -/
def bits (used : Nat) : Data := (List.range used).foldl setBit fun _ => 0

def balloc (used : Nat) : MkfsM Unit := do
  if used < bsize * 8 then wsect sb.bmapstart (bits used) else throw .abort

/-- The bytes of a directory entry. -/
def direntBytes (de : Dirent) : List UInt8 :=
  [UInt8.ofNat de.inum.toNat, UInt8.ofNat (de.inum.toNat / 256)] ++ de.name.val

/-- An argument: the name of a file, and what the calls of `read` return until there is no more;
`none` if it cannot be opened. -/
structure Arg where
  name : List UInt8
  reads : Option (List (List UInt8))
  sizes : ∀ chunks ∈ reads, ∀ c ∈ chunks, 0 < c.length ∧ c.length ≤ bsize

/-- What the file contains. -/
def Arg.bytes (arg : Arg) : List UInt8 := (arg.reads.getD []).flatten

/-- The name without a leading underscore. -/
def Arg.entryName (arg : Arg) : List UInt8 :=
  if arg.name.headD 0 = 95 then arg.name.tail else arg.name

def appendReads (inum : Nat) : List (List UInt8) → MkfsM Unit
  | [] => return ()
  | c :: rest => do
    iappend inum c
    appendReads inum rest

/-- The body of the loop over the arguments. -/
def addFile (arg : Arg) : MkfsM Unit := do
  if arg.name.contains 47 then throw .abort
  else
    match arg.reads with
    | none => throw .exit1
    | some reads => do
      let inum ← ialloc tFile
      iappend rootino (direntBytes (.mk_ arg.entryName inum))
      appendReads inum reads

def addFiles : List Arg → MkfsM Unit
  | [] => return ()
  | arg :: rest => do
    addFile arg
    addFiles rest

/-- Zeros in the first `n` sectors. -/
def zeroSectors : Nat → MkfsM Unit
  | 0 => return ()
  | n + 1 => do
    zeroSectors n
    wsect n fun _ => 0

/-- The size of the root directory is rounded up to whole blocks. -/
def fixRoot : MkfsM Unit := do
  let din ← rinode rootino
  winode rootino { din with size := UInt32.ofNat ((din.size.toNat / bsize + 1) * bsize) }

/-- `main`, from the state `start`.  It returns if the program exits with status 0. -/
def main (args : List Arg) : MkfsM Unit := do
  zeroSectors fssize
  wsect 1 sbData
  let root ← ialloc tDir
  if root ≠ rootino then throw .abort
  else do
    iappend rootino (direntBytes (.mk_ dot rootino))
    iappend rootino (direntBytes (.mk_ dotdot rootino))
    addFiles args
    fixRoot
    let m ← get
    balloc m.freeblock

end RandomRepo.Xv6.Volume.Mkfs

import RandomRepo.Lib.ByteBits
import RandomRepo.Lib.Overlay
import RandomRepo.Lib.Words
import RandomRepo.Xv6.Log
import Mathlib.Algebra.Group.Nat.Defs

/-!
# The blocks of the file system

The lower half of `fs.c`: the free bitmap, the inodes on the disk, the blocks of a file and
reading and writing its content.  The disk is a function from block numbers to the bytes of
a block, as the buffer cache shows them.  An inode in memory is passed along; `logged` is a
history variable with the numbers of the blocks that went through `log_write`.

A buffer that is locked may not be read again: `bread` gets the numbers of the buffers that
the caller still holds.
-/

namespace RandomRepo.Xv6.Volume

def bsize : Nat := 512

def ndirect : Nat := 12

/-- Block numbers in a block. -/
def nindirect : Nat := bsize / 4

def maxfile : Nat := ndirect + nindirect

/-- Bits in a block of the bitmap. -/
def bpb : Nat := bsize * 8

/-- Inodes in a block. -/
def ipb : Nat := bsize / 64

def fssize : Nat := 1000

def ndev : Nat := 10

/-- `T_DEV`; a free inode has type 0. -/
def tDev : UInt16 := 3

/-- The bytes of a block. -/
abbrev Data := Nat → UInt8

/-- What the functions below read of the super block. -/
structure Superblock where
  size : Nat
  ninodes : Nat
  inodestart : Nat
  bmapstart : Nat
deriving DecidableEq, Repr

/-- An inode, on the disk and in memory. -/
structure Inode where
  type : UInt16
  major : UInt16
  minor : UInt16
  nlink : UInt16
  size : UInt32
  addrs : Fin 13 → UInt32

structure Vol where
  disk : Nat → Data
  logged : List Nat

/-- Why a function does not return. -/
inductive VolHalt
  | incorrectBlockno | outOfBlocks | freeingFreeBlock | outOfRange | noInodes | ilockNoType
  | shortFilewrite | hang
deriving DecidableEq, Repr

/-- A halt comes with the numbers of the blocks logged until then. -/
abbrev VolM := StateT Vol (Except (VolHalt × List Nat))

def halt {α : Type} (why : VolHalt) : VolM α := fun s => .error (why, s.logged)

/-- The blocks that were logged when a run returned or halted. -/
def logOf {α : Type} : Except (VolHalt × List Nat) (α × Vol) → List Nat
  | .ok (_, s) => s.logged
  | .error (_, logged) => logged

/-! ## Buffers -/

/-- The disk has `fssize` blocks, and a buffer that is held hangs the one that asks for it. -/
def bread (held : List Nat) (b : Nat) : VolM Data := do
  let s ← get
  if held.contains b then halt .hang
  else if fssize ≤ b then halt .incorrectBlockno
  else return s.disk b

/-- The buffer of block `b` has been changed to `data`. -/
def logWrite (b : Nat) (data : Data) : VolM Unit :=
  modify fun s => ⟨Function.update s.disk b data, s.logged ++ [b]⟩

def bzero (held : List Nat) (b : Nat) : VolM Unit := do
  let _ ← bread held b
  logWrite b fun _ => 0

/-! ## The free bitmap -/

/-- `BBLOCK`. -/
def Superblock.bblock (sb : Superblock) (b : Nat) : Nat := b / bpb + sb.bmapstart

/-- The inner loop of `balloc`: the first block from `b` on that the bitmap block shows as free. -/
def freeBit (sb : Superblock) (b : Nat) (bp : Data) : Option Nat :=
  (List.range (min bpb (sb.size - b))).find? fun bi => !bitAt bp bi

/-- The outer loop of `balloc`, with `n` blocks of the bitmap left. -/
def ballocLoop (sb : Superblock) (held : List Nat) : Nat → Nat → VolM Nat
  | 0, _ => halt .outOfBlocks
  | n + 1, b => do
    let bp ← bread held (sb.bblock b)
    match freeBit sb b bp with
    | some bi => do
      logWrite (sb.bblock b) (setBit bp bi)
      bzero held (b + bi)
      return b + bi
    | none => ballocLoop sb held n (b + bpb)

def balloc (sb : Superblock) (held : List Nat) : VolM Nat :=
  ballocLoop sb held ((sb.size + bpb - 1) / bpb) 0

def bfree (sb : Superblock) (held : List Nat) (b : Nat) : VolM Unit := do
  let bp ← bread held (sb.bblock b)
  if bitAt bp (b % bpb) then logWrite (sb.bblock b) (clearBit bp (b % bpb))
  else halt .freeingFreeBlock

/-! ## Inodes on the disk -/

/-- The index of a slot. -/
def slotIndex (i : Nat) : Fin 13 := Fin.ofNat 13 i

/-- The 16 words of an inode. -/
def Inode.word (ip : Inode) (k : Nat) : Nat :=
  if k = 0 then ip.type.toNat + 65536 * ip.major.toNat
  else if k = 1 then ip.minor.toNat + 65536 * ip.nlink.toNat
  else if k = 2 then ip.size.toNat
  else (ip.addrs (slotIndex (k - 3))).toNat

/-- The inode at index `i` of a block. -/
def getInode (bp : Data) (i : Nat) : Inode where
  type := UInt16.ofNat (readWord bp (64 * i))
  major := UInt16.ofNat (readWord bp (64 * i) / 65536)
  minor := UInt16.ofNat (readWord bp (64 * i + 4))
  nlink := UInt16.ofNat (readWord bp (64 * i + 4) / 65536)
  size := UInt32.ofNat (readWord bp (64 * i + 8))
  addrs k := UInt32.ofNat (readWord bp (64 * i + 4 * (3 + k.val)))

/-- Byte `x` of the inode. -/
def Inode.byte (ip : Inode) (x : Nat) : UInt8 := UInt8.ofNat (ip.word (x / 4) / 256 ^ (x % 4))

def putInode (bp : Data) (i : Nat) (ip : Inode) : Data := fun x =>
  if 64 * i ≤ x ∧ x < 64 * i + 64 then ip.byte (x - 64 * i) else bp x

/-- `IBLOCK`. -/
def Superblock.iblock (sb : Superblock) (inum : Nat) : Nat := inum / ipb + sb.inodestart

def iupdate (sb : Superblock) (inum : Nat) (ip : Inode) : VolM Unit := do
  let bp ← bread [] (sb.iblock inum)
  logWrite (sb.iblock inum) (putInode bp (inum % ipb) ip)

/-- The part of `ilock` that reads the inode from the disk. -/
def iload (sb : Superblock) (inum : Nat) : VolM Inode := do
  let bp ← bread [] (sb.iblock inum)
  let ip := getInode bp (inum % ipb)
  if ip.type = 0 then halt .ilockNoType else return ip

/-- `ilock` when the inode in memory is `copy`, or is not valid yet. -/
def ilock (sb : Superblock) (inum : Nat) : Option Inode → VolM Inode
  | some ip => return ip
  | none => iload sb inum

/-- An inode with a type and nothing else. -/
def Inode.blank (type : UInt16) : Inode := ⟨type, 0, 0, 0, 0, fun _ => 0⟩

/-- The loop of `ialloc` from `inum` on, with `n` inodes left. -/
def iallocLoop (sb : Superblock) (type : UInt16) : Nat → Nat → VolM Nat
  | 0, _ => halt .noInodes
  | n + 1, inum => do
    let bp ← bread [] (sb.iblock inum)
    if (getInode bp (inum % ipb)).type = 0 then do
      logWrite (sb.iblock inum) (putInode bp (inum % ipb) (.blank type))
      return inum
    else iallocLoop sb type n (inum + 1)

/-- The number of the new inode. -/
def ialloc (sb : Superblock) (type : UInt16) : VolM Nat := iallocLoop sb type (sb.ninodes - 1) 1

/-! ## The blocks of a file -/

def Inode.setAddr (ip : Inode) (k : Fin 13) (b : Nat) : Inode :=
  { ip with addrs := Function.update ip.addrs k (UInt32.ofNat b) }

/-- The slot for the block of block numbers. -/
def indirect : Fin 13 := 12

/-- Slot `k` of the inode in memory, with a new block if there is none. -/
def slotBlock (sb : Superblock) (ip : Inode) (k : Fin 13) : VolM (Nat × Inode) := do
  if ip.addrs k = 0 then do
    let b ← balloc sb []
    return (b, ip.setAddr k b)
  else return ((ip.addrs k).toNat, ip)

/-- The number of block `bn` of the file and the inode in memory afterwards. -/
def bmap (sb : Superblock) (ip : Inode) (bn : Nat) : VolM (Nat × Inode) := do
  if bn < ndirect then slotBlock sb ip (slotIndex bn)
  else if bn - ndirect < nindirect then do
    let (ia, ip) ← slotBlock sb ip indirect
    let bp ← bread [] ia
    let addr := readWord bp (4 * (bn - ndirect))
    if addr = 0 then do
      let b ← balloc sb [ia]
      logWrite ia (writeWord bp (4 * (bn - ndirect)) b)
      return (b, ip)
    else return (addr, ip)
  else halt .outOfRange

/-- Free the direct blocks from `i` on, `n` of them. -/
def itruncDirect (sb : Superblock) : Nat → Nat → Inode → VolM Inode
  | 0, _, ip => return ip
  | n + 1, i, ip => do
    if ip.addrs (slotIndex i) = 0 then itruncDirect sb n (i + 1) ip
    else do
      bfree sb [] (ip.addrs (slotIndex i)).toNat
      itruncDirect sb n (i + 1) (ip.setAddr (slotIndex i) 0)

/-- Free the blocks in `bp`, the block of block numbers at `ia`, from entry `j` on. -/
def itruncIndirect (sb : Superblock) (ia : Nat) (bp : Data) : Nat → Nat → VolM Unit
  | 0, _ => return ()
  | n + 1, j => do
    if readWord bp (4 * j) ≠ 0 then bfree sb [ia] (readWord bp (4 * j))
    itruncIndirect sb ia bp n (j + 1)

/-- Free the block of block numbers and all behind it. -/
def itruncTable (sb : Superblock) (ip : Inode) : VolM Inode := do
  if ip.addrs indirect = 0 then return ip
  else do
    let ia := (ip.addrs indirect).toNat
    let bp ← bread [] ia
    itruncIndirect sb ia bp nindirect 0
    bfree sb [] ia
    return ip.setAddr indirect 0

def itrunc (sb : Superblock) (inum : Nat) (ip : Inode) : VolM Inode := do
  let ip ← itruncDirect sb ndirect 0 ip
  let ip ← itruncTable sb ip
  let ip := { ip with size := 0 }
  iupdate sb inum ip
  return ip

/-- The part of `iput` that frees an inode. -/
def iputFree (sb : Superblock) (inum : Nat) (ip : Inode) : VolM Unit := do
  let ip ← itrunc sb inum ip
  iupdate sb inum { ip with type := 0 }

/-! ## Content -/

/-- The devices: what they read and write does not concern the disk.  `none` is -1. -/
structure Devsw where
  read : UInt16 → Option (Nat → Option (List UInt8))
  write : UInt16 → Option (List UInt8 → Int)

/-- The bytes of a block from `start` on. -/
def slice (bp : Data) (start len : Nat) : List UInt8 := (List.range len).map fun k => bp (start + k)

/-- The loop of `readi`, with `n` bytes to go and at most `turns` turns. -/
def readLoop (sb : Superblock) : Nat → Inode → Nat → Nat → VolM (List UInt8 × Inode)
  | 0, ip, _, _ => return ([], ip)
  | turns + 1, ip, off, n => do
    if n = 0 then return ([], ip)
    else do
      let (addr, ip) ← bmap sb ip (off / bsize)
      let bp ← bread [] addr
      let m := min n (bsize - off % bsize)
      let (rest, ip) ← readLoop sb turns ip (off + m) (n - m)
      return (slice bp (off % bsize) m ++ rest, ip)

/-- What is read, which is `none` for -1, and the inode in memory afterwards. -/
def readi (sb : Superblock) (dev : Devsw) (ip : Inode) (off n : Nat) :
    VolM (Option (List UInt8) × Inode) := do
  if ip.type = tDev then
    if ip.major.toNat < ndev then
      match dev.read ip.major with
      | none => return (none, ip)
      | some read => return (read n, ip)
    else return (none, ip)
  else if ip.size.toNat < off ∨ u32 (off + n) < off then return (none, ip)
  else do
    let n := if ip.size.toNat < off + n then ip.size.toNat - off else n
    let (bytes, ip) ← readLoop sb n ip off n
    return (some bytes, ip)

/-- The loop of `writei`; it returns the offset it has come to. -/
def writeLoop (sb : Superblock) : Nat → Inode → Nat → List UInt8 → VolM (Nat × Inode)
  | 0, ip, off, _ => return (off, ip)
  | turns + 1, ip, off, src => do
    if src.length = 0 then return (off, ip)
    else do
      let (addr, ip) ← bmap sb ip (off / bsize)
      let bp ← bread [] addr
      let m := min src.length (bsize - off % bsize)
      logWrite addr (overlay bp (off % bsize) (src.take m))
      writeLoop sb turns ip (off + m) (src.drop m)

/-- The number returned and the inode in memory afterwards. -/
def writei (sb : Superblock) (dev : Devsw) (inum : Nat) (ip : Inode) (src : List UInt8) (off : Nat) :
    VolM (Int × Inode) := do
  let n := src.length
  if ip.type = tDev then
    if ip.major.toNat < ndev then
      match dev.write ip.major with
      | none => return (-1, ip)
      | some write => return (write src, ip)
    else return (-1, ip)
  else if ip.size.toNat < off ∨ u32 (off + n) < off then return (-1, ip)
  else if maxfile * bsize < u32 (off + n) then return (-1, ip)
  else do
    let (off, ip) ← writeLoop sb n ip off src
    if 0 < n ∧ ip.size.toNat < off then do
      let ip := { ip with size := UInt32.ofNat off }
      iupdate sb inum ip
      return (n, ip)
    else return (n, ip)

/-- How many bytes `filewrite` writes in one transaction. -/
def chunkMax : Nat := (maxopblocks - 1 - 1 - 2) / 2 * 512

/-- A transaction of `filewrite`, from `begin_op` to `end_op`.  `copy` is the inode in memory, if it
is valid.  It returns what `writei` returned, the inode in memory and the new offset of the file. -/
def filewriteOp (sb : Superblock) (dev : Devsw) (inum : Nat) (copy : Option Inode) (off : Nat)
    (src : List UInt8) : VolM (Int × Inode × Nat) := do
  modify fun s => { s with logged := [] }
  let ip ← ilock sb inum copy
  let (r, ip) ← writei sb dev inum ip src off
  return (r, ip, if 0 < r then u32 (off + r.toNat) else off)

end RandomRepo.Xv6.Volume

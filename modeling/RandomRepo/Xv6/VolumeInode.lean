import RandomRepo.Xv6.VolumeContent

/-!
# The inodes on the disk

An inode that is written to its block is read back, and no other one changes.  A disk is
consistent if the inodes on it own their blocks and each file has the blocks for its size.
-/

namespace RandomRepo.Xv6.Volume

variable {sb : Superblock} {disk disk' : Nat → Data} {ip : Inode} {bp : Data} {i j k m n inum : Nat}

/-! ## Inodes as bytes -/

theorem Inode.word_lt (ip : Inode) (k : Nat) : ip.word k < 4294967296 := by
  have type := ip.type.toNat_lt
  have major := ip.major.toNat_lt
  have minor := ip.minor.toNat_lt
  have nlink := ip.nlink.toNat_lt
  have size := ip.size.toNat_lt
  have addr := (ip.addrs (slotIndex (k - 3))).toNat_lt
  unfold Inode.word
  split_ifs <;> omega

theorem putInode_byte (bp : Data) (i : Nat) (ip : Inode) {r : Nat} (word : k < 16) (byte : r < 4) :
    (putInode bp i ip (64 * i + 4 * k + r)).toNat = ip.word k / 256 ^ r % 256 := by
  unfold putInode
  rw [if_pos (by omega), show 64 * i + 4 * k + r - 64 * i = 4 * k + r by omega]
  unfold Inode.byte
  rw [show (4 * k + r) / 4 = k by omega, show (4 * k + r) % 4 = r by omega, UInt8.toNat_ofNat']

theorem readWord_putInode (word : k < 16) :
    readWord (putInode bp i ip) (64 * i + 4 * k) = ip.word k := by
  have b0 := putInode_byte bp i ip (r := 0) word (by decide)
  have b1 := putInode_byte bp i ip (r := 1) word (by decide)
  have b2 := putInode_byte bp i ip (r := 2) word (by decide)
  have b3 := putInode_byte bp i ip (r := 3) word (by decide)
  have small := ip.word_lt k
  unfold readWord
  rw [Nat.add_zero] at b0
  rw [b0, b1, b2, b3]
  omega

theorem putInode_other (other : j ≠ i) {x : Nat} (after : 64 * j ≤ x) (before : x < 64 * j + 64) :
    putInode bp i ip x = bp x :=
  if_neg (by omega)

theorem getInode_putInode (bp : Data) (i : Nat) (ip : Inode) : getInode (putInode bp i ip) i = ip := by
  have word0 : readWord (putInode bp i ip) (64 * i) = ip.type.toNat + 65536 * ip.major.toNat :=
    readWord_putInode (k := 0) (by decide)
  have word1 : readWord (putInode bp i ip) (64 * i + 4) = ip.minor.toNat + 65536 * ip.nlink.toNat :=
    readWord_putInode (k := 1) (by decide)
  have word2 : readWord (putInode bp i ip) (64 * i + 8) = ip.size.toNat :=
    readWord_putInode (k := 2) (by decide)
  have slots : ∀ k : Fin 13, readWord (putInode bp i ip) (64 * i + 4 * (3 + k.val)) =
      (ip.addrs k).toNat := by
    intro k
    have bound := k.isLt
    rw [readWord_putInode (by omega)]
    unfold Inode.word
    rw [if_neg (by omega), if_neg (by omega), if_neg (by omega)]
    have index : slotIndex (3 + k.val - 3) = k := Fin.ext (by
      show (3 + k.val - 3) % 13 = k.val
      omega)
    rw [index]
  have low : ∀ a b : UInt16, UInt16.ofNat (a.toNat + 65536 * b.toNat) = a := by
    intro a b
    have bound := a.toNat_lt
    rw [← UInt16.toNat_inj, UInt16.toNat_ofNat']
    omega
  have high : ∀ a b : UInt16, UInt16.ofNat ((a.toNat + 65536 * b.toNat) / 65536) = b := by
    intro a b
    have bound := a.toNat_lt
    have bound' := b.toNat_lt
    rw [← UInt16.toNat_inj, UInt16.toNat_ofNat']
    omega
  unfold getInode
  rw [word0, word1, word2, low, high, low, high, UInt32.ofNat_toNat]
  congr 1
  funext k
  rw [slots k, UInt32.ofNat_toNat]

theorem getInode_congr {bp' : Data} (same : ∀ x, 64 * i ≤ x → x < 64 * i + 64 → bp' x = bp x) :
    getInode bp' i = getInode bp i := by
  have word : ∀ k, k < 16 → readWord bp' (64 * i + 4 * k) = readWord bp (64 * i + 4 * k) :=
    fun k bound => readWord_congr fun x after before => same x (by omega) (by omega)
  have word0 : readWord bp' (64 * i) = readWord bp (64 * i) := word 0 (by decide)
  have word1 : readWord bp' (64 * i + 4) = readWord bp (64 * i + 4) := word 1 (by decide)
  have word2 : readWord bp' (64 * i + 8) = readWord bp (64 * i + 8) := word 2 (by decide)
  unfold getInode
  rw [word0, word1, word2]
  congr 1
  funext k
  have bound := k.isLt
  rw [word (3 + k.val) (by omega)]

theorem getInode_putInode_other (other : j ≠ i) : getInode (putInode bp i ip) j = getInode bp j :=
  getInode_congr fun _ after before => putInode_other other after before

/-! ## The table of inodes -/

/-- Inode `n` on the disk. -/
def dinode (sb : Superblock) (disk : Nat → Data) (n : Nat) : Inode :=
  getInode (disk (sb.iblock n)) (n % ipb)

theorem dinode_congr (same : disk' (sb.iblock n) = disk (sb.iblock n)) :
    dinode sb disk' n = dinode sb disk n := by
  unfold dinode
  rw [same]

/-- The disk after an inode was written to its block. -/
def setInode (sb : Superblock) (disk : Nat → Data) (n : Nat) (ip : Inode) : Nat → Data :=
  Function.update disk (sb.iblock n) (putInode (disk (sb.iblock n)) (n % ipb) ip)

theorem dinode_setInode : dinode sb (setInode sb disk n ip) n = ip := by
  unfold dinode setInode
  rw [Function.update_self, getInode_putInode]

theorem dinode_setInode_other (other : m ≠ n) :
    dinode sb (setInode sb disk n ip) m = dinode sb disk m := by
  by_cases block : sb.iblock m = sb.iblock n
  · have index : m % ipb ≠ n % ipb := by
      intro same
      have count : ipb = 8 := rfl
      unfold Superblock.iblock at block
      rw [count] at block same
      omega
    unfold dinode setInode
    rw [block, Function.update_self, getInode_putInode_other index]
  · exact dinode_congr (Function.update_of_ne block ..)

/-- How many bytes an inode has.  Devices and free inodes have none. -/
def Inode.fileSize (ip : Inode) : Nat := if ip.type = 0 ∨ ip.type = tDev then 0 else ip.size.toNat

/-- The inodes on the disk own their blocks, and each file has the blocks for its size. -/
def Consistent (sb : Superblock) (disk : Nat → Data) : Prop :=
  Sound sb disk (dinode sb disk) fun n => blocksOf (dinode sb disk n).fileSize

/-- What a file contains. -/
def content (disk : Nat → Data) (ip : Inode) : List UInt8 := slice (fileBytes disk ip) 0 ip.fileSize

/-- An inode goes to the disk after its blocks have been changed in memory. -/
theorem Sound.setInode_sound {node : Nat → Inode} {len : Nat → Nat} (sound : Sound sb disk node len)
    (valid : sb.Valid) (number : inum < sb.ninodes) (ip : Inode)
    (rest : ∀ n, n < sb.ninodes → n ≠ inum → node n = dinode sb disk n)
    (addrs : ip.addrs = (node inum).addrs) :
    Sound sb (setInode sb disk inum ip) (dinode sb (setInode sb disk inum ip)) len ∧
      ∀ x, sb.bmapstart ≤ x → setInode sb disk inum ip x = disk x := by
  have lower := valid.inodes inum number
  have data : ∀ x, sb.bmapstart ≤ x → setInode sb disk inum ip x = disk x :=
    fun x above => Function.update_of_ne (by omega) ..
  have slots : ∀ n, n < sb.ninodes → ∀ j, slot (setInode sb disk inum ip)
      (dinode sb (setInode sb disk inum ip) n) j = slot disk (node n) j := by
    intro n number' j
    have start := bmapstart_lt_dataStart sb
    have step : slot (setInode sb disk inum ip) (node n) j = slot disk (node n) j :=
      slot_congr fun some_ => data _ (by
        have above := (sound.owned.slot_used number' some_).1
        omega)
    rw [← step]
    by_cases self : n = inum
    · rw [self, dinode_setInode]
      unfold slot
      rw [addrs]
    · rw [dinode_setInode_other self, rest n number' self]
  refine ⟨⟨sound.owned.congr valid (fun b _ => ?_) slots, fun n number' => ?_⟩, data⟩
  · exact marked_congr (data _ (bmapstart_le_bblock sb b))
  · exact (sound.shape n number').congr (slots n number')

/-- An inode and its size go to the disk. -/
theorem Sound.setInode {node : Nat → Inode} {len : Nat → Nat} (sound : Sound sb disk node len)
    (valid : sb.Valid) (number : inum < sb.ninodes) (ip : Inode)
    (rest : ∀ n, n < sb.ninodes → n ≠ inum → node n = dinode sb disk n ∧
      len n = blocksOf (dinode sb disk n).fileSize)
    (addrs : ip.addrs = (node inum).addrs) (size : len inum = blocksOf ip.fileSize) :
    Consistent sb (setInode sb disk inum ip) ∧
      ∀ x, sb.bmapstart ≤ x → setInode sb disk inum ip x = disk x := by
  obtain ⟨stored, data⟩ :=
    sound.setInode_sound valid number ip (fun n number' other => (rest n number' other).1) addrs
  refine ⟨stored.congr valid fun n number' => ⟨rfl, ?_⟩, data⟩
  by_cases self : n = inum
  · rw [self, dinode_setInode, size]
  · rw [dinode_setInode_other self, (rest n number' self).2]

/-- The content of a file does not depend on what comes before the data. -/
theorem Sound.fileBytes_congr {node : Nat → Inode} {len : Nat → Nat} {p : Nat}
    (sound : Sound sb disk node len) (number : n < sb.ninodes)
    (data : ∀ x, sb.dataStart ≤ x → disk' x = disk x) (ip : Inode) (addrs : ip.addrs = (node n).addrs)
    (lower : p / bsize < len n) : fileBytes disk' ip p = fileBytes disk (node n) p := by
  have shape := sound.shape n number
  have most := shape.most
  have above : ∀ j, slot disk (node n) j ≠ 0 → sb.dataStart ≤ slot disk (node n) j :=
    fun j some_ => (sound.owned.slot_used number some_).1
  have slots : slot disk' ip (p / bsize) = slot disk (node n) (p / bsize) := by
    have step : slot disk' (node n) (p / bsize) = slot disk (node n) (p / bsize) :=
      slot_congr fun some_ => data _ (above _ some_)
    rw [← step]
    unfold slot
    rw [addrs]
  unfold fileBytes
  rw [slots, data _ (above _ ((shape.blocks _ (by omega)).mpr lower))]

theorem Sound.padded_congr {node : Nat → Inode} {len : Nat → Nat} (sound : Sound sb disk node len)
    (number : n < sb.ninodes) (data : ∀ x, sb.dataStart ≤ x → disk' x = disk x) (ip : Inode)
    (addrs : ip.addrs = (node n).addrs) : padded disk' ip (len n) = padded disk (node n) (len n) := by
  funext p
  unfold padded
  split_ifs with lower
  · exact sound.fileBytes_congr number data ip addrs lower
  · rfl

/-- An inode without bytes has no blocks. -/
theorem Consistent.addrs_zero (consistent : Consistent sb disk) (number : inum < sb.ninodes)
    (none_ : (dinode sb disk inum).fileSize = 0) (k : Fin 13) :
    (dinode sb disk inum).addrs k = 0 := by
  have shape := consistent.shape inum number
  rw [none_] at shape
  have near : ndirect = 12 := rfl
  have size : maxfile = 140 := rfl
  have empty : slot disk (dinode sb disk inum) (cellOf k) = 0 := by
    by_contra some_
    unfold cellOf at some_
    split_ifs at some_ with table
    · exact absurd (shape.table.mp some_) (by decide)
    · have bound := k.isLt
      exact absurd ((shape.blocks k.val (by omega)).mp some_) (Nat.not_lt_zero _)
  rw [slot_cellOf] at empty
  exact addrs_eq_zero_iff.mpr empty

end RandomRepo.Xv6.Volume

import RandomRepo.Lib.Holdings
import RandomRepo.Xv6.VolumeSteps
import Mathlib.Data.Finset.Card

/-!
# Who owns a block

The slots of the inodes and the entries of their blocks of block numbers are the cells of a
`Holdings`: no data block is in two of them, and the bitmap marks the blocks that are in one.
`node` gives the inodes as they are in memory, which may be ahead of the disk.
-/

namespace RandomRepo.Xv6.Volume

variable {sb : Superblock} {disk disk' : Nat → Data} {node node' : Nat → Inode} {loose : Set Nat}
  {s : Vol} {ip : Inode} {b x n j inum : Nat} {d : Data} {k : Fin 13}

/-! ## The layout -/

/-- The first block after the bitmap. -/
def Superblock.dataStart (sb : Superblock) : Nat := sb.bmapstart + sb.size / bpb + 1

/-- The inodes come before the bitmap, and both before the data. -/
structure Superblock.Valid (sb : Superblock) : Prop where
  inodes : ∀ n, n < sb.ninodes → sb.iblock n < sb.bmapstart
  data : sb.dataStart ≤ sb.size
  small : sb.size ≤ fssize

theorem bmapstart_lt_dataStart (sb : Superblock) : sb.bmapstart < sb.dataStart :=
  Nat.lt_succ_of_le (Nat.le_add_right ..)

theorem bmapstart_le_bblock (sb : Superblock) (b : Nat) : sb.bmapstart ≤ sb.bblock b :=
  Nat.le_add_left ..

theorem bblock_lt_dataStart (below : b < sb.size) : sb.bblock b < sb.dataStart := by
  have quotient : b / bpb ≤ sb.size / bpb := Nat.div_le_div_right (by omega)
  unfold Superblock.bblock Superblock.dataStart
  omega

theorem Superblock.Valid.bitmap_block (valid : sb.Valid) (below : b < sb.size) :
    sb.bblock b < fssize := by
  have lower := bblock_lt_dataStart below
  have data := valid.data
  have small := valid.small
  omega

theorem Superblock.Valid.inode_block (valid : sb.Valid) (number : n < sb.ninodes) :
    sb.iblock n < fssize := by
  have lower := valid.inodes n number
  have start := bmapstart_lt_dataStart sb
  have data := valid.data
  have small := valid.small
  omega

/-! ## The bitmap -/

theorem marked_congr (same : disk' (sb.bblock b) = disk (sb.bblock b)) :
    marked sb disk' b = marked sb disk b := by
  unfold marked
  rw [same]

theorem bit_eq_of_bblock_eq (block : sb.bblock x = sb.bblock b) : x % bpb = b % bpb ↔ x = b := by
  unfold Superblock.bblock at block
  unfold bpb bsize at *
  omega

theorem marked_setBit : marked sb (Function.update disk (sb.bblock b)
    (setBit (disk (sb.bblock b)) (b % bpb))) x = (decide (x = b) || marked sb disk x) := by
  by_cases block : sb.bblock x = sb.bblock b
  · unfold marked
    rw [block, Function.update_self, bitAt_setBit,
      decide_eq_decide.mpr (bit_eq_of_bblock_eq block)]
  · have other : x ≠ b := fun same => block (by rw [same])
    rw [marked_congr (Function.update_of_ne block ..), decide_eq_false other, Bool.false_or]

theorem marked_clearBit : marked sb (Function.update disk (sb.bblock b)
    (clearBit (disk (sb.bblock b)) (b % bpb))) x = (!decide (x = b) && marked sb disk x) := by
  by_cases block : sb.bblock x = sb.bblock b
  · unfold marked
    rw [block, Function.update_self, bitAt_clearBit,
      decide_eq_decide.mpr (bit_eq_of_bblock_eq block)]
  · have other : x ≠ b := fun same => block (by rw [same])
    rw [marked_congr (Function.update_of_ne block ..), decide_eq_false other, Bool.not_false,
      Bool.true_and]

/-- The data blocks that the bitmap shows as used. -/
def used (sb : Superblock) (disk : Nat → Data) : Set Nat :=
  {b | sb.dataStart ≤ b ∧ b < sb.size ∧ marked sb disk b = true}

/-- How many blocks `balloc` can still hand out. -/
def freeBlocks (sb : Superblock) (disk : Nat → Data) : Nat :=
  ((Finset.range sb.size).filter fun b => marked sb disk b = false).card

theorem freeBlocks_congr (same : ∀ b, b < sb.size → marked sb disk' b = marked sb disk b) :
    freeBlocks sb disk' = freeBlocks sb disk := by
  refine congrArg Finset.card (Finset.filter_congr fun b member => ?_)
  rw [same b (Finset.mem_range.mp member)]

theorem exists_free (room : 0 < freeBlocks sb disk) :
    ∃ b, b < sb.size ∧ marked sb disk b = false := by
  obtain ⟨b, member⟩ := Finset.card_pos.mp room
  rw [Finset.mem_filter, Finset.mem_range] at member
  exact ⟨b, member⟩

theorem freeBlocks_pos (below : b < sb.size) (free : marked sb disk b = false) :
    0 < freeBlocks sb disk := by
  refine Finset.card_pos.mpr ⟨b, ?_⟩
  rw [Finset.mem_filter, Finset.mem_range]
  exact ⟨below, free⟩

/-! ## The cells -/

/-- Block `j` of a file, 0 if there is none.  Index `maxfile` is for the block of block numbers. -/
def slot (disk : Nat → Data) (ip : Inode) (j : Nat) : Nat :=
  if j < ndirect then (ip.addrs (slotIndex j)).toNat
  else if j < maxfile then
    if ip.addrs indirect = 0 then 0
    else readWord (disk (ip.addrs indirect).toNat) (4 * (j - ndirect))
  else if j = maxfile then (ip.addrs indirect).toNat
  else 0

theorem slot_direct (near : j < ndirect) : slot disk ip j = (ip.addrs (slotIndex j)).toNat :=
  if_pos near

theorem slot_entry (far : ndirect ≤ j) (inside : j < maxfile) (some_ : ip.addrs indirect ≠ 0) :
    slot disk ip j = readWord (disk (ip.addrs indirect).toNat) (4 * (j - ndirect)) := by
  unfold slot
  rw [if_neg (by omega), if_pos inside, if_neg some_]

theorem slot_entry_none (far : ndirect ≤ j) (inside : j < maxfile) (none_ : ip.addrs indirect = 0) :
    slot disk ip j = 0 := by
  unfold slot
  rw [if_neg (by omega), if_pos inside, if_pos none_]

theorem slot_table : slot disk ip maxfile = (ip.addrs indirect).toNat := by
  unfold slot
  rw [if_neg (by decide), if_neg (Nat.lt_irrefl _), if_pos rfl]

theorem slot_beyond (beyond : maxfile < j) : slot disk ip j = 0 := by
  have size : maxfile = 140 := rfl
  have direct : ndirect = 12 := rfl
  unfold slot
  rw [if_neg (by omega), if_neg (by omega), if_neg (by omega)]

theorem addrs_eq_zero_iff : ip.addrs k = 0 ↔ (ip.addrs k).toNat = 0 := by
  rw [← UInt32.toNat_inj]
  rfl

/-- A slot depends on the disk only through the block of block numbers. -/
theorem slot_congr (same : slot disk ip maxfile ≠ 0 →
    disk' (slot disk ip maxfile) = disk (slot disk ip maxfile)) : slot disk' ip j = slot disk ip j := by
  rw [slot_table] at same
  by_cases far : ndirect ≤ j ∧ j < maxfile
  · by_cases none_ : ip.addrs indirect = 0
    · rw [slot_entry_none far.1 far.2 none_, slot_entry_none far.1 far.2 none_]
    · rw [slot_entry far.1 far.2 none_, slot_entry far.1 far.2 none_,
        same fun zero => none_ (addrs_eq_zero_iff.mpr zero)]
  · unfold slot
    split_ifs with near inside
    · rfl
    · exact absurd ⟨Nat.le_of_not_lt near, inside⟩ far
    · exact absurd ⟨Nat.le_of_not_lt near, inside⟩ far
    · rfl
    · rfl

def held (sb : Superblock) (disk : Nat → Data) (node : Nat → Inode) (c : Nat × Nat) : Option Nat :=
  if c.1 < sb.ninodes ∧ slot disk (node c.1) c.2 ≠ 0 then some (slot disk (node c.1) c.2) else none

theorem held_eq_some : held sb disk node (n, j) = some b ↔
    n < sb.ninodes ∧ slot disk (node n) j = b ∧ b ≠ 0 := by
  unfold held
  dsimp only
  split_ifs with cell
  · rw [Option.some.injEq]
    constructor
    · rintro rfl
      exact ⟨cell.1, rfl, cell.2⟩
    · exact fun facts => facts.2.1
  · constructor
    · exact fun wrong => nomatch wrong
    · rintro ⟨number, rfl, some_⟩
      exact absurd ⟨number, some_⟩ cell

theorem held_eq_none (empty : slot disk (node n) j = 0) : held sb disk node (n, j) = none :=
  if_neg fun cell => cell.2 empty

theorem held_congr (same : n < sb.ninodes → slot disk' (node' n) j = slot disk (node n) j) :
    held sb disk' node' (n, j) = held sb disk node (n, j) := by
  unfold held
  dsimp only
  by_cases number : n < sb.ninodes
  · rw [same number]
  · rw [if_neg fun cell => number cell.1, if_neg fun cell => number cell.1]

/-- The bitmap agrees with the cells; the blocks in `loose` are marked and in no cell. -/
structure Owned (sb : Superblock) (disk : Nat → Data) (node : Nat → Inode) (loose : Set Nat) :
    Prop where
  low : ∀ b, b < sb.dataStart → marked sb disk b = true
  holds : Holdings (held sb disk node) loose (used sb disk)

namespace Owned

theorem slot_used (owned : Owned sb disk node loose) (number : n < sb.ninodes)
    (some_ : slot disk (node n) j ≠ 0) : slot disk (node n) j ∈ used sb disk :=
  owned.holds.held_used (held_eq_some.mpr ⟨number, rfl, some_⟩)

theorem once (owned : Owned sb disk node loose) {m i : Nat} (number : n < sb.ninodes)
    (number' : m < sb.ninodes) (some_ : slot disk (node n) j ≠ 0)
    (same : slot disk (node m) i = slot disk (node n) j) : m = n ∧ i = j := by
  have here : held sb disk node (n, j) = some (slot disk (node n) j) :=
    held_eq_some.mpr ⟨number, rfl, some_⟩
  have there : held sb disk node (m, i) = some (slot disk (node n) j) :=
    held_eq_some.mpr ⟨number', same, some_⟩
  have cell := owned.holds.once _ _ _ there here
  exact ⟨congrArg Prod.fst cell, congrArg Prod.snd cell⟩

/-- Nothing of what matters has changed. -/
theorem congr (owned : Owned sb disk node loose) (valid : sb.Valid)
    (bitmap : ∀ b, b < sb.size → marked sb disk' b = marked sb disk b)
    (slots : ∀ n, n < sb.ninodes → ∀ j, slot disk' (node' n) j = slot disk (node n) j) :
    Owned sb disk' node' loose where
  low b below := by
    have data := valid.data
    rw [bitmap b (by omega)]
    exact owned.low b below
  holds := by
    have marks : used sb disk' = used sb disk := by
      ext b
      constructor
      · rintro ⟨above, below, mark⟩
        exact ⟨above, below, bitmap b below ▸ mark⟩
      · rintro ⟨above, below, mark⟩
        exact ⟨above, below, (bitmap b below).trans mark⟩
    rw [marks]
    exact owned.holds.congr fun c => held_congr fun number => slots c.1 number c.2

/-- A block that is neither of the bitmap nor a block of block numbers is written. -/
theorem write (owned : Owned sb disk node loose) (valid : sb.Valid)
    (bitmap : ∀ b, b < sb.size → sb.bblock b ≠ x)
    (other : ∀ n, n < sb.ninodes → slot disk (node n) maxfile ≠ 0 → slot disk (node n) maxfile ≠ x) :
    Owned sb (Function.update disk x d) node loose :=
  owned.congr valid (fun b below => marked_congr (Function.update_of_ne (bitmap b below) ..))
    fun n number _ => slot_congr fun some_ => Function.update_of_ne (other n number some_) ..

/-- Blocks before the data are no blocks of block numbers. -/
theorem table_ne (owned : Owned sb disk node loose) (below : x < sb.dataStart) :
    ∀ n, n < sb.ninodes → slot disk (node n) maxfile ≠ 0 → slot disk (node n) maxfile ≠ x := by
  rintro n number some_ rfl
  have above := (owned.slot_used number some_).1
  omega

/-- The blocks of a file are no blocks of block numbers. -/
theorem table_ne_content (owned : Owned sb disk node loose) (number : n < sb.ninodes)
    (inside : j < maxfile) (some_ : slot disk (node n) j ≠ 0) : ∀ m, m < sb.ninodes →
      slot disk (node m) maxfile ≠ 0 → slot disk (node m) maxfile ≠ slot disk (node n) j := by
  intro m number' _ same
  have cell := (owned.once number number' some_ same).2
  omega

/-- The content of a file is written. -/
theorem write_content (owned : Owned sb disk node loose) (valid : sb.Valid) (number : n < sb.ninodes)
    (inside : j < maxfile) (some_ : slot disk (node n) j ≠ 0) :
    Owned sb (Function.update disk (slot disk (node n) j) d) node loose := by
  refine owned.write valid (fun b below same => ?_) (owned.table_ne_content number inside some_)
  have lower := bblock_lt_dataStart below
  have above := (owned.slot_used number some_).1
  omega

/-! ## Blocks come and go -/

theorem dataStart_le (owned : Owned sb disk node loose) (free : marked sb disk b = false) :
    sb.dataStart ≤ b := by
  by_contra below
  rw [owned.low b (by omega)] at free
  cases free

theorem alloc_marked (owned : Owned sb s.disk node loose) (free : marked sb s.disk b = false)
    (below : x < sb.size) : marked sb (s.alloc sb b).disk x = (decide (x = b) || marked sb s.disk x) := by
  have above := owned.dataStart_le free
  have lower := bblock_lt_dataStart below
  unfold Vol.alloc
  rw [marked_congr (Vol.write_other _ _ (by omega))]
  exact marked_setBit

/-- A block changes in `balloc` only if it is of the bitmap or the new one. -/
theorem alloc_other (bitmap : x ≠ sb.bblock b) (other : x ≠ b) : (s.alloc sb b).disk x = s.disk x := by
  unfold Vol.alloc
  rw [Vol.write_other _ _ other, Vol.write_other _ _ bitmap]

theorem not_used (free : marked sb disk b = false) : b ∉ used sb disk := by
  rintro ⟨-, -, mark⟩
  rw [free] at mark
  cases mark

/-- What is in use is not changed by `balloc`. -/
theorem alloc_used (free : marked sb s.disk b = false) (below : b < sb.size)
    (inUse : x ∈ used sb s.disk) : (s.alloc sb b).disk x = s.disk x := by
  refine alloc_other ?_ ?_
  · have lower := bblock_lt_dataStart below
    have above := inUse.1
    omega
  · rintro rfl
    exact not_used free inUse

theorem alloc_slot (owned : Owned sb s.disk node loose) (free : marked sb s.disk b = false)
    (below : b < sb.size) (number : n < sb.ninodes) :
    slot (s.alloc sb b).disk (node n) j = slot s.disk (node n) j :=
  slot_congr fun some_ => alloc_used free below (owned.slot_used number some_)

theorem alloc (owned : Owned sb s.disk node loose) (valid : sb.Valid)
    (free : marked sb s.disk b = false) (below : b < sb.size) :
    Owned sb (s.alloc sb b).disk node (insert b loose) where
  low x lower := by
    have data := valid.data
    rw [owned.alloc_marked free (by omega), owned.low x lower, Bool.or_true]
  holds := by
    have marks : used sb (s.alloc sb b).disk = insert b (used sb s.disk) := by
      have above := owned.dataStart_le free
      ext x
      constructor
      · rintro ⟨above', below', mark⟩
        rw [owned.alloc_marked free below', Bool.or_eq_true, decide_eq_true_eq] at mark
        exact mark.imp id fun old => ⟨above', below', old⟩
      · rintro (rfl | ⟨above', below', mark⟩)
        · refine ⟨above, below, ?_⟩
          rw [owned.alloc_marked free below, decide_eq_true rfl, Bool.true_or]
        · refine ⟨above', below', ?_⟩
          rw [owned.alloc_marked free below', mark, Bool.or_true]
    rw [marks]
    exact (owned.holds.take (not_used free)).congr fun c =>
      held_congr fun number => owned.alloc_slot free below number

theorem alloc_freeBlocks (owned : Owned sb s.disk node loose) (free : marked sb s.disk b = false)
    (below : b < sb.size) : freeBlocks sb (s.alloc sb b).disk + 1 = freeBlocks sb s.disk := by
  have set : ((Finset.range sb.size).filter fun x => marked sb (s.alloc sb b).disk x = false) =
      ((Finset.range sb.size).filter fun x => marked sb s.disk x = false).erase b := by
    ext x
    rw [Finset.mem_erase, Finset.mem_filter, Finset.mem_filter, Finset.mem_range]
    constructor
    · rintro ⟨below', mark⟩
      rw [owned.alloc_marked free below', Bool.or_eq_false_iff, decide_eq_false_iff_not] at mark
      exact ⟨mark.1, below', mark.2⟩
    · rintro ⟨other, below', mark⟩
      refine ⟨below', ?_⟩
      rw [owned.alloc_marked free below', decide_eq_false other, mark, Bool.or_false]
  unfold freeBlocks
  rw [set]
  refine Finset.card_erase_add_one ?_
  rw [Finset.mem_filter, Finset.mem_range]
  exact ⟨below, free⟩

/-- A loose block goes into an empty cell. -/
theorem put (owned : Owned sb disk node loose) (valid : sb.Valid) (inHand : b ∈ loose)
    (number : inum < sb.ninodes) (empty : slot disk (node inum) j = 0)
    (bitmap : ∀ b, b < sb.size → marked sb disk' b = marked sb disk b)
    (here : slot disk' (node' inum) j = b)
    (rest : ∀ n i, n < sb.ninodes → (n, i) ≠ (inum, j) →
      slot disk' (node' n) i = slot disk (node n) i) : Owned sb disk' node' (loose \ {b}) where
  low x lower := by
    have data := valid.data
    rw [bitmap x (by omega)]
    exact owned.low x lower
  holds := by
    have marks : used sb disk' = used sb disk := by
      ext b
      constructor
      · rintro ⟨above, below, mark⟩
        exact ⟨above, below, bitmap b below ▸ mark⟩
      · rintro ⟨above, below, mark⟩
        exact ⟨above, below, (bitmap b below).trans mark⟩
    have positive : b ≠ 0 := by
      have above := ((owned.holds.used_iff b).mpr (.inr inHand)).1
      have start := bmapstart_lt_dataStart sb
      omega
    rw [marks]
    refine owned.holds.put inHand (held_eq_none empty) (held_eq_some.mpr ⟨number, here, positive⟩) ?_
    rintro ⟨n, i⟩ other
    exact held_congr fun number' => rest n i number' other

/-- Some cells are emptied in memory, and their blocks are loose. -/
theorem pull (owned : Owned sb disk node loose) (node' : Nat → Inode) (out : Set (Nat × Nat))
    (emptied : ∀ n i, (n, i) ∈ out → slot disk (node' n) i = 0)
    (rest : ∀ n i, n < sb.ninodes → (n, i) ∉ out → slot disk (node' n) i = slot disk (node n) i) :
    Owned sb disk node' (loose ∪ {u | ∃ c ∈ out, held sb disk node c = some u}) where
  low := owned.low
  holds := by
    refine owned.holds.pull ?_ ?_
    · rintro ⟨n, i⟩ inside
      exact held_eq_none (emptied n i inside)
    · rintro ⟨n, i⟩ outside
      exact held_congr fun number => rest n i number outside

theorem loose_used (owned : Owned sb disk node loose) (inHand : b ∈ loose) : b ∈ used sb disk :=
  (owned.holds.used_iff b).mpr (.inr inHand)

/-- A loose block is freed. -/
theorem free (owned : Owned sb s.disk node loose) (inHand : b ∈ loose) :
    Owned sb (s.free sb b).disk node (loose \ {b}) := by
  obtain ⟨above, below, -⟩ := owned.loose_used inHand
  have marks : ∀ x, marked sb (s.free sb b).disk x = (!decide (x = b) && marked sb s.disk x) :=
    fun x => marked_clearBit
  have lower := bblock_lt_dataStart below
  refine ⟨fun x below' => ?_, ?_⟩
  · have other : x ≠ b := by omega
    rw [marks, owned.low x below', decide_eq_false other]
    rfl
  · have set : used sb (s.free sb b).disk = used sb s.disk \ {b} := by
      ext x
      constructor
      · rintro ⟨above', below', mark⟩
        rw [marks, Bool.and_eq_true, Bool.not_eq_true', decide_eq_false_iff_not] at mark
        exact ⟨⟨above', below', mark.2⟩, mark.1⟩
      · rintro ⟨⟨above', below', mark⟩, other⟩
        refine ⟨above', below', ?_⟩
        rw [marks, mark, decide_eq_false (show x ≠ b from other)]
        rfl
    rw [set]
    refine (owned.holds.give inHand).congr fun c => held_congr fun number => slot_congr fun some_ => ?_
    exact Vol.write_other _ _ (owned.table_ne lower c.1 number some_)

/-- `bfree` accepts a block that is loose. -/
theorem bfree_loose (owned : Owned sb s.disk node loose) (valid : sb.Valid) (inHand : b ∈ loose)
    {held_ : List Nat} (other : ∀ x ∈ held_, sb.dataStart ≤ x) :
    bfree sb held_ b s = .ok ((), s.free sb b) := by
  obtain ⟨above, below, mark⟩ := owned.loose_used inHand
  have lower := bblock_lt_dataStart below
  refine bfree_run (fun member => ?_) (valid.bitmap_block below) mark
  have data := other _ member
  omega

end Owned

end RandomRepo.Xv6.Volume

import RandomRepo.Xv6.VolumeOwner

/-!
# What `bmap` returns

On a sound disk a file has its first blocks and no others.  `bmap` finds such a block without
a change, or appends the next one; while there are free blocks it returns.
-/

namespace RandomRepo.Xv6.Volume

variable {sb : Superblock} {node : Nat → Inode} {len : Nat → Nat} {loose : Set Nat}
  {s t : Vol} {ip ip' : Inode} {b x n j bn inum : Nat} {held_ : List Nat} {k : Fin 13}

/-! ## Allocation returns -/

theorem ballocLoop_returns (n : Nat) {start : Nat} (aligned : start % bpb = 0)
    (blocks : ∀ x, x < sb.size → sb.bblock x < fssize ∧ sb.bblock x ∉ held_)
    (small : sb.size ≤ fssize) (apart : ∀ x, marked sb s.disk x = false → x ∉ held_)
    (after : start ≤ b) (before : b < start + n * bpb) (below : b < sb.size)
    (free : marked sb s.disk b = false) : ∃ c t, ballocLoop sb held_ n start s = .ok (c, t) := by
  have size : bpb = 4096 := rfl
  induction n generalizing start with
  | zero => omega
  | succ n ih =>
    obtain ⟨inside, apart'⟩ := blocks start (by omega)
    cases found : freeBit sb start (s.disk (sb.bblock start)) with
    | none =>
      have later : start + bpb ≤ b := by
        by_contra early
        obtain ⟨block, bit⟩ :=
          bblock_add sb aligned (show b - start < bpb by omega)
        rw [Nat.add_sub_cancel' after] at block bit
        have mark := freeBit_none found (show b - start < bpb by omega) (by omega)
        rw [marked, block, bit] at free
        rw [free] at mark
        cases mark
      have aligned' : (start + bpb) % bpb = 0 := by
        rw [Nat.add_mod_right]
        exact aligned
      obtain ⟨c, t, run⟩ := ih aligned' later (by
        rw [Nat.add_mul, Nat.one_mul] at before
        omega)
      refine ⟨c, t, bind_run_iff.mpr ⟨_, _, bread_run apart' inside, ?_⟩⟩
      rw [found]
      exact run
    | some bi =>
      obtain ⟨inBlock, below', clear⟩ := freeBit_some found
      obtain ⟨block, bit⟩ := bblock_add sb aligned inBlock
      have unmarked : marked sb s.disk (start + bi) = false := by
        rw [marked, block, bit]
        exact clear
      refine ⟨start + bi, (s.write (sb.bblock start) (setBit (s.disk (sb.bblock start)) bi)).write
        (start + bi) fun _ => 0, bind_run_iff.mpr ⟨_, _, bread_run apart' inside, ?_⟩⟩
      rw [found]
      exact bind_run_iff.mpr ⟨_, _, logWrite_run, bind_run_iff.mpr
        ⟨_, _, bzero_run (apart _ unmarked) (by omega), rfl⟩⟩

/-- While there is a free block, `balloc` returns one.  The buffer held is of a block in use. -/
theorem balloc_returns (valid : sb.Valid) (room : 0 < freeBlocks sb s.disk) (held_ : List Nat)
    (inUse : ∀ x ∈ held_, x ∈ used sb s.disk) :
    ∃ b, balloc sb held_ s = .ok (b, s.alloc sb b) ∧ b < sb.size ∧ marked sb s.disk b = false := by
  obtain ⟨c, below, free⟩ := exists_free room
  have size : bpb = 4096 := rfl
  obtain ⟨b, t, run⟩ := ballocLoop_returns ((sb.size + bpb - 1) / bpb) (Nat.zero_mod _)
    (fun x lower => ⟨valid.bitmap_block lower, fun inHeld => by
      have above := (inUse _ inHeld).1
      have lower' := bblock_lt_dataStart lower
      omega⟩)
    valid.small (fun x unmarked inHeld => Owned.not_used unmarked (inUse x inHeld))
    (Nat.zero_le c) (by rw [size]; omega) below free
  obtain ⟨rfl, below', free', -⟩ := balloc_ok run
  exact ⟨b, run, below', free'⟩

/-! ## A cell gets a block -/

/-- Cell `j` of the inode, which was empty, has a block that was free. -/
structure Gained (sb : Superblock) (inum j : Nat) (s : Vol) (node : Nat → Inode) (b : Nat)
    (ip' : Inode) (t : Vol) : Prop where
  owned : Owned sb t.disk (Function.update node inum ip') ∅
  here : slot t.disk ip' j = b
  positive : b ≠ 0
  zero : ∀ x, t.disk b x = 0
  fresh : b ∉ used sb s.disk
  rest : ∀ i, i ≠ j → slot t.disk ip' i = slot s.disk (node inum) i
  others : ∀ n, n < sb.ninodes → n ≠ inum → ∀ i, slot t.disk (node n) i = slot s.disk (node n) i
  data : ∀ x ∈ used sb s.disk, x ≠ slot t.disk ip' maxfile → t.disk x = s.disk x
  inodes : ∀ x, x < sb.bmapstart → t.disk x = s.disk x
  room : freeBlocks sb t.disk + 1 = freeBlocks sb s.disk
  fields : ip' = { node inum with addrs := ip'.addrs }

/-- The index of a slot of the inode among the cells. -/
def cellOf (k : Fin 13) : Nat := if k = indirect then maxfile else k.val

theorem slot_cellOf (disk : Nat → Data) (ip : Inode) (k : Fin 13) :
    slot disk ip (cellOf k) = (ip.addrs k).toNat := by
  unfold cellOf
  split_ifs with table
  · rw [table, slot_table]
  · have near : k.val < ndirect := by
      have value : k.val ≠ 12 := fun same => table (Fin.ext same)
      have bound := k.isLt
      unfold ndirect
      omega
    rw [slot_direct near]
    exact congrArg (fun i => (ip.addrs i).toNat) (Fin.ext (Nat.mod_eq_of_lt k.isLt))

/-- A direct slot does not show in the others. -/
theorem slot_setAddr_direct {disk : Nat → Data} (direct : k ≠ indirect) (other : j ≠ k.val) :
    slot disk (ip.setAddr k b) j = slot disk ip j := by
  have same := ip.setAddr_other b (Ne.symm direct)
  by_cases near : j < ndirect
  · rw [slot_direct near, slot_direct near]
    refine congrArg UInt32.toNat (ip.setAddr_other b fun self => other ?_)
    rw [← self]
    have lower : j < 13 := by
      unfold ndirect at near
      omega
    exact (Nat.mod_eq_of_lt lower).symm
  · unfold slot
    rw [same]
    split_ifs <;> rfl

/-- The other slots of the inode are as before, also the entries of a new block of block numbers. -/
theorem slot_setAddr {disk : Nat → Data} (zero : k = indirect → ∀ x, disk b x = 0)
    (small : b < 4294967296) (empty : ip.addrs k = 0) (other : j ≠ cellOf k) :
    slot disk (ip.setAddr k b) j = slot disk ip j := by
  have word : (UInt32.ofNat b).toNat = b := UInt32.toNat_ofNat_of_lt' small
  by_cases table : k = indirect
  · subst table
    have near : ∀ i, i < ndirect → slotIndex i ≠ indirect := by
      intro i lower same
      have value : i % 13 = 12 := congrArg Fin.val same
      unfold ndirect at lower
      omega
    have pointer := ip.setAddr_same indirect b
    by_cases direct : j < ndirect
    · rw [slot_direct direct, slot_direct direct]
      exact congrArg UInt32.toNat (ip.setAddr_other b (near j direct))
    by_cases inside : j < maxfile
    · rw [slot_entry_none (by omega) inside empty]
      by_cases none_ : UInt32.ofNat b = 0
      · exact slot_entry_none (by omega) inside (pointer.trans none_)
      · rw [slot_entry (by omega) inside (by rw [pointer]; exact none_), pointer, word]
        unfold readWord
        rw [zero rfl, zero rfl, zero rfl, zero rfl]
        rfl
    · have beyond : maxfile < j := by
        have ne : j ≠ maxfile := other
        omega
      rw [slot_beyond beyond, slot_beyond beyond]
  · have index : cellOf k = k.val := if_neg table
    exact slot_setAddr_direct table (index ▸ other)

/-- A slot of the inode that was empty gets a block that was free. -/
theorem Owned.gain_slot (owned : Owned sb s.disk node ∅) (valid : sb.Valid)
    (number : inum < sb.ninodes) (empty : (node inum).addrs k = 0) (below : b < sb.size)
    (free : marked sb s.disk b = false) :
    Gained sb inum (cellOf k) s node b ((node inum).setAddr k b) (s.alloc sb b) := by
  have small := valid.small
  have size : fssize = 1000 := rfl
  have zero : ∀ x, (s.alloc sb b).disk b x = 0 := fun x => congrFun (Vol.write_same ..) x
  have hand := owned.alloc valid free below
  have here : slot (s.alloc sb b).disk ((node inum).setAddr k b) (cellOf k) = b := by
    rw [slot_cellOf, Inode.setAddr_same, UInt32.toNat_ofNat_of_lt' (by unfold UInt32.size; omega)]
  have rest : ∀ i, i ≠ cellOf k →
      slot (s.alloc sb b).disk ((node inum).setAddr k b) i = slot s.disk (node inum) i := by
    intro i other
    rw [slot_setAddr (fun _ => zero) (by omega) empty other]
    exact owned.alloc_slot free below number
  have placed : Owned sb (s.alloc sb b).disk
      (Function.update node inum ((node inum).setAddr k b)) (insert b ∅ \ {b}) := by
    refine hand.put (j := cellOf k) valid (Set.mem_insert ..) number ?_ (fun _ _ => rfl) ?_ ?_
    · rw [owned.alloc_slot free below number, slot_cellOf, empty]
      rfl
    · rw [Function.update_self]
      exact here
    · intro n i number' other
      by_cases self : n = inum
      · subst self
        rw [Function.update_self, owned.alloc_slot free below number]
        exact rest i fun same => other (by rw [same])
      · rw [Function.update_of_ne self]
  exact {
    owned := by
      rwa [Set.insert_sdiff_of_mem _ (Set.mem_singleton b), Set.empty_sdiff] at placed
    here := here
    positive := by
      have above := owned.dataStart_le free
      have start := bmapstart_lt_dataStart sb
      omega
    zero := zero
    fresh := Owned.not_used free
    rest := rest
    others := fun n number' _ i => owned.alloc_slot free below number'
    data := fun x inUse _ => Owned.alloc_used free below inUse
    inodes := fun x lower => by
      have start := bmapstart_le_bblock sb b
      have above := owned.dataStart_le free
      have data := bmapstart_lt_dataStart sb
      exact Owned.alloc_other (by omega) (by omega)
    room := owned.alloc_freeBlocks free below
    fields := rfl }

/-- An entry in a block of block numbers changes no other one. -/
theorem slot_writeWord (disk : Nat → Data) (b : Nat) (some_ : ip.addrs indirect ≠ 0) (far : ndirect ≤ bn)
    (other : j ≠ bn) : slot (Function.update disk (ip.addrs indirect).toNat
      (writeWord (disk (ip.addrs indirect).toNat) (4 * (bn - ndirect)) b)) ip j = slot disk ip j := by
  by_cases entry : ndirect ≤ j ∧ j < maxfile
  · rw [slot_entry entry.1 entry.2 some_, slot_entry entry.1 entry.2 some_, Function.update_self,
      readWord_writeWord_of_apart (by omega)]
  · unfold slot
    split_ifs with near inside
    · rfl
    · exact absurd ⟨Nat.le_of_not_lt near, inside⟩ entry
    · rfl
    · rfl

theorem Owned.table_used (owned : Owned sb s.disk node ∅) (number : inum < sb.ninodes)
    (some_ : (node inum).addrs indirect ≠ 0) :
    ((node inum).addrs indirect).toNat ∈ used sb s.disk := by
  have table : slot s.disk (node inum) maxfile ≠ 0 := by
    rw [slot_table]
    exact fun zero => some_ (addrs_eq_zero_iff.mpr zero)
  have inUse := owned.slot_used number table
  rwa [slot_table] at inUse

/-- An entry of the block of block numbers that was empty gets a block that was free. -/
theorem Owned.gain_entry (owned : Owned sb s.disk node ∅) (valid : sb.Valid)
    (number : inum < sb.ninodes) (some_ : (node inum).addrs indirect ≠ 0) (far : ndirect ≤ bn)
    (inside : bn < maxfile) (empty : slot s.disk (node inum) bn = 0) (below : b < sb.size)
    (free : marked sb s.disk b = false) : Gained sb inum bn s node b (node inum)
      ((s.alloc sb b).write ((node inum).addrs indirect).toNat
        (writeWord (s.disk ((node inum).addrs indirect).toNat) (4 * (bn - ndirect)) b)) := by
  have table : slot s.disk (node inum) maxfile ≠ 0 := by
    rw [slot_table]
    exact fun zero => some_ (addrs_eq_zero_iff.mpr zero)
  have inUse := owned.table_used number some_
  have small := valid.small
  have size : fssize = 1000 := rfl
  have hand := owned.alloc valid free below
  have kept := Owned.alloc_used free below inUse
  generalize ia_ : ((node inum).addrs indirect).toNat = ia at *
  have rest : ∀ i, i ≠ bn → slot ((s.alloc sb b).write ia
      (writeWord (s.disk ia) (4 * (bn - ndirect)) b)).disk (node inum) i =
        slot (s.alloc sb b).disk (node inum) i := by
    intro i other
    subst ia_
    have step := slot_writeWord (s.alloc sb b).disk b some_ far other
    rw [kept] at step
    exact step
  have others : ∀ n, n < sb.ninodes → n ≠ inum → ∀ i, slot ((s.alloc sb b).write ia
      (writeWord (s.disk ia) (4 * (bn - ndirect)) b)).disk (node n) i =
        slot (s.alloc sb b).disk (node n) i := by
    intro n number' other i
    refine slot_congr fun table' => Vol.write_other _ _ fun same => other ?_
    rw [owned.alloc_slot free below number'] at same
    refine (owned.once (i := maxfile) number number' table ?_).1
    rw [same, slot_table, ia_]
  have here : slot ((s.alloc sb b).write ia
      (writeWord (s.disk ia) (4 * (bn - ndirect)) b)).disk (node inum) bn = b := by
    rw [slot_entry far inside some_, ia_, Vol.write_same, readWord_writeWord (by omega)]
  have placed : Owned sb ((s.alloc sb b).write ia
      (writeWord (s.disk ia) (4 * (bn - ndirect)) b)).disk node (insert b ∅ \ {b}) := by
    refine hand.put (j := bn) valid (Set.mem_insert ..) number ?_ (fun x lower => ?_) here ?_
    · rw [owned.alloc_slot free below number]
      exact empty
    · have lower' := bblock_lt_dataStart lower
      have above := inUse.1
      exact marked_congr (Vol.write_other _ _ (by omega))
    · intro n i number' other
      by_cases self : n = inum
      · subst self
        exact rest i fun same => other (by rw [same])
      · exact others n number' self i
  exact {
    owned := by
      rw [Function.update_eq_self]
      rwa [Set.insert_sdiff_of_mem _ (Set.mem_singleton b), Set.empty_sdiff] at placed
    here := here
    positive := by
      have above := owned.dataStart_le free
      have start := bmapstart_lt_dataStart sb
      omega
    zero := fun x => by
      have apart : b ≠ ia := by
        rintro rfl
        exact Owned.not_used free inUse
      rw [Vol.write_other _ _ apart]
      exact congrFun (Vol.write_same ..) x
    fresh := Owned.not_used free
    rest := fun i other => (rest i other).trans (owned.alloc_slot free below number)
    others := fun n number' other i =>
      (others n number' other i).trans (owned.alloc_slot free below number')
    data := fun x inUse' other => by
      rw [slot_table, ia_] at other
      rw [Vol.write_other _ _ other]
      exact Owned.alloc_used free below inUse'
    inodes := fun x lower => by
      have start := bmapstart_le_bblock sb b
      have above := owned.dataStart_le free
      have above' := inUse.1
      have data := bmapstart_lt_dataStart sb
      rw [Vol.write_other _ _ (by omega)]
      exact Owned.alloc_other (by omega) (by omega)
    room := by
      rw [← owned.alloc_freeBlocks free below]
      congr 1
      refine freeBlocks_congr fun x lower => marked_congr (Vol.write_other _ _ ?_)
      have lower' := bblock_lt_dataStart lower
      have above := inUse.1
      omega
    fields := rfl }

/-- A block of a file that was there before keeps its bytes. -/
theorem Gained.content (gained : Gained sb inum j s node b ip' t) (owned : Owned sb s.disk node loose)
    (number : inum < sb.ninodes) (number' : n < sb.ninodes) {i : Nat} (inside : i < maxfile)
    (some_ : slot s.disk (node n) i ≠ 0) :
    t.disk (slot s.disk (node n) i) = s.disk (slot s.disk (node n) i) := by
  refine gained.data _ (owned.slot_used number' some_) fun same => ?_
  by_cases table : j = maxfile
  · have new := gained.here
    rw [table, ← same] at new
    exact gained.fresh (new ▸ owned.slot_used number' some_)
  · rw [gained.rest maxfile (Ne.symm table)] at same
    have cell := (owned.once number' number some_ same.symm).2
    omega

/-! ## Files without holes -/

/-- A file has its first `len` blocks and no others. -/
structure Shape (disk : Nat → Data) (ip : Inode) (len : Nat) : Prop where
  most : len ≤ maxfile
  blocks : ∀ j, j < maxfile → (slot disk ip j ≠ 0 ↔ j < len)
  table : slot disk ip maxfile ≠ 0 ↔ ndirect < len

theorem Shape.congr {disk disk' : Nat → Data} {m : Nat} (shape : Shape disk ip m)
    (slots : ∀ j, slot disk' ip' j = slot disk ip j) : Shape disk' ip' m where
  most := shape.most
  blocks j inside := by
    rw [slots]
    exact shape.blocks j inside
  table := by
    rw [slots]
    exact shape.table

/-- Every inode in memory owns its blocks, and inode `n` has the first `len n` of them. -/
structure Sound (sb : Superblock) (disk : Nat → Data) (node : Nat → Inode) (len : Nat → Nat) :
    Prop where
  owned : Owned sb disk node ∅
  shape : ∀ n, n < sb.ninodes → Shape disk (node n) (len n)

theorem Sound.congr {disk : Nat → Data} {node' : Nat → Inode} {len' : Nat → Nat}
    (sound : Sound sb disk node len) (valid : sb.Valid)
    (same : ∀ n, n < sb.ninodes → node' n = node n ∧ len' n = len n) : Sound sb disk node' len' where
  owned := sound.owned.congr valid (fun _ _ => rfl) fun n number j => by rw [(same n number).1]
  shape n number := by
    rw [(same n number).1, (same n number).2]
    exact sound.shape n number

/-- The blocks of a file with `len` blocks of content. -/
def total (len : Nat) : Nat := if ndirect < len then len + 1 else len

/-- What `bmap` has done when it returns block `b` for block `bn` of the inode. -/
structure Mapped (sb : Superblock) (inum bn : Nat) (s : Vol) (node : Nat → Inode) (len : Nat → Nat)
    (b : Nat) (ip' : Inode) (t : Vol) : Prop where
  sound : Sound sb t.disk (Function.update node inum ip')
    (Function.update len inum (max (len inum) (bn + 1)))
  here : slot t.disk ip' bn = b
  slots : ∀ n, n < sb.ninodes → ∀ j, j < len n →
    slot t.disk (Function.update node inum ip' n) j = slot s.disk (node n) j
  data : ∀ n, n < sb.ninodes → ∀ j, j < len n →
    t.disk (slot s.disk (node n) j) = s.disk (slot s.disk (node n) j)
  inodes : ∀ x, x < sb.bmapstart → t.disk x = s.disk x
  room : freeBlocks sb t.disk + total (max (len inum) (bn + 1)) =
    freeBlocks sb s.disk + total (len inum)
  fields : ip' = { node inum with addrs := ip'.addrs }
  present : bn < len inum → ip' = node inum
  zero : len inum ≤ bn → ∀ x, t.disk b x = 0

/-- The next block of a file, if no block of block numbers is needed. -/
theorem Gained.mapped (gained : Gained sb inum bn s node b ip' t) (sound : Sound sb s.disk node len)
    (number : inum < sb.ninodes) (next : bn = len inum) (inside : bn < maxfile)
    (direct : bn ≠ ndirect) : Mapped sb inum bn s node len b ip' t := by
  have length : max (len inum) (bn + 1) = bn + 1 := by omega
  have size : maxfile = 140 := rfl
  have near : ndirect = 12 := rfl
  have shape := sound.shape inum number
  refine ⟨⟨gained.owned, fun n number' => ?_⟩, gained.here, fun n number' j lower => ?_,
    fun n number' j lower => ?_, gained.inodes, ?_, gained.fields, fun lower => by omega,
    fun _ => gained.zero⟩
  · by_cases self : n = inum
    · subst self
      rw [Function.update_self, Function.update_self, length]
      refine ⟨by omega, fun j lower => ?_, ?_⟩
      · by_cases last : j = bn
        · rw [last, gained.here]
          exact ⟨fun _ => by omega, fun _ => gained.positive⟩
        · rw [gained.rest j last, shape.blocks j lower]
          omega
      · rw [gained.rest maxfile (by omega), shape.table]
        omega
    · rw [Function.update_of_ne self, Function.update_of_ne self]
      exact (sound.shape n number').congr (gained.others n number' self)
  · by_cases self : n = inum
    · subst self
      rw [Function.update_self]
      exact gained.rest j (by omega)
    · rw [Function.update_of_ne self]
      exact gained.others n number' self j
  · have most := (sound.shape n number').most
    exact gained.content sound.owned number number' (by omega)
      (((sound.shape n number').blocks j (by omega)).mpr lower)
  · have room := gained.room
    rw [length, ← next]
    unfold total
    split_ifs <;> omega

/-- The first block of a file behind the block of block numbers, which is new as well. -/
theorem Gained.mapped_table {ia : Nat} {ip₁ : Inode} {s₁ : Vol}
    (first : Gained sb inum maxfile s node ia ip₁ s₁)
    (second : Gained sb inum bn s₁ (Function.update node inum ip₁) b ip₁ t)
    (sound : Sound sb s.disk node len) (number : inum < sb.ninodes) (next : bn = len inum)
    (boundary : bn = ndirect) : Mapped sb inum bn s node len b ip₁ t := by
  have length : max (len inum) (bn + 1) = bn + 1 := by omega
  have size : maxfile = 140 := rfl
  have near : ndirect = 12 := rfl
  have shape := sound.shape inum number
  have self₁ : Function.update node inum ip₁ inum = ip₁ := Function.update_self ..
  have rest : ∀ j, j < maxfile → j ≠ bn → slot t.disk ip₁ j = slot s.disk (node inum) j := by
    intro j inside other
    rw [second.rest j other, self₁]
    exact first.rest j (by omega)
  have others : ∀ n, n < sb.ninodes → n ≠ inum → ∀ i,
      slot t.disk (node n) i = slot s.disk (node n) i := by
    intro n number' other i
    have step := second.others n number' other i
    rw [Function.update_of_ne other] at step
    rw [step]
    exact first.others n number' other i
  refine ⟨⟨?_, fun n number' => ?_⟩, second.here, fun n number' j lower => ?_,
    fun n number' j lower => ?_, fun x lower => ?_, ?_, first.fields, fun lower => by omega,
    fun _ => second.zero⟩
  · have owned := second.owned
    rwa [Function.update_idem] at owned
  · by_cases self : n = inum
    · subst self
      rw [Function.update_self, Function.update_self, length]
      refine ⟨by omega, fun j lower => ?_, ?_⟩
      · by_cases last : j = bn
        · rw [last, second.here]
          exact ⟨fun _ => by omega, fun _ => second.positive⟩
        · rw [rest j lower last, shape.blocks j lower]
          omega
      · rw [second.rest maxfile (by omega), self₁, first.here]
        exact ⟨fun _ => by omega, fun _ => first.positive⟩
    · rw [Function.update_of_ne self, Function.update_of_ne self]
      exact (sound.shape n number').congr (others n number' self)
  · have most := (sound.shape n number').most
    by_cases self : n = inum
    · subst self
      rw [Function.update_self]
      exact rest j (by omega) (by omega)
    · rw [Function.update_of_ne self]
      exact others n number' self j
  · have most := (sound.shape n number').most
    have some_ := ((sound.shape n number').blocks j (by omega)).mpr lower
    have kept := first.content sound.owned number number' (by omega) some_
    have same : slot s₁.disk (Function.update node inum ip₁ n) j = slot s.disk (node n) j := by
      by_cases self : n = inum
      · subst self
        rw [self₁]
        exact first.rest j (by omega)
      · rw [Function.update_of_ne self]
        exact first.others n number' self j
    have step := second.content first.owned number number' (i := j) (by omega) (by rwa [same])
    rw [same] at step
    rw [step, kept]
  · rw [second.inodes x lower, first.inodes x lower]
  · have room₁ := first.room
    have room₂ := second.room
    rw [length, ← next]
    unfold total
    rw [if_pos (by omega), if_neg (by omega)]
    omega

/-- A block that the file has. -/
theorem Sound.mapped (sound : Sound sb s.disk node len) (lower : bn < len inum) :
    Mapped sb inum bn s node len (slot s.disk (node inum) bn) (node inum) s := by
  have length : max (len inum) (bn + 1) = len inum := by omega
  refine ⟨?_, rfl, fun n _ j _ => ?_, fun _ _ _ _ => rfl, fun _ _ => rfl, ?_, rfl, fun _ => rfl,
    fun beyond => by omega⟩
  · rw [length, Function.update_eq_self, Function.update_eq_self]
    exact sound
  · rw [Function.update_eq_self]
  · rw [length]

section Runs

variable {ia : Nat} {s₁ s₂ : Vol} (far : ¬ bn < ndirect) (inside : bn < maxfile)
  (first : slotBlock sb ip indirect s = .ok ((ia, ip'), s₁)) (block : ia < fssize)

include far inside first block

theorem bmap_entry_found (some_ : readWord (s₁.disk ia) (4 * (bn - ndirect)) ≠ 0) :
    bmap sb ip bn s = .ok ((readWord (s₁.disk ia) (4 * (bn - ndirect)), ip'), s₁) := by
  have index : bn - ndirect < nindirect := Nat.sub_lt_left_of_lt_add (Nat.le_of_not_lt far) inside
  unfold bmap
  rw [if_neg far, if_pos index]
  refine bind_run_iff.mpr ⟨_, _, first, bind_run_iff.mpr ⟨_, _, bread_run List.not_mem_nil block, ?_⟩⟩
  rw [if_neg some_]
  rfl

theorem bmap_entry_new (none_ : readWord (s₁.disk ia) (4 * (bn - ndirect)) = 0)
    (second : balloc sb [ia] s₁ = .ok (b, s₂)) : bmap sb ip bn s =
      .ok ((b, ip'), s₂.write ia (writeWord (s₁.disk ia) (4 * (bn - ndirect)) b)) := by
  have index : bn - ndirect < nindirect := Nat.sub_lt_left_of_lt_add (Nat.le_of_not_lt far) inside
  unfold bmap
  rw [if_neg far, if_pos index]
  refine bind_run_iff.mpr ⟨_, _, first, bind_run_iff.mpr ⟨_, _, bread_run List.not_mem_nil block, ?_⟩⟩
  rw [if_pos none_]
  exact bind_run_iff.mpr ⟨_, _, second, bind_run_iff.mpr ⟨_, _, logWrite_run, rfl⟩⟩

end Runs

theorem slotBlock_found (some_ : ip.addrs k ≠ 0) :
    slotBlock sb ip k s = .ok (((ip.addrs k).toNat, ip), s) := by
  unfold slotBlock
  rw [if_neg some_]
  rfl

theorem slotBlock_new (empty : ip.addrs k = 0) (alloc : balloc sb [] s = .ok (b, t)) :
    slotBlock sb ip k s = .ok ((b, ip.setAddr k b), t) := by
  unfold slotBlock
  rw [if_pos empty]
  exact bind_run_iff.mpr ⟨_, _, alloc, rfl⟩

/-- On a sound disk `bmap` returns a block that the file has without a change. -/
theorem bmap_present (valid : sb.Valid) (sound : Sound sb s.disk node len)
    (number : inum < sb.ninodes) (present : bn < len inum) :
    bmap sb (node inum) bn s = .ok ((slot s.disk (node inum) bn, node inum), s) := by
  have shape := sound.shape inum number
  have most := shape.most
  have some_ := (shape.blocks bn (by omega)).mpr present
  by_cases direct : bn < ndirect
  · rw [slot_direct direct] at some_ ⊢
    rw [bmap_direct direct]
    exact slotBlock_found fun zero => some_ (addrs_eq_zero_iff.mp zero)
  · have table := shape.table.mpr (by omega)
    have inUse := sound.owned.slot_used number table
    rw [slot_table] at table inUse
    have pointer : (node inum).addrs indirect ≠ 0 := fun zero => table (addrs_eq_zero_iff.mp zero)
    have below := inUse.2.1
    have small := valid.small
    rw [slot_entry (by omega) (by omega) pointer] at some_ ⊢
    exact bmap_entry_found direct (by omega) (slotBlock_found pointer) (by omega) some_

/-- Where the next block of a file goes, and how many blocks that takes. -/
theorem Sound.next_cases (sound : Sound sb s.disk node len) (number : inum < sb.ninodes)
    (next : bn = len inum) (inside : bn < maxfile) :
    (bn < ndirect ∧ (node inum).addrs (slotIndex bn) = 0 ∧ total (bn + 1) = total bn + 1) ∨
    (bn = ndirect ∧ (node inum).addrs indirect = 0 ∧ total (bn + 1) = total bn + 2) ∨
    (ndirect < bn ∧ (node inum).addrs indirect ≠ 0 ∧
      readWord (s.disk ((node inum).addrs indirect).toNat) (4 * (bn - ndirect)) = 0 ∧
      total (bn + 1) = total bn + 1) := by
  have shape := sound.shape inum number
  have empty : slot s.disk (node inum) bn = 0 := by
    by_contra some_
    have lower := (shape.blocks bn inside).mp some_
    omega
  have table : (node inum).addrs indirect ≠ 0 ↔ ndirect < bn := by
    rw [next, ← shape.table, slot_table]
    exact addrs_eq_zero_iff.not
  unfold total
  rcases Nat.lt_trichotomy bn ndirect with direct | boundary | far
  · rw [slot_direct direct] at empty
    exact .inl ⟨direct, addrs_eq_zero_iff.mpr empty, by split_ifs <;> omega⟩
  · refine .inr (.inl ⟨boundary, ?_, by split_ifs <;> omega⟩)
    by_contra some_
    have lower := table.mp some_
    omega
  · have some_ := table.mpr far
    rw [slot_entry far.le inside some_] at empty
    exact .inr (.inr ⟨far, some_, empty, by split_ifs <;> omega⟩)

theorem Sound.append_slot (sound : Sound sb s.disk node len) (valid : sb.Valid)
    (number : inum < sb.ninodes) (next : bn = len inum) (direct : bn < ndirect)
    (empty : (node inum).addrs (slotIndex bn) = 0) (below : b < sb.size)
    (free : marked sb s.disk b = false) :
    Mapped sb inum bn s node len b ((node inum).setAddr (slotIndex bn) b) (s.alloc sb b) := by
  have near : ndirect = 12 := rfl
  have size : maxfile = 140 := rfl
  have index : (slotIndex bn).val = bn := Nat.mod_eq_of_lt (by omega)
  have cell : cellOf (slotIndex bn) = bn := by
    unfold cellOf
    rw [if_neg fun same => ?_, index]
    have value : (slotIndex bn).val = 12 := congrArg Fin.val same
    omega
  have gained := sound.owned.gain_slot valid number empty below free
  rw [cell] at gained
  exact gained.mapped sound number next (by omega) (by omega)

theorem Sound.append_entry (sound : Sound sb s.disk node len) (valid : sb.Valid)
    (number : inum < sb.ninodes) (next : bn = len inum) (far : ndirect < bn) (inside : bn < maxfile)
    (some_ : (node inum).addrs indirect ≠ 0)
    (empty : readWord (s.disk ((node inum).addrs indirect).toNat) (4 * (bn - ndirect)) = 0)
    (below : b < sb.size) (free : marked sb s.disk b = false) :
    Mapped sb inum bn s node len b (node inum)
      ((s.alloc sb b).write ((node inum).addrs indirect).toNat
        (writeWord (s.disk ((node inum).addrs indirect).toNat) (4 * (bn - ndirect)) b)) := by
  rw [← slot_entry far.le inside some_] at empty
  have gained := sound.owned.gain_entry valid number some_ far.le inside empty below free
  exact gained.mapped sound number next inside (by omega)

/-- The block of block numbers comes first, and it is empty. -/
theorem Sound.append_table {ia : Nat} (sound : Sound sb s.disk node len) (valid : sb.Valid)
    (number : inum < sb.ninodes) (next : bn = len inum) (boundary : bn = ndirect)
    (empty : (node inum).addrs indirect = 0) (below : ia < sb.size)
    (free : marked sb s.disk ia = false) (below' : b < sb.size)
    (free' : marked sb (s.alloc sb ia).disk b = false) :
    Mapped sb inum bn s node len b ((node inum).setAddr indirect ia)
      (((s.alloc sb ia).alloc sb b).write ia
        (writeWord ((s.alloc sb ia).disk ia) (4 * (bn - ndirect)) b)) := by
  have near : ndirect = 12 := rfl
  have size : maxfile = 140 := rfl
  have first := sound.owned.gain_slot valid number empty below free
  have self : Function.update node inum ((node inum).setAddr indirect ia) inum =
    (node inum).setAddr indirect ia := Function.update_self ..
  generalize (node inum).setAddr indirect ia = ip₁ at *
  have here : (ip₁.addrs indirect).toNat = ia := by
    have cell := first.here
    rwa [slot_cellOf] at cell
  have some_ : ip₁.addrs indirect ≠ 0 := by
    intro zero
    rw [zero] at here
    exact first.positive here.symm
  have unused : slot s.disk (node inum) bn = 0 := by
    by_contra filled
    have lower := ((sound.shape inum number).blocks bn (by omega)).mp filled
    omega
  have far : ndirect ≤ bn := by omega
  have second := first.owned.gain_entry valid number (by rwa [self]) far (by omega)
    (by
      rw [self, first.rest bn (by unfold cellOf; rw [if_pos rfl]; omega)]
      exact unused) below' free'
  rw [self, here] at second
  exact first.mapped_table second sound number next boundary

/-- On a sound disk `bmap` appends the next block, if there are free ones. -/
theorem bmap_append (valid : sb.Valid) (sound : Sound sb s.disk node len)
    (number : inum < sb.ninodes) (next : bn = len inum) (inside : bn < maxfile)
    (room : total (bn + 1) ≤ total bn + freeBlocks sb s.disk) :
    ∃ b ip' t, bmap sb (node inum) bn s = .ok ((b, ip'), t) ∧
      Mapped sb inum bn s node len b ip' t := by
  have small := valid.small
  rcases sound.next_cases number next inside with
    ⟨direct, empty, cost⟩ | ⟨boundary, empty, cost⟩ | ⟨far, some_, empty, cost⟩
  · obtain ⟨b, alloc, below, free⟩ := balloc_returns (s := s) valid (by omega) []
      fun _ wrong => nomatch wrong
    refine ⟨b, _, _, ?_, sound.append_slot valid number next direct empty below free⟩
    rw [bmap_direct direct]
    exact slotBlock_new empty alloc
  · obtain ⟨ia, alloc, below, free⟩ := balloc_returns (s := s) valid (by omega) []
      fun _ wrong => nomatch wrong
    have count := sound.owned.alloc_freeBlocks free below
    have inUse : ia ∈ used sb (s.alloc sb ia).disk := by
      refine ⟨sound.owned.dataStart_le free, below, ?_⟩
      rw [sound.owned.alloc_marked free below, decide_eq_true rfl, Bool.true_or]
    obtain ⟨b, alloc', below', free'⟩ := balloc_returns (s := s.alloc sb ia) valid (by omega) [ia]
      fun x member => by rw [List.mem_singleton.mp member]; exact inUse
    refine ⟨b, _, _, ?_, sound.append_table valid number next boundary empty below free below' free'⟩
    refine bmap_entry_new (by omega) inside (slotBlock_new empty alloc) (by omega) ?_ alloc'
    unfold Vol.alloc
    rw [Vol.write_same]
    rfl
  · have inUse := sound.owned.table_used number some_
    have below := inUse.2.1
    obtain ⟨b, alloc, below', free⟩ := balloc_returns (s := s) valid (by omega)
      [((node inum).addrs indirect).toNat] fun x member => by
        rw [List.mem_singleton.mp member]; exact inUse
    refine ⟨b, _, _, ?_, sound.append_entry valid number next far inside some_ empty below' free⟩
    exact bmap_entry_new (by omega) inside (slotBlock_found some_) (by omega) empty alloc

/-- If `bmap` returns when it has to append a block, then there were free ones. -/
theorem bmap_room (sound : Sound sb s.disk node len) (number : inum < sb.ninodes)
    (next : bn = len inum) (inside : bn < maxfile)
    (run : bmap sb (node inum) bn s = .ok ((b, ip'), t)) :
    total (bn + 1) ≤ total bn + freeBlocks sb s.disk := by
  rcases sound.next_cases number next inside with
    ⟨direct, empty, cost⟩ | ⟨boundary, empty, cost⟩ | ⟨far, some_, empty, cost⟩
  · rw [bmap_direct direct] at run
    rcases slotBlock_ok run with ⟨some_, -⟩ | ⟨-, -, -, below, -, free⟩
    · exact absurd empty some_
    · have room := freeBlocks_pos below free
      omega
  · obtain ⟨-, ia, s₁, first, -, rest⟩ := bmap_indirect_ok (by omega) run
    rcases slotBlock_ok first with ⟨some_, -⟩ | ⟨-, -, rfl, below, -, free⟩
    · exact absurd empty some_
    have count := sound.owned.alloc_freeBlocks free below
    rcases rest with ⟨entry, filled, -⟩ | ⟨-, below', -, free', -⟩
    · have zero : readWord ((s.alloc sb ia).disk ia) (4 * (bn - ndirect)) = 0 := by
        unfold Vol.alloc
        rw [Vol.write_same]
        rfl
      exact absurd (entry.symm.trans zero) filled
    · have room := freeBlocks_pos below' free'
      omega
  · obtain ⟨-, ia, s₁, first, -, rest⟩ := bmap_indirect_ok (by omega) run
    rcases slotBlock_ok first with ⟨-, rfl, rfl, rfl⟩ | ⟨none_, -⟩
    · rcases rest with ⟨entry, filled, -⟩ | ⟨-, below, -, free, -⟩
      · exact absurd (entry.symm.trans empty) filled
      · have room := freeBlocks_pos below free
        omega
    · exact absurd none_ some_

/-- Both cases together. -/
theorem bmap_mapped (valid : sb.Valid) (sound : Sound sb s.disk node len)
    (number : inum < sb.ninodes) (upto : bn ≤ len inum) (inside : bn < maxfile)
    (room : total (max (len inum) (bn + 1)) ≤ total (len inum) + freeBlocks sb s.disk) :
    ∃ b ip' t, bmap sb (node inum) bn s = .ok ((b, ip'), t) ∧
      Mapped sb inum bn s node len b ip' t := by
  by_cases present : bn < len inum
  · exact ⟨_, _, _, bmap_present valid sound number present, sound.mapped present⟩
  · have next : bn = len inum := by omega
    refine bmap_append valid sound number next inside ?_
    rw [Nat.max_eq_right (by omega), ← next] at room
    exact room

end RandomRepo.Xv6.Volume

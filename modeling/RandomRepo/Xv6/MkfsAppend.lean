import RandomRepo.Xv6.Mkfs
import RandomRepo.Xv6.VolumeFile
import Mathlib.Order.Interval.Finset.Nat

/-!
# `iappend` writes to the end of a file

The bitmap is written last, so the image on the way is not a sound disk.  `virt` is the disk
that it stands for: the block of the bitmap shows the blocks below `freeblock`.  On this disk
`iappend` does what `writei` of the kernel does.
-/

namespace RandomRepo.Xv6.Volume.Mkfs

variable {m m' : Build} {s t : Vol} {node : Nat → Inode} {len : Nat → Nat} {ip ip' : Inode}
  {b x bn n off inum turns : Nat} {k : Fin 13} {d : Data} {p : List UInt8}

/-! ## The bitmap -/

theorem bits_succ (used : Nat) : bits (used + 1) = setBit (bits used) used := by
  unfold bits
  rw [List.range_succ, List.foldl_append]
  rfl

theorem bitAt_bits (used x : Nat) : bitAt (bits used) x = decide (x < used) := by
  induction used with
  | zero =>
    rw [decide_eq_false (Nat.not_lt_zero x), bitAt_eq]
    exact BitVec.getLsbD_zero
  | succ used ih =>
    rw [bits_succ, bitAt_setBit, ih, ← Bool.decide_or]
    exact decide_eq_decide.mpr (by omega)

theorem sb_valid : sb.Valid where
  inodes n number := by
    have count : sb.ninodes = 200 := rfl
    have inodes : ipb = 8 := rfl
    have first : sb.inodestart = 32 := rfl
    have bitmap : sb.bmapstart = 58 := rfl
    unfold Superblock.iblock
    rw [inodes, first, bitmap]
    omega
  data := by decide
  small := by decide

theorem bblock_eq (below : b < fssize) : sb.bblock b = sb.bmapstart ∧ b % bpb = b := by
  have size : fssize = 1000 := rfl
  have bits : bpb = 4096 := rfl
  unfold Superblock.bblock
  rw [bits]
  omega

/-- The disk that the image stands for. -/
def virt (m : Build) : Nat → Data := Function.update m.image sb.bmapstart (bits m.freeblock)

theorem virt_of_ne (other : x ≠ sb.bmapstart) : virt m x = m.image x := Function.update_of_ne other ..

/-- The kernel's view of an image on the way.  The blocks not handed out yet are zero. -/
structure Draft (m : Build) (s : Vol) : Prop where
  disk : s.disk = virt m
  sectors : m.sectors = fssize
  bound : m.freeblock ≤ fssize
  data : sb.dataStart ≤ m.freeblock
  fresh : ∀ b, m.freeblock ≤ b → m.image b = fun _ => 0

namespace Draft

theorem marked_eq (draft : Draft m s) (below : b < fssize) :
    marked sb s.disk b = decide (b < m.freeblock) := by
  obtain ⟨block, bit⟩ := bblock_eq below
  unfold marked
  rw [draft.disk, block, bit, virt, Function.update_self, bitAt_bits]

theorem freeBlocks_eq (draft : Draft m s) : freeBlocks sb s.disk = fssize - m.freeblock := by
  have same : (Finset.range sb.size).filter (fun b => marked sb s.disk b = false) =
      Finset.Ico m.freeblock fssize := by
    ext b
    rw [Finset.mem_filter, Finset.mem_range, Finset.mem_Ico]
    constructor
    · rintro ⟨below, free⟩
      rw [draft.marked_eq below, decide_eq_false_iff_not] at free
      exact ⟨Nat.le_of_not_lt free, below⟩
    · rintro ⟨after, below⟩
      refine ⟨below, ?_⟩
      rw [draft.marked_eq below]
      exact decide_eq_false (Nat.not_lt.mpr after)
  unfold freeBlocks
  rw [same, Nat.card_Ico]

/-- What is in use has been handed out. -/
theorem lt_freeblock (draft : Draft m s) (inUse : x ∈ used sb s.disk) :
    x < m.freeblock ∧ x ≠ sb.bmapstart := by
  obtain ⟨above, below, mark⟩ := inUse
  have start := bmapstart_lt_dataStart sb
  rw [draft.marked_eq below, decide_eq_true_eq] at mark
  exact ⟨mark, by omega⟩

/-- The next block is handed out. -/
theorem alloc (draft : Draft m s) (below : m.freeblock < fssize) :
    Draft { m with freeblock := m.freeblock + 1 } (s.alloc sb m.freeblock) where
  disk := by
    have start := bmapstart_lt_dataStart sb
    have data := draft.data
    obtain ⟨block, bit⟩ := bblock_eq below
    unfold Vol.alloc
    rw [block, bit]
    funext x
    by_cases new : x = m.freeblock
    · rw [new, Vol.write_same, virt_of_ne (by omega)]
      exact (draft.fresh _ (Nat.le_refl _)).symm
    · rw [Vol.write_other _ _ new]
      by_cases bitmap : x = sb.bmapstart
      · rw [bitmap, Vol.write_same, draft.disk]
        unfold virt
        rw [Function.update_self, Function.update_self, bits_succ]
      · rw [Vol.write_other _ _ bitmap, draft.disk, virt_of_ne bitmap, virt_of_ne bitmap]
  sectors := draft.sectors
  bound := below
  data := Nat.le_succ_of_le draft.data
  fresh b after := draft.fresh b (Nat.le_of_succ_le after)

/-- A block that has been handed out is written. -/
theorem write (draft : Draft m s) (out : x < m.freeblock) (other : x ≠ sb.bmapstart) (d : Data) :
    Draft { m with image := Function.update m.image x d } (s.write x d) where
  disk := by
    show Function.update s.disk x d = _
    rw [draft.disk]
    exact Function.update_comm (Ne.symm other) ..
  sectors := draft.sectors
  bound := draft.bound
  data := draft.data
  fresh b after := by
    have later : b ≠ x := by
      have after' : m.freeblock ≤ b := after
      omega
    exact (Function.update_of_ne later ..).trans (draft.fresh b after)

end Draft

/-! ## Sectors -/

theorem lseek_of_le (small : x ≤ fssize) : lseek x = x := by
  have size : fssize = 1000 := rfl
  have block : bsize = 512 := rfl
  unfold lseek
  rw [block, u32_of_lt (by omega)]
  omega

theorem rsect_ok (run : rsect x m = .ok (d, m')) :
    lseek x < m.sectors ∧ d = m.image (lseek x) ∧ m' = m := by
  change (if lseek x < m.sectors then pure (m.image (lseek x)) else throw .exit1 : MkfsM Data) m = _
    at run
  by_cases inside : lseek x < m.sectors
  · rw [if_pos inside] at run
    cases run
    exact ⟨inside, rfl, rfl⟩
  · rw [if_neg inside] at run
    cases run

/-- There is no sector behind the last one. -/
theorem lt_of_rsect (run : rsect x m = .ok (d, m')) (sectors : m.sectors = fssize)
    (small : x ≤ fssize) : x < fssize := by
  have inside := (rsect_ok run).1
  rwa [lseek_of_le small, sectors] at inside

theorem rsect_run (draft : Draft m s) (below : x < fssize) (other : x ≠ sb.bmapstart) :
    rsect x m = .ok (s.disk x, m) := by
  show (if lseek x < m.sectors then _ else _ : MkfsM Data) m = _
  rw [lseek_of_le below.le, if_pos (by rw [draft.sectors]; exact below), draft.disk, virt_of_ne other]
  rfl

theorem wsect_run (sectors : m.sectors = fssize) (below : x < fssize) (d : Data) :
    wsect x d m = .ok ((), { m with image := Function.update m.image x d }) := by
  have length : max m.sectors (x + 1) = m.sectors := Nat.max_eq_left (by omega)
  show Except.ok ((), { m with
    image := Function.update m.image (lseek x) d, sectors := max m.sectors (lseek x + 1) }) = _
  rw [lseek_of_le below.le, length]

/-! ## The blocks of a file -/

theorem fillSlot_found (some_ : ip.addrs k ≠ 0) : fillSlot ip k m = .ok (ip, m) := by
  unfold fillSlot
  rw [if_neg some_]
  rfl

theorem fillSlot_new (none_ : ip.addrs k = 0) : fillSlot ip k m =
    .ok (ip.setAddr k m.freeblock, { m with freeblock := m.freeblock + 1 }) := by
  unfold fillSlot
  rw [if_pos none_]
  rfl

theorem appendBlock_direct (direct : bn < ndirect)
    (first : fillSlot ip (slotIndex bn) m = .ok (ip', m')) :
    appendBlock ip bn m = .ok (((ip'.addrs (slotIndex bn)).toNat, ip'), m') := by
  unfold appendBlock
  rw [if_pos direct]
  exact bind_run_iff.mpr ⟨_, _, first, rfl⟩

section Entry

variable {m₁ : Build} (far : ¬ bn < ndirect) (first : fillSlot ip indirect m = .ok (ip', m₁))
  (read : rsect (ip'.addrs indirect).toNat m₁ = .ok (d, m₁))

include far first read

theorem appendBlock_found (some_ : readWord d (4 * (bn - ndirect)) ≠ 0) :
    appendBlock ip bn m = .ok ((readWord d (4 * (bn - ndirect)), ip'), m₁) := by
  unfold appendBlock
  rw [if_neg far]
  refine bind_run_iff.mpr ⟨_, _, first, bind_run_iff.mpr ⟨_, _, read, ?_⟩⟩
  rw [if_neg some_]
  rfl

theorem appendBlock_new (none_ : readWord d (4 * (bn - ndirect)) = 0)
    (sectors : m₁.sectors = fssize) (below : (ip'.addrs indirect).toNat < fssize)
    (small : m₁.freeblock < 4294967296) : appendBlock ip bn m = .ok ((m₁.freeblock, ip'),
      { m₁ with
        image := Function.update m₁.image (ip'.addrs indirect).toNat
          (writeWord d (4 * (bn - ndirect)) m₁.freeblock)
        freeblock := m₁.freeblock + 1 }) := by
  unfold appendBlock
  rw [if_neg far]
  refine bind_run_iff.mpr ⟨_, _, first, bind_run_iff.mpr ⟨_, _, read, ?_⟩⟩
  rw [if_pos none_]
  refine bind_run_iff.mpr ⟨_, _, rfl, bind_run_iff.mpr
    ⟨_, _, wsect_run (m := { m₁ with freeblock := m₁.freeblock + 1 }) sectors below _, ?_⟩⟩
  rw [readWord_writeWord small]
  rfl

end Entry

/-- A block that the file has is found. -/
theorem appendBlock_present (draft : Draft m s) (sound : Sound sb s.disk node len)
    (number : inum < sb.ninodes) (present : bn < len inum) :
    appendBlock (node inum) bn m = .ok ((slot s.disk (node inum) bn, node inum), m) := by
  have shape := sound.shape inum number
  have most := shape.most
  have some_ := (shape.blocks bn (by omega)).mpr present
  by_cases direct : bn < ndirect
  · rw [slot_direct direct] at some_ ⊢
    exact appendBlock_direct direct (fillSlot_found fun zero => some_ (addrs_eq_zero_iff.mp zero))
  · have table := shape.table.mpr (by omega)
    rw [slot_table] at table
    have pointer : (node inum).addrs indirect ≠ 0 := fun zero => table (addrs_eq_zero_iff.mp zero)
    have inUse := sound.owned.table_used number pointer
    rw [slot_entry (by omega) (by omega) pointer] at some_ ⊢
    exact appendBlock_found direct (fillSlot_found pointer)
      (rsect_run draft inUse.2.1 (draft.lt_freeblock inUse).2) some_

theorem setAddr_toNat (small : b ≤ fssize) : ((ip.setAddr k b).addrs k).toNat = b := by
  have size : fssize = 1000 := rfl
  rw [Inode.setAddr_same, UInt32.toNat_ofNat_of_lt' (by unfold UInt32.size; omega)]

/-- The block of block numbers is the next one, and the block of the file comes after it. -/
theorem appendBlock_table (draft : Draft m s) (boundary : bn = ndirect)
    (empty : ip.addrs indirect = 0) (below : m.freeblock < fssize) :
    appendBlock ip bn m = .ok ((m.freeblock + 1, ip.setAddr indirect m.freeblock),
      { m with
        image := Function.update m.image m.freeblock
          (writeWord ((s.alloc sb m.freeblock).disk m.freeblock) (4 * (bn - ndirect))
            (m.freeblock + 1))
        freeblock := m.freeblock + 1 + 1 }) := by
  have size : fssize = 1000 := rfl
  have start := bmapstart_lt_dataStart sb
  have data := draft.data
  have pointer : ((ip.setAddr indirect m.freeblock).addrs indirect).toNat = m.freeblock :=
    setAddr_toNat below.le
  have read := rsect_run (draft.alloc below) (x := m.freeblock) below (by omega)
  have zero : readWord ((s.alloc sb m.freeblock).disk m.freeblock) (4 * (bn - ndirect)) = 0 := by
    unfold Vol.alloc
    rw [Vol.write_same]
    rfl
  have far : ¬ bn < ndirect := by omega
  have run := appendBlock_new far (fillSlot_new empty) (by rw [pointer]; exact read)
    zero draft.sectors (by omega) (by show m.freeblock + 1 < _; omega)
  rw [pointer] at run
  exact run

/-- The next block is appended, if there are enough left. -/
theorem appendBlock_append (draft : Draft m s) (sound : Sound sb s.disk node len)
    (number : inum < sb.ninodes) (next : bn = len inum) (inside : bn < maxfile)
    (room : total (bn + 1) ≤ total bn + freeBlocks sb s.disk) :
    ∃ b ip' m' t, appendBlock (node inum) bn m = .ok ((b, ip'), m') ∧ Draft m' t ∧
      Mapped sb inum bn s node len b ip' t := by
  have size : fssize = 1000 := rfl
  rw [draft.freeBlocks_eq] at room
  have limit : sb.size = fssize := rfl
  have unmarked : ∀ {m' : Build} {t : Vol}, Draft m' t → m'.freeblock < fssize →
      marked sb t.disk m'.freeblock = false := by
    intro m' t draft' below
    rw [draft'.marked_eq below]
    exact decide_eq_false (Nat.lt_irrefl _)
  rcases sound.next_cases number next inside with
    ⟨direct, empty, cost⟩ | ⟨boundary, empty, cost⟩ | ⟨far, some_, empty, cost⟩
  · have below : m.freeblock < fssize := by omega
    refine ⟨m.freeblock, _, _, _, ?_, draft.alloc below,
      sound.append_slot sb_valid number next direct empty below (unmarked draft below)⟩
    rw [appendBlock_direct direct (fillSlot_new empty), setAddr_toNat below.le]
  · have below : m.freeblock + 1 < fssize := by omega
    have draft₁ := draft.alloc (by omega)
    have start := bmapstart_lt_dataStart sb
    have data := draft.data
    have second := unmarked draft₁ below
    refine ⟨m.freeblock + 1, _, _, _, appendBlock_table draft boundary empty (by omega),
      (draft₁.alloc below).write (by show _ < _ + 1 + 1; omega) (by omega) _, ?_⟩
    exact sound.append_table sb_valid number next boundary empty (Nat.lt_of_succ_lt below)
      (unmarked draft (by omega)) below second
  · have below : m.freeblock < fssize := by omega
    have inUse := sound.owned.table_used number some_
    obtain ⟨out, other⟩ := draft.lt_freeblock inUse
    refine ⟨m.freeblock, _, _, _, ?_, (draft.alloc below).write (by show _ < _ + 1; omega) other _,
      sound.append_entry sb_valid number next far inside some_ empty below (unmarked draft below)⟩
    exact appendBlock_new (by omega) (fillSlot_found some_)
      (rsect_run draft inUse.2.1 other) empty draft.sectors inUse.2.1 (by omega)

/-- If the next block is appended and can be read, then there were enough left. -/
theorem appendBlock_room (draft : Draft m s) (sound : Sound sb s.disk node len)
    (number : inum < sb.ninodes) (next : bn = len inum) (inside : bn < maxfile)
    (run : appendBlock (node inum) bn m = .ok ((b, ip'), m')) {m₂ : Build}
    (read : rsect b m' = .ok (d, m₂)) : total (bn + 1) ≤ total bn + freeBlocks sb s.disk := by
  have size : fssize = 1000 := rfl
  have bound := draft.bound
  rw [draft.freeBlocks_eq]
  rcases sound.next_cases number next inside with
    ⟨direct, empty, cost⟩ | ⟨boundary, empty, cost⟩ | ⟨far, some_, empty, cost⟩
  · rw [appendBlock_direct direct (fillSlot_new empty), setAddr_toNat bound] at run
    cases run
    have below := lt_of_rsect read draft.sectors bound
    omega
  · have below : m.freeblock < fssize := by
      have body := run
      unfold appendBlock at body
      rw [if_neg (by omega)] at body
      obtain ⟨ip₁, m₁, fill, body⟩ := bind_run_iff.mp body
      rw [fillSlot_new empty] at fill
      cases fill
      obtain ⟨table, m₃, first, -⟩ := bind_run_iff.mp body
      rw [setAddr_toNat bound] at first
      exact lt_of_rsect first draft.sectors bound
    rw [appendBlock_table draft boundary empty below] at run
    cases run
    have below' := lt_of_rsect read draft.sectors below
    omega
  · have inUse := sound.owned.table_used number some_
    rw [appendBlock_new (by omega) (fillSlot_found some_)
      (rsect_run draft inUse.2.1 (draft.lt_freeblock inUse).2) empty draft.sectors inUse.2.1
      (by omega)] at run
    cases run
    have below := lt_of_rsect read draft.sectors bound
    omega

theorem appendBlock_mapped (draft : Draft m s) (sound : Sound sb s.disk node len)
    (number : inum < sb.ninodes) (upto : bn ≤ len inum) (inside : bn < maxfile)
    (room : total (max (len inum) (bn + 1)) ≤ total (len inum) + freeBlocks sb s.disk) :
    ∃ b ip' m' t, appendBlock (node inum) bn m = .ok ((b, ip'), m') ∧ Draft m' t ∧
      Mapped sb inum bn s node len b ip' t := by
  by_cases present : bn < len inum
  · exact ⟨_, _, _, _, appendBlock_present draft sound number present, draft, sound.mapped present⟩
  · have next : bn = len inum := by omega
    refine appendBlock_append draft sound number next inside ?_
    rwa [Nat.max_eq_right (by omega), ← next] at room

/-! ## The loop -/

theorem append_offsets (off n : Nat) : off - off / bsize * bsize = off % bsize ∧
    min n ((off / bsize + 1) * bsize - off) = min n (bsize - off % bsize) := by
  have size : bsize = 512 := rfl
  rw [size]
  omega

/-- One turn: the block is found, read and written. -/
theorem appendLoop_turn {n1 : Nat} (some_ : p.length ≠ 0) (inside : off / bsize < maxfile)
    (count : min p.length (bsize - off % bsize) = n1)
    (find : appendBlock ip (off / bsize) m = .ok ((b, ip'), m')) (draft : Draft m' t)
    (inUse : b ∈ used sb t.disk) : appendLoop (turns + 1) ip off p m =
      appendLoop turns ip' (off + n1) (p.drop n1) { m' with
        image := Function.update m'.image b (overlay (t.disk b) (off % bsize) (p.take n1)) } := by
  obtain ⟨start, amount⟩ := append_offsets off p.length
  have read := rsect_run draft inUse.2.1 (draft.lt_freeblock inUse).2
  have write := wsect_run draft.sectors inUse.2.1 (overlay (t.disk b) (off % bsize) (p.take n1))
  rw [appendLoop, if_neg some_, if_neg (Nat.not_le.mpr inside), start, amount, count]
  exact (bind_run find).trans ((bind_run read).trans (bind_run write))

/-- The loop of `iappend` writes all bytes if there are blocks for them. -/
theorem appendLoop_written (draft : Draft m s) (sound : Sound sb s.disk node len)
    (number : inum < sb.ninodes) (upto : off ≤ len inum * bsize)
    (inside : off + p.length ≤ maxfile * bsize) (enough : p.length ≤ turns)
    (room : total (max (len inum) (blocksOf (off + p.length))) ≤
      total (len inum) + freeBlocks sb s.disk) :
    ∃ ip' m' t, appendLoop turns (node inum) off p m = .ok ((off + p.length, ip'), m') ∧
      Draft m' t ∧ Written sb inum off p s node len ip' t := by
  induction turns generalizing off p m s node len with
  | zero =>
    obtain rfl : p = [] := List.eq_nil_of_length_eq_zero (by omega)
    exact ⟨_, _, _, rfl, draft, Written.nothing sound upto⟩
  | succ turns ih =>
    by_cases done : p.length = 0
    · obtain rfl : p = [] := List.eq_nil_of_length_eq_zero done
      exact ⟨_, _, _, rfl, draft, Written.nothing sound upto⟩
    generalize count : min p.length (bsize - off % bsize) = n1
    obtain ⟨some_, part, within, block, reach⟩ := turn_reach done count
    have mono := blocksOf_mono (show off + n1 ≤ off + p.length by omega)
    have fits := blocksOf_le inside
    have current : off / bsize ≤ len inum := Nat.div_le_of_le_mul (by rwa [Nat.mul_comm])
    obtain ⟨b, ip₁, m₁, t₁, find, draft₁, mapped⟩ := appendBlock_mapped draft sound number current
      (by omega) ((total_mono (by omega)).trans room)
    obtain ⟨all, sound₂, upto₂, room₂⟩ :=
      mapped.turn sb_valid number upto done count _ rfl _ rfl _ rfl
    have inUse := mapped.inUse number
    obtain ⟨out, other⟩ := draft₁.lt_freeblock inUse
    have length := List.length_drop (i := n1) (l := p)
    obtain ⟨ip', m', t, run, draft', rest⟩ := ih (draft₁.write out other _) sound₂ upto₂
      (by omega) (by omega) (room₂.mpr room)
    rw [Function.update_self, length, show off + n1 + (p.length - n1) = off + p.length by omega]
      at run
    refine ⟨ip', m', t, ?_, draft', all rest⟩
    rw [appendLoop_turn done (by omega) count find draft₁ inUse]
    exact run

/-- If the loop returns, then the file is not too long and there were blocks for all bytes. -/
theorem appendLoop_room (draft : Draft m s) (sound : Sound sb s.disk node len)
    (number : inum < sb.ninodes) (upto : off ≤ len inum * bsize) {r : Nat × Inode}
    (enough : p.length ≤ turns) (run : appendLoop turns (node inum) off p m = .ok (r, m')) :
    off + p.length ≤ maxfile * bsize ∧ total (max (len inum) (blocksOf (off + p.length))) ≤
      total (len inum) + freeBlocks sb s.disk := by
  induction turns generalizing off p m s node len with
  | zero =>
    rw [Nat.le_zero.mp enough]
    exact sound.room_nothing number upto
  | succ turns ih =>
    by_cases done : p.length = 0
    · rw [done]
      exact sound.room_nothing number upto
    have body := run
    rw [appendLoop, if_neg done] at body
    by_cases inside : maxfile ≤ off / bsize
    · rw [if_pos inside] at body
      cases body
    rw [if_neg inside] at body
    obtain ⟨⟨b, ip₁⟩, m₁, find, body⟩ := bind_run_iff.mp body
    obtain ⟨d, m₂, read, -⟩ := bind_run_iff.mp body
    generalize count : min p.length (bsize - off % bsize) = n1
    obtain ⟨some_, part, within, block, reach⟩ := turn_reach done count
    have current : off / bsize ≤ len inum := Nat.div_le_of_le_mul (by rwa [Nat.mul_comm])
    have roomFirst := room_first current fun next =>
      appendBlock_room draft sound number next (by omega) find read
    obtain ⟨b', ip', m', t₁, find', draft₁, mapped⟩ :=
      appendBlock_mapped draft sound number current (by omega) roomFirst
    rw [find] at find'
    cases find'
    obtain ⟨-, sound₂, upto₂, room₂⟩ :=
      mapped.turn sb_valid number upto done count _ rfl _ rfl _ rfl
    have inUse := mapped.inUse number
    obtain ⟨out, other⟩ := draft₁.lt_freeblock inUse
    rw [appendLoop_turn done (by omega) count find draft₁ inUse] at run
    have length := List.length_drop (i := n1) (l := p)
    have self : Function.update node inum ip₁ inum = ip₁ := Function.update_self ..
    rw [← self] at run
    obtain ⟨limit, room⟩ := ih (draft₁.write out other _) sound₂ upto₂ (by omega) run
    exact ⟨by omega, room₂.mp room⟩

end RandomRepo.Xv6.Volume.Mkfs

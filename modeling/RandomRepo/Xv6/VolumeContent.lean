import RandomRepo.Xv6.VolumeMap

/-!
# The content of a file

The bytes of a file are those of its blocks, one after the other.  The loops of `readi` and
`writei` go over a range of them block by block; what they do to the whole range is proved
from what one turn does.
-/

namespace RandomRepo.Xv6.Volume

variable {sb : Superblock} {node : Nat → Inode} {len : Nat → Nat} {s t : Vol} {ip ip' : Inode}
  {n off turns inum p : Nat} {src src₁ src₂ : List UInt8} {f g : Data}

/-! ## Slices -/

theorem slice_length (f : Data) (a m : Nat) : (slice f a m).length = m := by
  rw [slice, List.length_map, List.length_range]

theorem slice_getElem? (f : Data) (a m i : Nat) :
    (slice f a m)[i]? = if i < m then some (f (a + i)) else none := by
  unfold slice
  rw [List.getElem?_map]
  split_ifs with inside
  · rw [List.getElem?_range inside]
    rfl
  · rw [List.getElem?_eq_none (by rw [List.length_range]; omega)]
    rfl

theorem slice_append (f : Data) (a m k : Nat) :
    slice f a (m + k) = slice f a m ++ slice f (a + m) k := by
  refine List.ext_getElem? fun i => ?_
  rw [List.getElem?_append, slice_length, slice_getElem?, slice_getElem?, slice_getElem?]
  split_ifs with inside early late early late
  · rfl
  · rw [Nat.add_assoc, Nat.add_sub_cancel' (by omega)]
  · omega
  · omega
  · omega
  · rfl

theorem slice_congr {a m : Nat} (same : ∀ i, i < m → f (a + i) = g (p + i)) :
    slice f a m = slice g p m := by
  refine List.ext_getElem? fun i => ?_
  rw [slice_getElem?, slice_getElem?]
  split_ifs with inside
  · rw [same i inside]
  · rfl

/-! ## Reading -/

/-- Byte `p` of the file. -/
def fileBytes (disk : Nat → Data) (ip : Inode) : Data := fun p =>
  disk (slot disk ip (p / bsize)) (p % bsize)

/-- The blocks that `n` bytes take. -/
def blocksOf (n : Nat) : Nat := (n + bsize - 1) / bsize

/-- `readi` reads the bytes of the file, and nothing changes. -/
theorem readLoop_run (valid : sb.Valid) (sound : Sound sb s.disk node len)
    (number : inum < sb.ninodes) (inside : off + n ≤ len inum * bsize) (enough : n ≤ turns) :
    readLoop sb turns (node inum) off n s =
      .ok ((slice (fileBytes s.disk (node inum)) off n, node inum), s) := by
  induction turns generalizing off n with
  | zero =>
    obtain rfl : n = 0 := by omega
    rfl
  | succ turns ih =>
    rw [readLoop]
    by_cases done : n = 0
    · rw [if_pos done, done]
      rfl
    rw [if_neg done]
    have size : bsize = 512 := rfl
    have present : off / bsize < len inum :=
      (Nat.div_lt_iff_lt_mul (by decide)).mpr (by omega)
    have shape := sound.shape inum number
    have most := shape.most
    have inUse := sound.owned.slot_used number ((shape.blocks _ (by omega)).mpr present)
    have below := inUse.2.1
    have small := valid.small
    have rest : readLoop sb turns (node inum) (off + min n (bsize - off % bsize))
        (n - min n (bsize - off % bsize)) s = _ := ih (by omega) (by rw [size]; omega)
    refine bind_run_iff.mpr ⟨_, _, bmap_present valid sound number present, bind_run_iff.mpr
      ⟨_, _, bread_run List.not_mem_nil (by omega), bind_run_iff.mpr ⟨_, _, rest, ?_⟩⟩⟩
    have first : slice (s.disk (slot s.disk (node inum) (off / bsize))) (off % bsize)
        (min n (bsize - off % bsize)) =
          slice (fileBytes s.disk (node inum)) off (min n (bsize - off % bsize)) := by
      refine slice_congr fun i lower => ?_
      have block : (off + i) / bsize = off / bsize ∧ (off + i) % bsize = off % bsize + i := by
        rw [size] at lower ⊢
        omega
      unfold fileBytes
      rw [block.1, block.2]
    show Except.ok ((slice (s.disk (slot s.disk (node inum) (off / bsize))) (off % bsize)
      (min n (bsize - off % bsize)) ++ _, node inum), s) = _
    rw [first, ← slice_append, Nat.add_sub_cancel' (Nat.min_le_left ..)]

/-! ## Writing -/

/-- The bytes of a file with `len` blocks, and zeros behind it. -/
def padded (disk : Nat → Data) (ip : Inode) (len : Nat) : Data := fun p =>
  if p / bsize < len then fileBytes disk ip p else 0

/-- `src` has been written to the file at `off`. -/
structure Written (sb : Superblock) (inum off : Nat) (src : List UInt8) (s : Vol)
    (node : Nat → Inode) (len : Nat → Nat) (ip' : Inode) (t : Vol) : Prop where
  sound : Sound sb t.disk (Function.update node inum ip')
    (Function.update len inum (max (len inum) (blocksOf (off + src.length))))
  bytes : padded t.disk ip' (max (len inum) (blocksOf (off + src.length))) =
    overlay (padded s.disk (node inum) (len inum)) off src
  others : ∀ n, n < sb.ninodes → n ≠ inum → ∀ p, p / bsize < len n →
    fileBytes t.disk (node n) p = fileBytes s.disk (node n) p
  inodes : ∀ x, x < sb.bmapstart → t.disk x = s.disk x
  room : freeBlocks sb t.disk + total (max (len inum) (blocksOf (off + src.length))) =
    freeBlocks sb s.disk + total (len inum)
  fields : ip' = { node inum with addrs := ip'.addrs }
  present : blocksOf (off + src.length) ≤ len inum → ip' = node inum

theorem blocksOf_le (upto : off ≤ n * bsize) : blocksOf off ≤ n := by
  have size : bsize = 512 := rfl
  unfold blocksOf
  rw [size] at upto ⊢
  omega

theorem div_lt_blocksOf (lower : p < n) : p / bsize < blocksOf n := by
  have size : bsize = 512 := rfl
  unfold blocksOf
  rw [size]
  omega

theorem Written.nothing (sound : Sound sb s.disk node len) (upto : off ≤ len inum * bsize) :
    Written sb inum off [] s node len (node inum) s := by
  have length : max (len inum) (blocksOf (off + ([] : List UInt8).length)) = len inum :=
    Nat.max_eq_left (blocksOf_le upto)
  refine ⟨?_, ?_, fun _ _ _ _ _ => rfl, fun _ _ => rfl, ?_, rfl, fun _ => rfl⟩
  · rw [length, Function.update_eq_self, Function.update_eq_self]
    exact sound
  · rw [length, overlay_nil]
  · rw [length]

theorem overlay_at {a : Nat} (same : f p = g p) : overlay f a src p = overlay g a src p := by
  unfold overlay
  rw [same]

theorem overlay_covered {a : Nat} (after : a ≤ p) (before : p < a + src.length) :
    overlay f a src p = overlay g a src p := by
  rw [overlay_inside 0 after before, overlay_inside 0 after before]

/-- The bytes that the file had, or that were written. -/
theorem Written.bytes_at (written : Written sb inum off src s node len ip' t)
    (domain : p / bsize < len inum ∨ (off ≤ p ∧ p < off + src.length)) :
    fileBytes t.disk ip' p = overlay (fileBytes s.disk (node inum)) off src p := by
  have bytes := congrFun written.bytes p
  have inside : p / bsize < max (len inum) (blocksOf (off + src.length)) := by
    rcases domain with old | range
    · omega
    · have block := div_lt_blocksOf range.2
      omega
  unfold padded at bytes
  rw [if_pos inside] at bytes
  rw [bytes]
  by_cases range : off ≤ p ∧ p < off + src.length
  · exact overlay_covered range.1 range.2
  · exact overlay_at (if_pos (domain.resolve_right range))

theorem blocksOf_mono {a b : Nat} (le : a ≤ b) : blocksOf a ≤ blocksOf b :=
  Nat.div_le_div_right (by omega)

/-- One write after another. -/
theorem Written.trans {ip₁ : Inode} {s₁ : Vol} (first : Written sb inum off src₁ s node len ip₁ s₁)
    (second : Written sb inum (off + src₁.length) src₂ s₁ (Function.update node inum ip₁)
      (Function.update len inum (max (len inum) (blocksOf (off + src₁.length)))) ip' t) :
    Written sb inum off (src₁ ++ src₂) s node len ip' t := by
  have length : max (max (len inum) (blocksOf (off + src₁.length)))
      (blocksOf (off + src₁.length + src₂.length)) =
        max (len inum) (blocksOf (off + (src₁ ++ src₂).length)) := by
    have mono := blocksOf_mono (Nat.le_add_right (off + src₁.length) src₂.length)
    rw [List.length_append, ← Nat.add_assoc]
    omega
  have self : Function.update node inum ip₁ inum = ip₁ := Function.update_self ..
  have selfLen : Function.update len inum (max (len inum) (blocksOf (off + src₁.length))) inum =
    max (len inum) (blocksOf (off + src₁.length)) := Function.update_self ..
  refine ⟨?_, ?_, fun n number other p lower => ?_, fun x lower => ?_, ?_, ?_, fun fits => ?_⟩
  · have sound := second.sound
    rwa [selfLen, length, Function.update_idem, Function.update_idem] at sound
  · have bytes := second.bytes
    rwa [selfLen, length, self, first.bytes, overlay_append] at bytes
  · have step := second.others n number other p (by rwa [Function.update_of_ne other])
    rw [Function.update_of_ne other] at step
    rw [step]
    exact first.others n number other p lower
  · rw [second.inodes x lower, first.inodes x lower]
  · have room₁ := first.room
    have room₂ := second.room
    rw [selfLen, length] at room₂
    omega
  · have fields₁ := first.fields
    have fields₂ := second.fields
    rw [self] at fields₂
    rw [fields₂, fields₁]
  · rw [List.length_append, ← Nat.add_assoc] at fits
    have mono := blocksOf_mono (Nat.le_add_right (off + src₁.length) src₂.length)
    have kept := second.present (by rw [selfLen]; omega)
    rw [self, first.present (by omega)] at kept
    exact kept

theorem blocksOf_within (some_ : 0 < n) (fits : off % bsize + n ≤ bsize) :
    blocksOf (off + n) = off / bsize + 1 := by
  have size : bsize = 512 := rfl
  unfold blocksOf
  rw [size] at fits ⊢
  omega

/-- A block has been written, and nothing else has changed. -/
theorem Sound.write_content (sound : Sound sb s.disk node len) (valid : sb.Valid)
    (number : n < sb.ninodes) {j : Nat} (present : j < len n) {d : Data} :
    Sound sb (s.write (slot s.disk (node n) j) d).disk node len ∧ ∀ m, m < sb.ninodes → ∀ i,
      slot (s.write (slot s.disk (node n) j) d).disk (node m) i = slot s.disk (node m) i := by
  have shape := sound.shape n number
  have most := shape.most
  have some_ := (shape.blocks j (by omega)).mpr present
  have tables := sound.owned.table_ne_content number (by omega) some_
  have slots : ∀ m, m < sb.ninodes → ∀ i,
      slot (s.write (slot s.disk (node n) j) d).disk (node m) i = slot s.disk (node m) i :=
    fun m number' i => slot_congr fun table => Vol.write_other _ _ (tables m number' table)
  refine ⟨⟨sound.owned.write_content valid number (by omega) some_, fun m number' => ?_⟩, slots⟩
  exact (sound.shape m number').congr (slots m number')

/-- One turn of the loop of `writei`. -/
theorem Mapped.written {b : Nat} (mapped : Mapped sb inum (off / bsize) s node len b ip' t)
    (valid : sb.Valid) (number : inum < sb.ninodes) (upto : off / bsize ≤ len inum)
    (src : List UInt8) (some_ : 0 < src.length) (fits : off % bsize + src.length ≤ bsize) :
    Written sb inum off src s node len ip' (t.write b (overlay (t.disk b) (off % bsize) src)) := by
  have size : bsize = 512 := rfl
  have length := blocksOf_within some_ fits
  have self : Function.update node inum ip' inum = ip' := Function.update_self ..
  have selfLen : Function.update len inum (max (len inum) (off / bsize + 1)) inum =
    max (len inum) (off / bsize + 1) := Function.update_self ..
  have present : off / bsize < Function.update len inum (max (len inum) (off / bsize + 1)) inum := by
    rw [selfLen]
    omega
  have most := (mapped.sound.shape inum number).most
  have filled := ((mapped.sound.shape inum number).blocks _ (by omega)).mpr present
  obtain ⟨sound', slots'⟩ := mapped.sound.write_content (d := overlay (t.disk b) (off % bsize) src)
    valid number present
  have here : slot t.disk (Function.update node inum ip' inum) (off / bsize) = b := by
    rw [self]
    exact mapped.here
  rw [here] at sound' slots' filled
  -- a block that the file or another one had before, other than `b`
  have kept : ∀ n, n < sb.ninodes → ∀ j, j < len n → slot s.disk (node n) j ≠ b → ∀ x,
      (t.write b (overlay (t.disk b) (off % bsize) src)).disk (slot (t.write b (overlay (t.disk b)
        (off % bsize) src)).disk (Function.update node inum ip' n) j) x =
          s.disk (slot s.disk (node n) j) x := by
    intro n number' j lower other x
    rw [slots' n number' j, mapped.slots n number' j lower, Vol.write_other _ _ other,
      mapped.data n number' j lower]
  refine ⟨?_, funext fun p => ?_, fun n number' other p lower => ?_, fun x lower => ?_, ?_,
    mapped.fields, fun within => mapped.present (by omega)⟩
  · rwa [← length] at sound'
  · by_cases block : p / bsize = off / bsize
    · have place : fileBytes (t.write b (overlay (t.disk b) (off % bsize) src)).disk ip' p =
          overlay (t.disk b) (off % bsize) src (p % bsize) := by
        have cell := slots' inum number (off / bsize)
        rw [self, mapped.here] at cell
        unfold fileBytes
        rw [block, cell, Vol.write_same]
      rw [padded, if_pos (by omega), place]
      by_cases range : off ≤ p ∧ p < off + src.length
      · rw [overlay_inside 0 (by rw [size] at fits block ⊢; omega) (by rw [size] at fits block ⊢; omega),
          overlay_inside 0 range.1 range.2]
        congr 1
        rw [size] at block ⊢
        omega
      · rw [overlay_outside (by rw [size] at fits block ⊢; omega), overlay_outside range]
        by_cases old : off / bsize < len inum
        · have cell := mapped.slots inum number _ old
          rw [self, mapped.here] at cell
          rw [padded, if_pos (by omega)]
          unfold fileBytes
          rw [block, ← mapped.data inum number _ old, ← cell]
        · rw [padded, if_neg (by omega)]
          exact mapped.zero (by omega) _
    · have outside : ¬ (off ≤ p ∧ p < off + src.length) := by
        rw [size] at fits block
        omega
      rw [overlay_outside outside]
      by_cases old : p / bsize < len inum
      swap
      · rw [padded, padded, if_neg old, if_neg (by omega)]
      rw [padded, padded, if_pos old, if_pos (by omega)]
      have other : slot s.disk (node inum) (p / bsize) ≠ b := by
        intro same
        rw [← mapped.slots inum number _ old] at same
        exact block (mapped.sound.owned.once number number (by rw [here]; exact filled)
          (same.trans here.symm)).2
      have step := kept inum number _ old other (p % bsize)
      rw [self] at step
      exact step
  · have other' : slot s.disk (node n) (p / bsize) ≠ b := by
      intro same
      rw [← mapped.slots n number' _ lower] at same
      exact other (mapped.sound.owned.once number number' (by rw [here]; exact filled)
        (same.trans here.symm)).1
    have step := kept n number' _ lower other' (p % bsize)
    rw [Function.update_of_ne other] at step
    exact step
  · have above := (mapped.sound.owned.slot_used number (by rw [here]; exact filled)).1
    rw [here] at above
    have start := bmapstart_lt_dataStart sb
    rw [Vol.write_other _ _ (by omega)]
    exact mapped.inodes x lower
  · rw [length, ← mapped.room]
    congr 1
    refine freeBlocks_congr fun x lower => marked_congr (Vol.write_other _ _ ?_)
    have above := (mapped.sound.owned.slot_used number (by rw [here]; exact filled)).1
    rw [here] at above
    have lower' := bblock_lt_dataStart lower
    omega

/-- The block that was found is one of the disk. -/
theorem Mapped.inUse {b : Nat} (mapped : Mapped sb inum n s node len b ip' t)
    (number : inum < sb.ninodes) : b ∈ used sb t.disk := by
  have shape := mapped.sound.shape inum number
  have most := shape.most
  have lower : n < Function.update len inum (max (len inum) (n + 1)) inum := by
    rw [Function.update_self]
    omega
  have inUse := mapped.sound.owned.slot_used number ((shape.blocks n (by omega)).mpr lower)
  rwa [Function.update_self, mapped.here] at inUse

theorem total_mono {a b : Nat} (le : a ≤ b) : total a ≤ total b := by
  unfold total
  split_ifs <;> omega

/-- How far one turn of the loop gets: `m` bytes, to the end of the block at most. -/
theorem turn_reach {m : Nat} (some_ : n ≠ 0) (count : min n (bsize - off % bsize) = m) :
    0 < m ∧ m ≤ n ∧ off % bsize + m ≤ bsize ∧ blocksOf (off + m) = off / bsize + 1 ∧
      off + m ≤ (off / bsize + 1) * bsize := by
  have size : bsize = 512 := rfl
  have positive : 0 < m := by
    rw [size] at count
    omega
  have within : off % bsize + m ≤ bsize := by
    rw [size] at count ⊢
    omega
  refine ⟨positive, by omega, within, blocksOf_within positive within, ?_⟩
  rw [size] at within ⊢
  omega

/-- Nothing is written, and that needs no room. -/
theorem Sound.room_nothing (sound : Sound sb s.disk node len) (number : inum < sb.ninodes)
    (upto : off ≤ len inum * bsize) : off ≤ maxfile * bsize ∧
      total (max (len inum) (blocksOf off)) ≤ total (len inum) + freeBlocks sb s.disk := by
  have most := (sound.shape inum number).most
  rw [Nat.max_eq_left (blocksOf_le upto)]
  exact ⟨upto.trans (Nat.mul_le_mul_right _ most), Nat.le_add_right ..⟩

/-- The first turn needs room only at the end of the blocks. -/
theorem room_first {bn k free : Nat} (upto : bn ≤ k)
    (room : bn = k → total (bn + 1) ≤ total bn + free) :
    total (max k (bn + 1)) ≤ total k + free := by
  by_cases present : bn < k
  · rw [Nat.max_eq_left (by omega)]
    exact Nat.le_add_right ..
  · have next : bn = k := by omega
    rw [Nat.max_eq_right (by omega), ← next]
    exact room next

/-- What the first turn of the loop leaves for the others. -/
theorem Mapped.turn {b m : Nat} (mapped : Mapped sb inum (off / bsize) s node len b ip' t)
    (valid : sb.Valid) (number : inum < sb.ninodes) (upto : off ≤ len inum * bsize)
    (some_ : src.length ≠ 0) (count : min src.length (bsize - off % bsize) = m)
    (node' : Nat → Inode) (nodes : node' = Function.update node inum ip') (len' : Nat → Nat)
    (lens : len' = Function.update len inum (max (len inum) (blocksOf (off + m)))) (s' : Vol)
    (written : s' = t.write b (overlay (t.disk b) (off % bsize) (src.take m))) :
    (∀ {ip₂ u}, Written sb inum (off + m) (src.drop m) s' node' len' ip₂ u →
      Written sb inum off src s node len ip₂ u) ∧
    Sound sb s'.disk node' len' ∧ off + m ≤ len' inum * bsize ∧
    (total (max (len' inum) (blocksOf (off + m + (src.drop m).length))) ≤
        total (len' inum) + freeBlocks sb s'.disk ↔
      total (max (len inum) (blocksOf (off + src.length))) ≤
        total (len inum) + freeBlocks sb s.disk) := by
  obtain ⟨positive, part, within, block, reach⟩ := turn_reach some_ count
  have taken : (src.take m).length = m := by
    rw [List.length_take]
    omega
  have current : off / bsize ≤ len inum := Nat.div_le_of_le_mul (by rwa [Nat.mul_comm])
  have first := mapped.written valid number current (src.take m) (by omega)
    (by rw [taken]; exact within)
  rw [← written] at first
  have self : len' inum = max (len inum) (blocksOf (off + m)) := by
    rw [lens, Function.update_self]
  have sound := first.sound
  have room := first.room
  rw [taken] at sound room
  rw [← nodes, ← lens] at sound
  refine ⟨fun {ip₂ u} rest => ?_, sound, ?_, ?_⟩
  · rw [← List.take_append_drop m src]
    refine first.trans ?_
    rw [taken, ← nodes, ← lens]
    exact rest
  · rw [self, block]
    exact reach.trans (Nat.mul_le_mul_right _ (Nat.le_max_right ..))
  · have mono := blocksOf_mono (show off + m ≤ off + src.length by omega)
    have longest : max (max (len inum) (blocksOf (off + m))) (blocksOf (off + src.length)) =
        max (len inum) (blocksOf (off + src.length)) := by omega
    rw [self, List.length_drop, show off + m + (src.length - m) = off + src.length by omega, longest]
    omega

/-- The loop of `writei` writes all bytes if there are blocks for them. -/
theorem writeLoop_written (valid : sb.Valid) (sound : Sound sb s.disk node len)
    (number : inum < sb.ninodes) (upto : off ≤ len inum * bsize)
    (inside : off + src.length ≤ maxfile * bsize) (enough : src.length ≤ turns)
    (room : total (max (len inum) (blocksOf (off + src.length))) ≤
      total (len inum) + freeBlocks sb s.disk) :
    ∃ ip' t, writeLoop sb turns (node inum) off src s = .ok ((off + src.length, ip'), t) ∧
      Written sb inum off src s node len ip' t := by
  induction turns generalizing off src s node len with
  | zero =>
    obtain rfl : src = [] := List.eq_nil_of_length_eq_zero (by omega)
    exact ⟨_, _, rfl, Written.nothing sound upto⟩
  | succ turns ih =>
    by_cases done : src.length = 0
    · obtain rfl : src = [] := List.eq_nil_of_length_eq_zero done
      exact ⟨_, _, rfl, Written.nothing sound upto⟩
    generalize count : min src.length (bsize - off % bsize) = m
    obtain ⟨some_, part, within, block, reach⟩ := turn_reach done count
    have mono := blocksOf_mono (show off + m ≤ off + src.length by omega)
    have fits := blocksOf_le inside
    have current : off / bsize ≤ len inum := Nat.div_le_of_le_mul (by rwa [Nat.mul_comm])
    have roomFirst : total (max (len inum) (off / bsize + 1)) ≤
        total (len inum) + freeBlocks sb s.disk :=
      (total_mono (by omega)).trans room
    obtain ⟨b, ip₁, s₁, map, mapped⟩ :=
      bmap_mapped valid sound number current (by omega) roomFirst
    obtain ⟨all, sound₁, upto₁, room₁⟩ :=
      mapped.turn valid number upto done count _ rfl _ rfl _ rfl
    have length := List.length_drop (i := m) (l := src)
    obtain ⟨ip', t, run, rest⟩ := ih sound₁ upto₁ (by omega) (by omega) (room₁.mpr room)
    rw [Function.update_self, length, show off + m + (src.length - m) = off + src.length by omega]
      at run
    have below := (mapped.inUse number).2.1
    have small := valid.small
    refine ⟨ip', t, ?_, all rest⟩
    rw [writeLoop, if_neg done]
    refine bind_run_iff.mpr ⟨_, _, map, bind_run_iff.mpr ⟨_, _, bread_run List.not_mem_nil (by omega),
      bind_run_iff.mpr ⟨_, _, logWrite_run, ?_⟩⟩⟩
    rw [count]
    exact run

/-- If the loop returns, then there were blocks for all bytes. -/
theorem writeLoop_room (valid : sb.Valid) (sound : Sound sb s.disk node len)
    (number : inum < sb.ninodes) (upto : off ≤ len inum * bsize)
    (inside : off + src.length ≤ maxfile * bsize) {r : Nat × Inode} (enough : src.length ≤ turns)
    (run : writeLoop sb turns (node inum) off src s = .ok (r, t)) :
    total (max (len inum) (blocksOf (off + src.length))) ≤
      total (len inum) + freeBlocks sb s.disk := by
  induction turns generalizing off src s node len with
  | zero =>
    rw [Nat.le_zero.mp enough]
    exact (sound.room_nothing number upto).2
  | succ turns ih =>
    by_cases done : src.length = 0
    · rw [done]
      exact (sound.room_nothing number upto).2
    rw [writeLoop, if_neg done] at run
    obtain ⟨⟨b, ip₁⟩, s₁, map, run⟩ := bind_run_iff.mp run
    obtain ⟨bp, s₂, read, run⟩ := bind_run_iff.mp run
    obtain ⟨_, s₃, write, rest⟩ := bind_run_iff.mp run
    obtain ⟨rfl, rfl, -, -⟩ := bread_ok read
    cases write
    generalize count : min src.length (bsize - off % bsize) = m at rest
    obtain ⟨some_, part, within, block, reach⟩ := turn_reach done count
    have mono := blocksOf_mono (show off + m ≤ off + src.length by omega)
    have fits := blocksOf_le inside
    have current : off / bsize ≤ len inum := Nat.div_le_of_le_mul (by rwa [Nat.mul_comm])
    have roomFirst := room_first current fun next => bmap_room sound number next (by omega) map
    obtain ⟨b', ip', t', map', mapped⟩ :=
      bmap_mapped valid sound number current (by omega) roomFirst
    rw [map] at map'
    cases map'
    obtain ⟨-, sound₁, upto₁, room₁⟩ :=
      mapped.turn valid number upto done count _ rfl _ rfl _ rfl
    have length := List.length_drop (i := m) (l := src)
    have self : Function.update node inum ip₁ inum = ip₁ := Function.update_self ..
    rw [← self] at rest
    exact room₁.mp (ih sound₁ upto₁ (by omega) (by omega) rest)

end RandomRepo.Xv6.Volume

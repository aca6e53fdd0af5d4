import RandomRepo.Xv6.VolumeInode
import RandomRepo.Xv6.VolumeQuota

/-!
# Reading and writing a file

`readi` and `writei` on a consistent disk.  The inode in memory is the one on the disk.
-/

namespace RandomRepo.Xv6.Volume

variable {sb : Superblock} {dev : Devsw} {s t : Vol} {ip : Inode} {off n inum : Nat}
  {src : List UInt8}

/-- The inode is one of a file or a directory. -/
def Inode.isFile (ip : Inode) : Prop := ip.type ≠ 0 ∧ ip.type ≠ tDev

theorem Inode.isFile.fileSize_eq (file : ip.isFile) : ip.fileSize = ip.size.toNat :=
  if_neg fun none_ => none_.elim file.1 file.2

/-- The bytes of `src` have replaced those of the file from `off` on, and nothing else has changed. -/
structure Rewritten (sb : Superblock) (inum off : Nat) (src : List UInt8) (s t : Vol) : Prop where
  consistent : Consistent sb t.disk
  size : (dinode sb t.disk inum).size.toNat =
    max (dinode sb s.disk inum).size.toNat (off + src.length)
  bytes : content t.disk (dinode sb t.disk inum) =
    (content s.disk (dinode sb s.disk inum)).take off ++ src ++
      (content s.disk (dinode sb s.disk inum)).drop (off + src.length)
  fields : dinode sb t.disk inum = { dinode sb s.disk inum with
    size := (dinode sb t.disk inum).size, addrs := (dinode sb t.disk inum).addrs }
  others : ∀ m, m < sb.ninodes → m ≠ inum → dinode sb t.disk m = dinode sb s.disk m ∧
    content t.disk (dinode sb t.disk m) = content s.disk (dinode sb s.disk m)
  room : freeBlocks sb t.disk +
      total (blocksOf (max (dinode sb s.disk inum).size.toNat (off + src.length))) =
    freeBlocks sb s.disk + total (blocksOf (dinode sb s.disk inum).size.toNat)

/-- Bytes laid over a file that reaches up to them. -/
theorem slice_overlay {f g : Data} {size : Nat} (upto : off ≤ size)
    (same : ∀ p, p < max size (off + src.length) → g p = overlay f off src p) :
    slice g 0 (max size (off + src.length)) =
      (slice f 0 size).take off ++ src ++ (slice f 0 size).drop (off + src.length) := by
  refine List.ext_getElem? fun i => ?_
  have front : ((slice f 0 size).take off).length = off := by
    rw [List.length_take, slice_length]
    omega
  rw [slice_getElem?, List.append_assoc, List.getElem?_append, front]
  by_cases before : i < off
  · rw [if_pos before, if_pos (by omega), List.getElem?_take, if_pos before, slice_getElem?,
      if_pos (by omega), Nat.zero_add, same i (by omega), overlay_outside (by omega)]
  rw [if_neg before, List.getElem?_append]
  by_cases inside : i < off + src.length
  · rw [if_pos (by omega), if_pos (by omega), Nat.zero_add, same i (by omega), overlay,
      if_pos (by omega), List.getElem?_eq_getElem (by omega), Option.getD_some]
  rw [if_neg (show ¬ i - off < src.length by omega), List.getElem?_drop, slice_getElem?]
  rw [show off + src.length + (i - off - src.length) = i by omega]
  by_cases last : i < size
  · rw [if_pos (by omega), if_pos last, Nat.zero_add, same i (by omega), overlay_outside (by omega)]
  · rw [if_neg (by omega), if_neg last]

theorem le_blocksOf (n : Nat) : n ≤ blocksOf n * bsize := by
  have size : bsize = 512 := rfl
  unfold blocksOf
  rw [size]
  omega

theorem blocksOf_max (a b : Nat) : blocksOf (max a b) = max (blocksOf a) (blocksOf b) := by
  rcases Nat.le_total a b with le | le
  · rw [Nat.max_eq_right le, Nat.max_eq_right (blocksOf_mono le)]
  · rw [Nat.max_eq_left le, Nat.max_eq_left (blocksOf_mono le)]

theorem content_congr {disk disk' : Nat → Data}
    (same : ∀ p, p < ip.fileSize → fileBytes disk' ip p = fileBytes disk ip p) :
    content disk' ip = content disk ip :=
  slice_congr fun i lower => by rw [Nat.zero_add, same i lower]

/-- `writei` after its loop, if the file has not grown. -/
theorem Written.rewritten (written : Written sb inum off src s (dinode sb s.disk)
      (fun n => blocksOf (dinode sb s.disk n).fileSize) ip t)
    (valid : sb.Valid) (number : inum < sb.ninodes) (file : (dinode sb s.disk inum).isFile)
    (upto : off ≤ (dinode sb s.disk inum).size.toNat)
    (within : off + src.length ≤ (dinode sb s.disk inum).size.toNat) :
    ip = dinode sb t.disk inum ∧ Rewritten sb inum off src s t := by
  have size := file.fileSize_eq
  have mono : blocksOf (off + src.length) ≤ blocksOf (dinode sb s.disk inum).fileSize :=
    blocksOf_mono (by omega)
  obtain rfl := written.present mono
  have inodes : ∀ n, n < sb.ninodes → dinode sb t.disk n = dinode sb s.disk n :=
    fun n number' => dinode_congr (written.inodes _ (valid.inodes n number'))
  have sound := written.sound
  have room := written.room
  rw [Nat.max_eq_left mono] at sound room
  rw [Function.update_eq_self] at sound
  refine ⟨(inodes inum number).symm, ?_, ?_, ?_, ?_, fun m number' other => ?_, ?_⟩
  · refine sound.congr valid fun n number' => ⟨inodes n number', ?_⟩
    rw [inodes n number']
    by_cases self : n = inum
    · rw [self, Function.update_self]
    · rw [Function.update_of_ne self]
  · rw [inodes inum number]
    omega
  · rw [inodes inum number]
    unfold content
    rw [size]
    refine Eq.trans ?_ (slice_overlay (g := fileBytes t.disk (dinode sb s.disk inum)) upto
      fun p lower => written.bytes_at (.inl (div_lt_blocksOf (by omega))))
    rw [Nat.max_eq_left within]
  · rw [inodes inum number]
  · refine ⟨inodes m number', ?_⟩
    rw [inodes m number']
    exact content_congr fun p lower => written.others m number' other p (div_lt_blocksOf lower)
  · rw [Nat.max_eq_left within, ← size]
    exact room

/-- `writei` after its loop, if the inode is written back with the new size. -/
theorem Written.rewritten_grown (written : Written sb inum off src s (dinode sb s.disk)
      (fun n => blocksOf (dinode sb s.disk n).fileSize) ip t)
    (valid : sb.Valid) (number : inum < sb.ninodes) (file : (dinode sb s.disk inum).isFile)
    (upto : off ≤ (dinode sb s.disk inum).size.toNat)
    (grown : (dinode sb s.disk inum).size.toNat ≤ off + src.length)
    (inside : off + src.length ≤ maxfile * bsize) (logged : List Nat) :
    Rewritten sb inum off src s ⟨setInode sb t.disk inum
      { ip with size := UInt32.ofNat (off + src.length) }, logged⟩ := by
  have limit : maxfile * bsize = 71680 := rfl
  have size := file.fileSize_eq
  have fields := written.fields
  have word : (UInt32.ofNat (off + src.length)).toNat = off + src.length :=
    UInt32.toNat_ofNat_of_lt' (by unfold UInt32.size; omega)
  have inodes : ∀ n, n < sb.ninodes → dinode sb t.disk n = dinode sb s.disk n :=
    fun n number' => dinode_congr (written.inodes _ (valid.inodes n number'))
  have type : ip.type = (dinode sb s.disk inum).type := by rw [fields]
  generalize new : { ip with size := UInt32.ofNat (off + src.length) } = ip₂
  have newSize : ip₂.size.toNat = off + src.length := by rw [← new]; exact word
  have newAddrs : ip₂.addrs = ip.addrs := by rw [← new]
  have newFile : ip₂.isFile := by
    rw [← new]
    unfold Inode.isFile
    dsimp only
    rw [type]
    exact file
  have longest : max (dinode sb s.disk inum).size.toNat (off + src.length) = off + src.length :=
    Nat.max_eq_right (by omega)
  have length : max (blocksOf (dinode sb s.disk inum).fileSize) (blocksOf (off + src.length)) =
      blocksOf (off + src.length) := Nat.max_eq_right (blocksOf_mono (by omega))
  have sound := written.sound
  have room := written.room
  rw [length] at sound room
  have self : (Function.update (dinode sb s.disk) inum ip inum) = ip := Function.update_self ..
  have selfLen : Function.update (fun n => blocksOf (dinode sb s.disk n).fileSize) inum
      (blocksOf (off + src.length)) inum = blocksOf (off + src.length) := Function.update_self ..
  obtain ⟨consistent, data⟩ := sound.setInode valid number ip₂
    (fun n number' other => by
      rw [Function.update_of_ne other, Function.update_of_ne other, inodes n number']
      exact ⟨rfl, rfl⟩)
    (by rw [self, newAddrs]) (by rw [selfLen, newFile.fileSize_eq, newSize])
  have data' : ∀ x, sb.dataStart ≤ x → setInode sb t.disk inum ip₂ x = t.disk x :=
    fun x above => data x ((bmapstart_lt_dataStart sb).le.trans above)
  refine ⟨consistent, ?_, ?_, ?_, fun m number' other => ?_, ?_⟩
  · rw [dinode_setInode, newSize, longest]
  · rw [dinode_setInode]
    unfold content
    rw [newFile.fileSize_eq, newSize, size]
    refine Eq.trans ?_ (slice_overlay (g := fileBytes t.disk ip) upto fun p lower => ?_)
    · rw [longest]
      refine slice_congr fun i lower => ?_
      rw [Nat.zero_add]
      have step := sound.fileBytes_congr (p := i) number data' ip₂ (by rw [self, newAddrs])
        (by rw [selfLen]; exact div_lt_blocksOf lower)
      rwa [self] at step
    · refine written.bytes_at ?_
      by_cases old : p < (dinode sb s.disk inum).size.toNat
      · exact .inl (div_lt_blocksOf (by omega))
      · exact .inr (by omega)
  · rw [dinode_setInode, ← new]
    show ({ ip with size := _ } : Inode) = _
    rw [fields]
  · refine ⟨?_, ?_⟩
    · rw [dinode_setInode_other other, inodes m number']
    · rw [dinode_setInode_other other, inodes m number']
      refine content_congr fun p lower => ?_
      rw [← written.others m number' other p (div_lt_blocksOf lower)]
      have step := sound.fileBytes_congr (p := p) number' data' (dinode sb s.disk m)
        (by rw [Function.update_of_ne other])
        (by rw [Function.update_of_ne other]; exact div_lt_blocksOf lower)
      rwa [Function.update_of_ne other] at step
  · rw [longest, ← size, ← room]
    congr 1
    exact freeBlocks_congr fun b _ => marked_congr (data _ (bmapstart_le_bblock sb b))

theorem writei_rewritten (dev : Devsw) (valid : sb.Valid) (consistent : Consistent sb s.disk)
    (number : inum < sb.ninodes) (file : (dinode sb s.disk inum).isFile)
    (upto : off ≤ (dinode sb s.disk inum).size.toNat)
    (inside : off + src.length ≤ maxfile * bsize)
    (room : total (blocksOf (max (dinode sb s.disk inum).size.toNat (off + src.length))) ≤
      total (blocksOf (dinode sb s.disk inum).size.toNat) + freeBlocks sb s.disk) :
    ∃ t, writei sb dev inum (dinode sb s.disk inum) src off s =
        .ok ((src.length, dinode sb t.disk inum), t) ∧ Rewritten sb inum off src s t := by
  have limit : maxfile * bsize = 71680 := rfl
  have size := file.fileSize_eq
  have word : u32 (off + src.length) = off + src.length := u32_of_lt (by omega)
  rw [blocksOf_max, ← size] at room
  obtain ⟨ip, t, loop, written⟩ := writeLoop_written valid consistent number
    (upto.trans (by rw [← size]; exact le_blocksOf _)) inside (Nat.le_refl _) room
  have sizes : ip.size = (dinode sb s.disk inum).size := by rw [written.fields]
  unfold writei
  dsimp only
  rw [if_neg file.2, word, if_neg (by omega), if_neg (by omega)]
  by_cases grown : (dinode sb s.disk inum).size.toNat < off + src.length
  · have block := valid.inode_block number
    refine ⟨_, bind_run_iff.mpr ⟨_, _, loop, ?_⟩,
      written.rewritten_grown valid number file upto grown.le inside (t.logged ++ [sb.iblock inum])⟩
    dsimp only
    rw [if_pos ⟨by omega, by rw [sizes]; exact grown⟩]
    refine bind_run_iff.mpr ⟨_, _, iupdate_run block, ?_⟩
    rw [dinode_setInode]
    rfl
  · obtain ⟨same, rewritten⟩ := written.rewritten valid number file upto (by omega)
    refine ⟨t, bind_run_iff.mpr ⟨_, _, loop, ?_⟩, rewritten⟩
    dsimp only
    rw [if_neg (by rw [sizes]; omega), same]
    rfl

theorem writei_refuses (file : ip.isFile) (start : off < 4294967296) (count : src.length < 4294967296)
    (outside : ip.size.toNat < off ∨ 4294967296 ≤ off + src.length ∨
      maxfile * bsize < off + src.length) : writei sb dev inum ip src off s = .ok ((-1, ip), s) := by
  have limit : maxfile * bsize = 71680 := rfl
  unfold writei
  dsimp only
  rw [if_neg file.2]
  by_cases first : ip.size.toNat < off ∨ u32 (off + src.length) < off
  · rw [if_pos first]
    rfl
  · have word : u32 (off + src.length) = off + src.length := by
      refine u32_of_lt ?_
      unfold u32 at first
      omega
    rw [if_neg first, if_pos (by omega)]
    rfl

/-- What `writei` has done if it returns. -/
theorem writei_cases (valid : sb.Valid) (consistent : Consistent sb s.disk)
    (number : inum < sb.ninodes) (file : (dinode sb s.disk inum).isFile) (start : off < 4294967296)
    (count : src.length < 4294967296) {r : Int}
    (run : writei sb dev inum (dinode sb s.disk inum) src off s = .ok ((r, ip), t)) :
    (r = -1 ∧ ip = dinode sb s.disk inum ∧ t = s ∧ ((dinode sb s.disk inum).size.toNat < off ∨
        maxfile * bsize < off + src.length)) ∨
      (r = src.length ∧ ip = dinode sb t.disk inum ∧ Rewritten sb inum off src s t ∧
        off ≤ (dinode sb s.disk inum).size.toNat ∧ off + src.length ≤ maxfile * bsize) := by
  have limit : maxfile * bsize = 71680 := rfl
  have size := file.fileSize_eq
  by_cases outside : (dinode sb s.disk inum).size.toNat < off ∨ maxfile * bsize < off + src.length
  · rw [writei_refuses file start count (by omega)] at run
    cases run
    exact .inl ⟨rfl, rfl, rfl, outside⟩
  · have upto : off ≤ (dinode sb s.disk inum).size.toNat := by omega
    have inside : off + src.length ≤ maxfile * bsize := by omega
    have room : total (blocksOf (max (dinode sb s.disk inum).size.toNat (off + src.length))) ≤
        total (blocksOf (dinode sb s.disk inum).size.toNat) + freeBlocks sb s.disk := by
      have body := run
      unfold writei at body
      dsimp only at body
      have word : u32 (off + src.length) = off + src.length := u32_of_lt (by omega)
      rw [if_neg file.2, word, if_neg (by omega), if_neg (by omega)] at body
      obtain ⟨r', s', loop, -⟩ := bind_run_iff.mp body
      have room := writeLoop_room valid consistent number
        (upto.trans (by rw [← size]; exact le_blocksOf _)) inside (Nat.le_refl _) loop
      rw [blocksOf_max, ← size]
      exact room
    obtain ⟨t', run', rewritten⟩ :=
      writei_rewritten dev valid consistent number file upto inside room
    rw [run] at run'
    cases run'
    exact .inr ⟨rfl, rfl, rewritten, upto, inside⟩

theorem readi_refuses (file : ip.isFile) (start : off < 4294967296) (count : n < 4294967296)
    (outside : ip.size.toNat < off ∨ 4294967296 ≤ off + n) :
    readi sb dev ip off n s = .ok ((none, ip), s) := by
  unfold readi
  rw [if_neg file.2, if_pos (by unfold u32; omega)]
  rfl

theorem readi_returns (valid : sb.Valid) (consistent : Consistent sb s.disk)
    (number : inum < sb.ninodes) (file : (dinode sb s.disk inum).isFile)
    (upto : off ≤ (dinode sb s.disk inum).size.toNat) (fits : off + n < 4294967296) :
    readi sb dev (dinode sb s.disk inum) off n s =
      .ok ((some (((content s.disk (dinode sb s.disk inum)).drop off).take n),
        dinode sb s.disk inum), s) := by
  have size := file.fileSize_eq
  have word : u32 (off + n) = off + n := u32_of_lt fits
  have count : (if (dinode sb s.disk inum).size.toNat < off + n
      then (dinode sb s.disk inum).size.toNat - off else n) =
        min n ((dinode sb s.disk inum).size.toNat - off) := by
    split_ifs <;> omega
  have bytes : ((content s.disk (dinode sb s.disk inum)).drop off).take n =
      slice (fileBytes s.disk (dinode sb s.disk inum)) off
        (min n ((dinode sb s.disk inum).size.toNat - off)) := by
    refine List.ext_getElem? fun i => ?_
    unfold content
    rw [List.getElem?_take, List.getElem?_drop, slice_getElem?, slice_getElem?, Nat.zero_add, size]
    split_ifs with short inside both both
    · rfl
    · omega
    · omega
    · rfl
    · omega
    · rfl
  have room : off + min n ((dinode sb s.disk inum).size.toNat - off) ≤
      blocksOf (dinode sb s.disk inum).fileSize * bsize :=
    le_trans (by omega) (le_blocksOf _)
  unfold readi
  rw [if_neg file.2, word, if_neg (by omega)]
  dsimp only
  rw [count, bytes]
  exact bind_run_iff.mpr ⟨_, _, readLoop_run valid consistent number room (Nat.le_refl _), rfl⟩

/-- What a file contains, as `writei` and `readi` see it.  A write that lies outside the file is
refused, and nothing changes.  Any other write replaces just its bytes, if there are blocks for it.
A read returns the bytes that the file has there. -/
theorem file_content (valid : sb.Valid) (consistent : Consistent sb s.disk)
    (number : inum < sb.ninodes) (known : ip = dinode sb s.disk inum) (file : ip.isFile)
    (start : off < 4294967296) (count : src.length < 4294967296) (amount : n < 4294967296) :
    (ip.size.toNat < off ∨ 4294967296 ≤ off + src.length ∨ maxfile * bsize < off + src.length →
      writei sb dev inum ip src off s = .ok ((-1, ip), s)) ∧
    (off ≤ ip.size.toNat → off + src.length ≤ maxfile * bsize →
      total (blocksOf (max ip.size.toNat (off + src.length))) ≤
        total (blocksOf ip.size.toNat) + freeBlocks sb s.disk →
      ∃ t, writei sb dev inum ip src off s = .ok ((src.length, dinode sb t.disk inum), t) ∧
        Rewritten sb inum off src s t) ∧
    (ip.size.toNat < off ∨ 4294967296 ≤ off + n → readi sb dev ip off n s = .ok ((none, ip), s)) ∧
    (off ≤ ip.size.toNat → off + n < 4294967296 →
      readi sb dev ip off n s = .ok ((some (((content s.disk ip).drop off).take n), ip), s)) := by
  subst known
  exact ⟨writei_refuses file start count, writei_rewritten dev valid consistent number file,
    readi_refuses file start amount, readi_returns valid consistent number file⟩

theorem slot_blank {disk : Nat → Data} (zero : ∀ k, ip.addrs k = 0) (j : Nat) : slot disk ip j = 0 := by
  unfold slot
  split_ifs with near inside none_
  · rw [zero]
    rfl
  · rfl
  · exact absurd (zero _) none_
  · rw [zero]
    rfl
  · rfl

/-- A disk is consistent if no inode has blocks and the bitmap marks what comes before the data. -/
theorem consistent_of_blank {disk : Nat → Data} (valid : sb.Valid)
    (zero : ∀ n, n < sb.ninodes → (∀ k, (dinode sb disk n).addrs k = 0) ∧
      (dinode sb disk n).fileSize = 0)
    (bitmap : ∀ b, b < sb.size → marked sb disk b = decide (b < sb.dataStart)) :
    Consistent sb disk where
  owned := {
    low := fun b lower => by
      have data := valid.data
      rw [bitmap b (by omega)]
      exact decide_eq_true lower
    holds := {
      once := by
        rintro ⟨n, j⟩ d u here
        obtain ⟨number, same, some_⟩ := held_eq_some.mp here
        exact absurd ((slot_blank (zero n number).1 j).symm.trans same).symm some_
      apart := fun _ _ _ => Set.notMem_empty _
      used_iff := by
        intro u
        constructor
        · rintro ⟨above, below, mark⟩
          rw [bitmap u below, decide_eq_true_eq] at mark
          omega
        · rintro (⟨⟨n, j⟩, here⟩ | wrong)
          · obtain ⟨number, same, some_⟩ := held_eq_some.mp here
            exact absurd ((slot_blank (zero n number).1 j).symm.trans same).symm some_
          · exact absurd wrong (Set.notMem_empty _) } }
  shape n number := by
    obtain ⟨none_, empty⟩ := zero n number
    rw [empty]
    refine ⟨Nat.zero_le _, fun j _ => ?_, ?_⟩
    · rw [slot_blank none_]
      exact ⟨fun wrong => absurd rfl wrong, fun wrong => absurd wrong (Nat.not_lt_zero j)⟩
    · rw [slot_blank none_]
      exact ⟨fun wrong => absurd rfl wrong, fun wrong => absurd wrong (by decide)⟩

theorem smallSb_valid : smallSb.Valid where
  inodes := by decide
  data := by decide
  small := by decide

theorem smallDisk_consistent : Consistent smallSb smallDisk :=
  consistent_of_blank smallSb_valid (by decide +kernel) (by decide +kernel)

theorem file_content_small : ∃ t, writei smallSb noDev 1 (dinode smallSb smallDisk 1) [1, 2, 3] 0
      ⟨smallDisk, []⟩ = .ok ((3, dinode smallSb t.disk 1), t) ∧
    content t.disk (dinode smallSb t.disk 1) = [1, 2, 3] := by
  obtain ⟨t, run, rewritten⟩ := (@file_content smallSb noDev ⟨smallDisk, []⟩ _ 0 0 1 [1, 2, 3]
    smallSb_valid smallDisk_consistent (by decide) rfl (by unfold Inode.isFile; decide +kernel)
    (by decide) (by decide) (by decide)).2.1 (by decide +kernel) (by decide) (by decide +kernel)
  exact ⟨t, run, rewritten.bytes.trans (by decide +kernel)⟩

end RandomRepo.Xv6.Volume

import RandomRepo.Xv6.Volume

/-!
# What the functions of the block layer do

For each function, the state it leaves when it returns.
-/

namespace RandomRepo.Xv6.Volume

variable {sb : Superblock} {held : List Nat} {b : Nat} {s t : Vol} {d : Data} {ip ip' : Inode}

/-- The block gets new bytes. -/
def Vol.write (s : Vol) (b : Nat) (d : Data) : Vol :=
  ⟨Function.update s.disk b d, s.logged ++ [b]⟩

@[simp] theorem Vol.write_same (s : Vol) (b : Nat) (d : Data) : (s.write b d).disk b = d :=
  Function.update_self ..

theorem Vol.write_other {x : Nat} (s : Vol) (d : Data) (other : x ≠ b) :
    (s.write b d).disk x = s.disk x :=
  Function.update_of_ne other ..

theorem bread_ok (run : bread held b s = .ok (d, t)) :
    t = s ∧ d = s.disk b ∧ b ∉ held ∧ b < fssize := by
  obtain ⟨_, _, got, rest⟩ := bind_run_iff.mp run
  cases got
  split_ifs at rest with busy beyond
  · cases rest
  · cases rest
  · cases rest
    refine ⟨rfl, rfl, fun member => busy (List.contains_iff_mem.mpr member), by omega⟩

theorem bread_run (free : b ∉ held) (inside : b < fssize) :
    bread held b s = .ok (s.disk b, s) := by
  have busy : ¬ held.contains b = true := fun member => free (List.contains_iff_mem.mp member)
  show (if held.contains b then halt .hang
    else if fssize ≤ b then halt .incorrectBlockno else pure (s.disk b) : VolM Data) s = _
  rw [if_neg busy, if_neg (Nat.not_le.mpr inside)]
  rfl

theorem logWrite_run : logWrite b d s = .ok ((), s.write b d) := rfl

theorem bzero_ok (run : bzero held b s = .ok ((), t)) :
    t = s.write b (fun _ => 0) ∧ b ∉ held ∧ b < fssize := by
  obtain ⟨d, s', read, rest⟩ := bind_run_iff.mp run
  obtain ⟨rfl, -, free, inside⟩ := bread_ok read
  cases rest
  exact ⟨rfl, free, inside⟩

theorem bzero_run (free : b ∉ held) (inside : b < fssize) :
    bzero held b s = .ok ((), s.write b fun _ => 0) :=
  bind_run_iff.mpr ⟨_, _, bread_run free inside, rfl⟩

/-! ## The bitmap -/

/-- The bitmap shows the block as used. -/
def marked (sb : Superblock) (disk : Nat → Data) (b : Nat) : Bool :=
  bitAt (disk (sb.bblock b)) (b % bpb)

/-- The state after block `b` was allocated. -/
def Vol.alloc (sb : Superblock) (s : Vol) (b : Nat) : Vol :=
  (s.write (sb.bblock b) (setBit (s.disk (sb.bblock b)) (b % bpb))).write b fun _ => 0

theorem freeBit_some {bi : Nat} (found : freeBit sb b d = some bi) :
    bi < bpb ∧ b + bi < sb.size ∧ bitAt d bi = false := by
  unfold freeBit at found
  have member := List.mem_of_find?_eq_some found
  have clear := List.find?_some found
  rw [List.mem_range] at member
  exact ⟨by omega, by omega, by simpa using clear⟩

theorem freeBit_none (none_ : freeBit sb b d = none) {bi : Nat} (inside : bi < bpb)
    (below : b + bi < sb.size) : bitAt d bi = true := by
  unfold freeBit at none_
  have all := List.find?_eq_none.mp none_ bi (List.mem_range.mpr (by omega))
  simpa using all

theorem bblock_add (sb : Superblock) {bi : Nat} (aligned : b % bpb = 0) (inside : bi < bpb) :
    sb.bblock (b + bi) = sb.bblock b ∧ (b + bi) % bpb = bi := by
  have size : bpb = 4096 := rfl
  unfold Superblock.bblock
  rw [size] at aligned inside ⊢
  omega

theorem ballocLoop_ok {n start : Nat} (aligned : start % bpb = 0)
    (run : ballocLoop sb held n start s = .ok (b, t)) :
    t = s.alloc sb b ∧ b < sb.size ∧ marked sb s.disk b = false ∧ sb.bblock b ∉ held ∧ b ∉ held ∧
      b < fssize := by
  have size : bpb = 4096 := rfl
  induction n generalizing start with
  | zero => cases run
  | succ n ih =>
    rw [ballocLoop] at run
    obtain ⟨bp, s', read, rest⟩ := bind_run_iff.mp run
    obtain ⟨rfl, rfl, free, -⟩ := bread_ok read
    cases found : freeBit sb start (s'.disk (sb.bblock start)) with
    | none =>
      rw [found] at rest
      exact ih (by rw [Nat.add_mod_right]; exact aligned) rest
    | some bi =>
      rw [found] at rest
      obtain ⟨_, s₁, mark, rest⟩ := bind_run_iff.mp rest
      cases mark
      obtain ⟨_, s₂, zero, rest⟩ := bind_run_iff.mp rest
      obtain ⟨rfl, free', small⟩ := bzero_ok zero
      cases rest
      obtain ⟨inside, below, clear⟩ := freeBit_some found
      obtain ⟨block, bit⟩ := bblock_add sb aligned inside
      refine ⟨?_, below, ?_, ?_, free', small⟩
      · unfold Vol.alloc
        rw [block, bit]
        rfl
      · rw [marked, block, bit]
        exact clear
      · rw [block]
        exact free

/-- What `balloc` returns is a block that was free. -/
theorem balloc_ok (run : balloc sb held s = .ok (b, t)) :
    t = s.alloc sb b ∧ b < sb.size ∧ marked sb s.disk b = false ∧ sb.bblock b ∉ held ∧ b ∉ held ∧
      b < fssize :=
  ballocLoop_ok (Nat.zero_mod _) run

/-- The state after block `b` was freed. -/
def Vol.free (sb : Superblock) (s : Vol) (b : Nat) : Vol :=
  s.write (sb.bblock b) (clearBit (s.disk (sb.bblock b)) (b % bpb))

theorem bfree_run (free : sb.bblock b ∉ held) (inside : sb.bblock b < fssize)
    (used : marked sb s.disk b = true) : bfree sb held b s = .ok ((), s.free sb b) := by
  refine bind_run_iff.mpr ⟨_, _, bread_run free inside, ?_⟩
  rw [marked] at used
  rw [if_pos used]
  rfl

/-! ## Inodes -/

theorem iupdate_ok {inum : Nat} (run : iupdate sb inum ip s = .ok ((), t)) :
    t = s.write (sb.iblock inum) (putInode (s.disk (sb.iblock inum)) (inum % ipb) ip) := by
  obtain ⟨d, s', read, rest⟩ := bind_run_iff.mp run
  obtain ⟨rfl, rfl, -, -⟩ := bread_ok read
  cases rest
  rfl

theorem iupdate_run {inum : Nat} (inside : sb.iblock inum < fssize) :
    iupdate sb inum ip s =
      .ok ((), s.write (sb.iblock inum) (putInode (s.disk (sb.iblock inum)) (inum % ipb) ip)) :=
  bind_run_iff.mpr ⟨_, _, bread_run List.not_mem_nil inside, rfl⟩

/-- `ilock` changes nothing on the disk; a copy that is read from there is of a used inode. -/
theorem ilock_ok {inum : Nat} {copy : Option Inode} (run : ilock sb inum copy s = .ok (ip, t)) :
    t = s ∧ (copy = some ip ∨
      copy = none ∧ ip = getInode (s.disk (sb.iblock inum)) (inum % ipb) ∧ ip.type ≠ 0) := by
  cases copy with
  | some ip' =>
    cases run
    exact ⟨rfl, .inl rfl⟩
  | none =>
    obtain ⟨bp, s', read, rest⟩ := bind_run_iff.mp run
    obtain ⟨rfl, rfl, -, -⟩ := bread_ok read
    split_ifs at rest with free
    · cases rest
    · cases rest
      exact ⟨rfl, .inr ⟨rfl, rfl, free⟩⟩

/-! ## The blocks of a file -/

theorem Inode.setAddr_same (ip : Inode) (k : Fin 13) (b : Nat) :
    (ip.setAddr k b).addrs k = UInt32.ofNat b := by
  unfold setAddr
  exact Function.update_self ..

theorem Inode.setAddr_other {j k : Fin 13} (ip : Inode) (b : Nat) (other : j ≠ k) :
    (ip.setAddr k b).addrs j = ip.addrs j := by
  unfold setAddr
  exact Function.update_of_ne other ..

theorem slotBlock_ok {k : Fin 13} (run : slotBlock sb ip k s = .ok ((b, ip'), t)) :
    (ip.addrs k ≠ 0 ∧ b = (ip.addrs k).toNat ∧ ip' = ip ∧ t = s) ∨
      (ip.addrs k = 0 ∧ ip' = ip.setAddr k b ∧ t = s.alloc sb b ∧ b < sb.size ∧ b < fssize ∧
        marked sb s.disk b = false) := by
  unfold slotBlock at run
  split_ifs at run with empty
  · obtain ⟨b', s', alloc, rest⟩ := bind_run_iff.mp run
    obtain ⟨rfl, below, free, -, -, small⟩ := balloc_ok alloc
    cases rest
    exact .inr ⟨empty, rfl, rfl, below, small, free⟩
  · cases run
    exact .inl ⟨empty, rfl, rfl, rfl⟩

/-- What `bmap` does for a block that is found through the indirect block. -/
theorem bmap_indirect_ok {bn : Nat} (far : ¬ bn < ndirect)
    (run : bmap sb ip bn s = .ok ((b, ip'), t)) :
    bn - ndirect < nindirect ∧ ∃ ia s₁, slotBlock sb ip indirect s = .ok ((ia, ip'), s₁) ∧
      ia < fssize ∧
      ((readWord (s₁.disk ia) (4 * (bn - ndirect)) = b ∧ b ≠ 0 ∧ t = s₁) ∨
        (readWord (s₁.disk ia) (4 * (bn - ndirect)) = 0 ∧ b < sb.size ∧ b < fssize ∧
          marked sb s₁.disk b = false ∧ sb.bblock b ≠ ia ∧ b ≠ ia ∧
          t = (s₁.alloc sb b).write ia (writeWord (s₁.disk ia) (4 * (bn - ndirect)) b))) := by
  unfold bmap at run
  rw [if_neg far] at run
  split_ifs at run with inside
  · refine ⟨inside, ?_⟩
    obtain ⟨⟨ia, ip₁⟩, s₁, slot, rest⟩ := bind_run_iff.mp run
    obtain ⟨bp, s₂, read, rest⟩ := bind_run_iff.mp rest
    obtain ⟨rfl, rfl, -, small⟩ := bread_ok read
    split_ifs at rest with empty
    · obtain ⟨b', s₃, alloc, rest⟩ := bind_run_iff.mp rest
      obtain ⟨rfl, below, free, busy, busy', small'⟩ := balloc_ok alloc
      obtain ⟨_, s₄, link, rest⟩ := bind_run_iff.mp rest
      cases link
      cases rest
      refine ⟨ia, s₂, slot, small, .inr ⟨empty, below, small', free, ?_, ?_, rfl⟩⟩
      · exact fun same => busy (List.mem_singleton.mpr same)
      · exact fun same => busy' (List.mem_singleton.mpr same)
    · cases rest
      exact ⟨ia, _, slot, small, .inl ⟨rfl, empty, rfl⟩⟩
  · cases run

theorem bmap_direct {bn : Nat} (near : bn < ndirect) :
    bmap sb ip bn = slotBlock sb ip (slotIndex bn) := if_pos near

end RandomRepo.Xv6.Volume

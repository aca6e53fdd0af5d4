import RandomRepo.Lib.Triple
import RandomRepo.Xv6.VolumeSteps
import Mathlib.Data.Finset.Card

/-!
# The blocks of a transaction

A transaction of `filewrite` logs the blocks it writes to, the bitmap, the block of block
numbers and the inode.  Nothing is assumed of the disk or of the inode: the number of
blocks is bounded whatever their slots contain, and also when the transaction halts.

The triples below say which numbers may be logged afterwards if only those of `L` were before.
-/

namespace RandomRepo.Xv6.Volume

variable {sb : Superblock} {dev : Devsw} {held L : List Nat} {inum off turns b bn : Nat}
  {ip : Inode} {src : List UInt8}

theorem halt_logs {α : Type} {why : VolHalt} {R : α → Vol → Prop} :
    Triple (fun s => s.logged ⊆ L) (halt why) R (fun e => e.2 ⊆ L) := by
  intro s start
  refine ⟨fun _ _ run => (nomatch run), fun e stop => ?_⟩
  cases stop
  exact start

theorem bread_logs : Triple (fun s => s.logged ⊆ L) (bread held b) (fun _ s => s.logged ⊆ L)
    (fun e => e.2 ⊆ L) := by
  refine Triple.get_bind fun s start => Triple.pre ?_ fun t same => same ▸ start
  split_ifs with busy beyond
  · exact halt_logs
  · exact halt_logs
  · exact Triple.pure fun _ logged => logged

theorem logWrite_logs {d : Data} {E : VolHalt × List Nat → Prop} :
    Triple (fun s => s.logged ⊆ L) (logWrite b d) (fun _ s => s.logged ⊆ b :: L) E := by
  refine Triple.modify fun s start x member => ?_
  rcases List.mem_append.mp member with old | here
  · exact List.mem_cons_of_mem b (start old)
  · rw [List.mem_singleton.mp here]
    exact List.mem_cons_self

theorem bzero_logs : Triple (fun s => s.logged ⊆ L) (bzero held b) (fun _ s => s.logged ⊆ b :: L)
    (fun e => e.2 ⊆ L) :=
  bread_logs.bind fun _ => logWrite_logs

theorem ballocLoop_logs {n start : Nat} (small : sb.size ≤ fssize) :
    Triple (fun s => s.logged ⊆ L) (ballocLoop sb held n start)
      (fun b s => s.logged ⊆ b :: sb.bmapstart :: L ∧ b < fssize)
      (fun e => e.2 ⊆ sb.bmapstart :: L) := by
  induction n generalizing start with
  | zero => exact halt_logs.halts fun e logged => List.subset_cons_of_subset _ logged
  | succ n ih =>
    refine (bread_logs.halts fun e logged => List.subset_cons_of_subset _ logged).bind fun bp => ?_
    cases found : freeBit sb start bp with
    | none => exact ih
    | some bi =>
      -- the bitmap of a small disk is one block
      have inside := (freeBit_some found).2.1
      have size : fssize = 1000 := rfl
      have block : sb.bblock start = sb.bmapstart := by
        unfold Superblock.bblock bpb bsize
        omega
      rw [block]
      exact logWrite_logs.bind fun _ => bzero_logs.bind fun _ =>
        Triple.pure fun t logged => ⟨logged, by omega⟩

theorem slotBlock_logs {k : Fin 13} (small : sb.size ≤ fssize) :
    Triple (fun s => s.logged ⊆ L) (slotBlock sb ip k)
      (fun r s => s.logged ⊆ r.1 :: sb.bmapstart :: L ∧ (r.2.addrs k).toNat = r.1 ∧
        (∀ j, j ≠ k → r.2.addrs j = ip.addrs j) ∧ (ip.addrs k ≠ 0 → r.2.addrs k = ip.addrs k))
      (fun e => e.2 ⊆ sb.bmapstart :: L) := by
  unfold slotBlock
  split_ifs with empty
  · refine (ballocLoop_logs small).bind fun b => Triple.pure ?_
    rintro t ⟨logged, below⟩
    have size : fssize = 1000 := rfl
    refine ⟨logged, ?_, fun j other => ip.setAddr_other b other, fun full => absurd empty full⟩
    rw [ip.setAddr_same, UInt32.toNat_ofNat_of_lt' (by unfold UInt32.size; omega)]
  · refine Triple.pure fun t logged => ⟨?_, rfl, fun _ _ => rfl, fun _ => rfl⟩
    exact List.subset_cons_of_subset _ (List.subset_cons_of_subset _ logged)

/-- What `bmap` logs: the bitmap, the block it returns and the block of block numbers, which it
replaces only if there was none. -/
theorem bmap_logs (small : sb.size ≤ fssize) :
    Triple (fun s => s.logged ⊆ L) (bmap sb ip bn)
      (fun r s => s.logged ⊆ r.1 :: (r.2.addrs indirect).toNat :: sb.bmapstart :: L ∧
        (ip.addrs indirect ≠ 0 → r.2.addrs indirect = ip.addrs indirect))
      (fun e => ∃ table : UInt32, e.2 ⊆ table.toNat :: sb.bmapstart :: L ∧
        (ip.addrs indirect ≠ 0 → table = ip.addrs indirect)) := by
  unfold bmap
  split_ifs with near inside
  · have other : indirect ≠ slotIndex bn := by
      intro same
      have value : 12 = bn % 13 := congrArg Fin.val same
      unfold ndirect at near
      omega
    refine ((slotBlock_logs small).halts fun e logged => ?_).mono (fun _ => id) fun r t post => ?_
    · exact ⟨ip.addrs indirect, List.subset_cons_of_subset _ logged, fun _ => rfl⟩
    · obtain ⟨logged, -, rest, -⟩ := post
      refine ⟨fun x member => ?_, fun _ => rest indirect other⟩
      rcases List.mem_cons.mp (logged member) with here | old
      · exact List.mem_cons.mpr (.inl here)
      · exact List.mem_cons_of_mem _ (List.mem_cons_of_mem _ old)
  · refine ((slotBlock_logs small).halts fun e logged => ?_).bind fun r => ?_
    · exact ⟨ip.addrs indirect, List.subset_cons_of_subset _ logged, fun _ => rfl⟩
    refine Triple.assume (fun facts => ?_) fun s post => post.2
    obtain ⟨pointer, -, keeps⟩ := facts
    obtain ⟨ia, ip'⟩ := r
    obtain rfl : (ip'.addrs indirect).toNat = ia := pointer
    have stop : ∀ e : VolHalt × List Nat,
        e.2 ⊆ sb.bmapstart :: (ip'.addrs indirect).toNat :: sb.bmapstart :: L →
        ∃ table : UInt32, e.2 ⊆ table.toNat :: sb.bmapstart :: L ∧
          (ip.addrs indirect ≠ 0 → table = ip.addrs indirect) := by
      intro e logged
      refine ⟨ip'.addrs indirect, fun x member => ?_, keeps⟩
      rcases List.mem_cons.mp (logged member) with bitmap | old
      · rw [bitmap]
        exact List.mem_cons_of_mem _ List.mem_cons_self
      · exact old
    refine Triple.bind (Triple.pre (bread_logs.halts fun e logged => ?_) fun s post => post.1)
      fun bp => ?_
    · exact stop e (List.subset_cons_of_subset _ logged)
    dsimp only
    split_ifs with empty
    · refine ((ballocLoop_logs small).halts stop).bind fun b => ?_
      refine Triple.bind (Triple.pre logWrite_logs fun s post => post.1) fun _ =>
        Triple.pure fun t logged => ⟨fun x member => ?_, keeps⟩
      have place := logged member
      simp only [List.mem_cons] at place ⊢
      grind
    · exact Triple.pure fun t logged => ⟨List.subset_cons_of_subset _ logged, keeps⟩
  · exact halt_logs.halts fun e logged => ⟨ip.addrs indirect, List.subset_cons_of_subset _
      (List.subset_cons_of_subset _ logged), fun _ => rfl⟩

/-- How many blocks `n` bytes from `off` on lie in. -/
def span (off n : Nat) : Nat := if n = 0 then 0 else (off % bsize + n + (bsize - 1)) / bsize

theorem span_next (off : Nat) {n : Nat} (more : 0 < n) :
    span (off + min n (bsize - off % bsize)) (n - min n (bsize - off % bsize)) + 1 ≤ span off n := by
  have whole : span off n = (off % bsize + n + (bsize - 1)) / bsize :=
    if_neg (Nat.pos_iff_ne_zero.mp more)
  by_cases last : n ≤ bsize - off % bsize
  · rw [Nat.min_eq_left last, Nat.sub_self, whole, span, if_pos rfl]
    unfold bsize
    omega
  · have aligned : (off + (bsize - off % bsize)) % bsize = 0 := by
      unfold bsize
      omega
    rw [Nat.min_eq_right (by omega), whole, span, if_neg (by omega), aligned]
    unfold bsize at last ⊢
    omega

theorem span_chunk (off : Nat) (chunk : src.length ≤ chunkMax) : span off src.length ≤ 4 := by
  have most : chunkMax = 1536 := rfl
  unfold span bsize
  split_ifs <;> omega

/-- Besides `L`, at most `n` blocks are logged, and the bitmap and the block of block numbers, which
is 0 in the inode until there is one. -/
def Charged (sb : Superblock) (ip : Inode) (n : Nat) (L log : List Nat) (table : UInt32) : Prop :=
  (ip.addrs indirect ≠ 0 → table = ip.addrs indirect) ∧
    ∃ D : List Nat, D.length ≤ n ∧ log ⊆ D ++ [sb.bmapstart, 0, table.toNat] ++ L

theorem Charged.refl {log : List Nat} {n : Nat} (logged : log ⊆ L) :
    Charged sb ip n L log (ip.addrs indirect) :=
  ⟨fun _ => rfl, [], Nat.zero_le _, fun _ member => List.mem_append_right _ (logged member)⟩

/-- One block more, and what comes after it. -/
theorem Charged.step {ip₁ : Inode} {log : List Nat} {table : UInt32} {n m : Nat}
    (keeps : ip.addrs indirect ≠ 0 → ip₁.addrs indirect = ip.addrs indirect)
    (rest : Charged sb ip₁ n (b :: b :: (ip₁.addrs indirect).toNat :: sb.bmapstart :: L) log table)
    (count : n + 1 ≤ m) : Charged sb ip m L log table := by
  obtain ⟨keeps', D, few, logged⟩ := rest
  refine ⟨fun full => ?_, b :: D, ?_, fun x member => ?_⟩
  · rw [keeps' (by rw [keeps full]; exact full), keeps full]
  · rw [List.length_cons]
    omega
  · have place := logged member
    by_cases empty : ip₁.addrs indirect = 0
    · rw [empty] at place
      simp only [List.mem_append, List.mem_cons, List.not_mem_nil, or_false] at place ⊢
      grind
    · rw [← keeps' empty] at place
      simp only [List.mem_append, List.mem_cons, List.not_mem_nil, or_false] at place ⊢
      grind

theorem writeLoop_logs (small : sb.size ≤ fssize) :
    Triple (fun s => s.logged ⊆ L) (writeLoop sb turns ip off src)
      (fun r s => Charged sb ip (span off src.length) L s.logged (r.2.addrs indirect))
      (fun e => ∃ table, Charged sb ip (span off src.length) L e.2 table) := by
  induction turns generalizing ip off src L with
  | zero => exact Triple.pure fun s logged => Charged.refl logged
  | succ turns ih =>
    rw [writeLoop]
    split_ifs with done
    · exact Triple.pure fun s logged => Charged.refl logged
    have next := span_next off (Nat.pos_of_ne_zero done)
    refine ((bmap_logs small).halts ?_).bind fun r => ?_
    · rintro e ⟨table, logged, keeps⟩
      refine ⟨table, keeps, [], Nat.zero_le _, fun x member => ?_⟩
      have place := logged member
      simp only [List.mem_append, List.mem_cons, List.not_mem_nil] at place ⊢
      grind
    refine Triple.assume (fun keeps => ?_) fun s post => post.2
    refine Triple.bind (Triple.pre (bread_logs.halts fun e logged => ?_) fun s post => post.1)
      fun bp => logWrite_logs.bind fun _ => (ih.halts ?_).mono (fun _ => id) fun r' t rest => ?_
    · refine ⟨r.2.addrs indirect, Charged.step (b := r.1) (n := 0) keeps (Charged.refl ?_) (by omega)⟩
      exact List.subset_cons_of_subset _ logged
    · rintro e ⟨table, rest⟩
      rw [List.length_drop] at rest
      exact ⟨table, rest.step keeps next⟩
    · rw [List.length_drop] at rest
      exact rest.step keeps next

theorem iupdate_logs : Triple (fun s => s.logged ⊆ L) (iupdate sb inum ip)
    (fun _ s => s.logged ⊆ sb.iblock inum :: L) (fun e => e.2 ⊆ L) :=
  bread_logs.bind fun _ => logWrite_logs

theorem ilock_logs {copy : Option Inode} : Triple (fun s => s.logged ⊆ L) (ilock sb inum copy)
    (fun _ s => s.logged ⊆ L) (fun e => e.2 ⊆ L) := by
  cases copy with
  | some ip => exact Triple.pure fun _ logged => logged
  | none =>
    refine bread_logs.bind fun bp => ?_
    dsimp only
    split_ifs with free
    · exact halt_logs
    · exact Triple.pure fun _ logged => logged

/-- With the block of the inode. -/
theorem Charged.inode {log log' : List Nat} {table : UInt32} {n : Nat}
    (charged : Charged sb ip n L log table) (more : log' ⊆ sb.iblock inum :: log) :
    Charged sb ip n (sb.iblock inum :: L) log' table := by
  obtain ⟨keeps, D, few, logged⟩ := charged
  refine ⟨keeps, D, few, fun x member => ?_⟩
  rcases List.mem_cons.mp (more member) with here | old
  · rw [here]
    exact List.mem_append_right _ List.mem_cons_self
  · rcases List.mem_append.mp (logged old) with data | before
    · exact List.mem_append_left _ data
    · exact List.mem_append_right _ (List.mem_cons_of_mem _ before)

/-- `writei` logs the blocks of its loop and the one of the inode. -/
theorem writei_logs (small : sb.size ≤ fssize) :
    Triple (fun s => s.logged ⊆ L) (writei sb dev inum ip src off)
      (fun _ s => ∃ table, Charged sb ip (span off src.length) (sb.iblock inum :: L) s.logged table)
      (fun e => ∃ table, Charged sb ip (span off src.length) (sb.iblock inum :: L) e.2 table) := by
  have nothing : ∀ s : Vol, s.logged ⊆ L →
      ∃ table, Charged sb ip (span off src.length) (sb.iblock inum :: L) s.logged table :=
    fun s logged => ⟨_, (Charged.refl logged).inode (List.subset_cons_self ..)⟩
  unfold writei
  dsimp only
  split_ifs with device major wild big
  · cases dev.write ip.major with
    | none => exact Triple.pure nothing
    | some write => exact Triple.pure nothing
  · exact Triple.pure nothing
  · exact Triple.pure nothing
  · exact Triple.pure nothing
  · refine ((writeLoop_logs small).halts ?_).bind fun r => ?_
    · rintro e ⟨table, charged⟩
      exact ⟨table, charged.inode (List.subset_cons_self ..)⟩
    intro s charged
    dsimp only
    split_ifs with grown
    · refine Triple.bind ((iupdate_logs (L := s.logged)).halts fun e logged => ?_) (fun _ =>
        Triple.pure fun t logged => ?_) s (List.Subset.refl _)
      · exact ⟨_, charged.inode (List.subset_cons_of_subset _ logged)⟩
      · exact ⟨_, charged.inode logged⟩
    · exact Triple.pure (fun t same => ⟨_, (show Charged sb ip _ L t.logged _ from same ▸ charged).inode
        (List.subset_cons_self ..)⟩) s rfl

theorem Charged.count {log : List Nat} {table : UInt32} (chunk : src.length ≤ chunkMax)
    (charged : Charged sb ip (span off src.length) [sb.iblock inum] log table) :
    log.toFinset.card ≤ maxopblocks := by
  obtain ⟨-, D, few, logged⟩ := charged
  have four := span_chunk off chunk
  calc log.toFinset.card
      ≤ (D ++ [sb.bmapstart, 0, table.toNat] ++ [sb.iblock inum]).toFinset.card :=
        Finset.card_le_card fun x member =>
          List.mem_toFinset.mpr (logged (List.mem_toFinset.mp member))
    _ ≤ (D ++ [sb.bmapstart, 0, table.toNat] ++ [sb.iblock inum]).length := List.toFinset_card_le _
    _ = D.length + 4 := by simp
    _ ≤ maxopblocks := by
        have most : maxopblocks = 10 := rfl
        omega

/-- A transaction of `filewrite` logs at most as many blocks as a transaction may: whatever is on the
disk, whatever the inode in memory contains and wherever the bytes go. -/
theorem filewriteOp_quota (small : sb.size ≤ fssize) (chunk : src.length ≤ chunkMax)
    (copy : Option Inode) (s : Vol) :
    (logOf (filewriteOp sb dev inum copy off src s)).toFinset.card ≤ maxopblocks := by
  have logs : Triple (fun _ => True) (filewriteOp sb dev inum copy off src)
      (fun _ s => s.logged.toFinset.card ≤ maxopblocks)
      (fun e => e.2.toFinset.card ≤ maxopblocks) := by
    refine Triple.bind (R := fun _ s => s.logged ⊆ []) (Triple.modify fun s _ => ?_) fun _ => ?_
    · exact List.Subset.refl []
    refine (ilock_logs.halts fun e logged => ?_).bind fun ip => ?_
    · rw [List.subset_nil.mp logged]
      exact Nat.zero_le _
    refine ((writei_logs small).halts ?_).bind fun r => Triple.pure ?_
    · rintro e ⟨table, charged⟩
      exact charged.count chunk
    · rintro t ⟨table, charged⟩
      exact charged.count chunk
  cases run : filewriteOp sb dev inum copy off src s with
  | ok result => exact (logs s trivial).1 result.1 result.2 run
  | error e => exact (logs s trivial).2 e run

/-- A disk of 100 blocks with an empty file as inode 1. -/
def smallSb : Superblock := ⟨100, 8, 2, 3⟩

@[inherit_doc smallSb]
def smallDisk (b : Nat) : Data :=
  if b = 3 then fun x => if x = 0 then 15 else 0
  else if b = 2 then putInode (fun _ => 0) 1 { Inode.blank 2 with nlink := 1 }
  else fun _ => 0

def noDev : Devsw := ⟨fun _ => none, fun _ => none⟩

theorem filewriteOp_quota_small :
    (logOf (filewriteOp smallSb noDev 1 none 0 [1, 2, 3] ⟨smallDisk, []⟩)).toFinset.card = 3 ∧
      (logOf (filewriteOp smallSb noDev 1 none 0 [1, 2, 3] ⟨smallDisk, []⟩)).toFinset.card ≤
        maxopblocks :=
  ⟨by decide +kernel, filewriteOp_quota (by decide) (by decide) none _⟩

end RandomRepo.Xv6.Volume

import RandomRepo.Lib.Run
import RandomRepo.Xv6.VolumeTrunc

/-!
# The operations on inodes

The disk with the inode cache, under any sequence of operations on inodes.  The cache has an
entry for each inode number; an entry that nobody refers to is not in the cache.  Between
operations an inode in memory is the one on the disk, the inodes own their blocks, and the
bitmap marks exactly those.
-/

namespace RandomRepo.Xv6.Volume

/-- An inode in memory: `copy` is there when it is `valid`. -/
structure Cached where
  ref : Nat
  copy : Option Inode

structure Inodes where
  vol : Vol
  cache : Nat → Cached

/-- The operations.  `iupdate` writes the fields of an inode that do not concern its blocks. -/
inductive InodeOp
  | iget (n : Nat)
  | ilock (n : Nat)
  | ialloc (type : UInt16)
  | readi (n : Nat) (off len : UInt32)
  | writei (n : Nat) (src : List UInt8) (off : UInt32)
  | iupdate (n : Nat) (major minor nlink : UInt16)
  | itrunc (n : Nat)
  | iput (n : Nat)

abbrev Outcome := Except (VolHalt × List Nat) Inodes

variable {sb : Superblock} {dev : Devsw} {s t : Inodes} {v w : Vol} {ip ip' : Inode} {n inum : Nat}

namespace Inodes

def set (s : Inodes) (vol : Vol) (n : Nat) (entry : Cached) : Inodes :=
  ⟨vol, Function.update s.cache n entry⟩

/-- One reference more.  An entry that nobody referred to is not valid. -/
def iget (s : Inodes) (vol : Vol) (n : Nat) : Inodes :=
  s.set vol n ⟨(s.cache n).ref + 1, if (s.cache n).ref = 0 then none else (s.cache n).copy⟩

/-- One reference less. -/
def drop (s : Inodes) (n : Nat) : Inodes :=
  s.set s.vol n ⟨(s.cache n).ref - 1, if (s.cache n).ref = 1 then none else (s.cache n).copy⟩

/-- What `f` does with an inode that is in memory; it is not called without one. -/
def onCopy (s : Inodes) (n : Nat) (f : Inode → VolM Inode) : Option Outcome :=
  match (s.cache n).copy with
  | none => none
  | some ip => some ((f ip s.vol).map fun r => s.set r.2 n ⟨(s.cache n).ref, some r.1⟩)

/-- The outcome of an operation, `none` if it is not called in this state. -/
def call (sb : Superblock) (dev : Devsw) (s : Inodes) : InodeOp → Option Outcome
  | .iget n => if n < sb.ninodes then some (.ok (s.iget s.vol n)) else none
  | .ilock n =>
    if 0 < (s.cache n).ref then
      some ((Volume.ilock sb n (s.cache n).copy s.vol).map fun r =>
        s.set r.2 n ⟨(s.cache n).ref, some r.1⟩)
    else none
  | .ialloc type => some ((Volume.ialloc sb type s.vol).map fun r => s.iget r.2 r.1)
  | .readi n off len =>
    s.onCopy n fun ip => do
      let (_, ip) ← Volume.readi sb dev ip off.toNat len.toNat
      return ip
  | .writei n src off =>
    if src.length < 4294967296 then
      s.onCopy n fun ip => do
        let (_, ip) ← Volume.writei sb dev n ip src off.toNat
        return ip
    else none
  | .iupdate n major minor nlink =>
    s.onCopy n fun ip => do
      let ip := { ip with major := major, minor := minor, nlink := nlink }
      Volume.iupdate sb n ip
      return ip
  | .itrunc n => s.onCopy n (Volume.itrunc sb n)
  | .iput n =>
    if 0 < (s.cache n).ref then
      match (s.cache n).copy with
      | some ip =>
        if ip.nlink = 0 ∧ (s.cache n).ref = 1 then
          some ((iputFree sb n ip s.vol).map fun r => s.set r.2 n ⟨0, none⟩)
        else some (.ok (s.drop n))
      | none => some (.ok (s.drop n))
    else none

end Inodes

def InodeStep (sb : Superblock) (dev : Devsw) (s : Inodes) (op : InodeOp) (t : Inodes) : Prop :=
  s.call sb dev op = some (.ok t)

/-- Between operations. -/
structure Inodes.Good (sb : Superblock) (s : Inodes) : Prop where
  consistent : Consistent sb s.vol.disk
  numbers : ∀ n, 0 < (s.cache n).ref → n < sb.ninodes
  copies : ∀ n ip, (s.cache n).copy = some ip → 0 < (s.cache n).ref ∧
    ip = dinode sb s.vol.disk n ∧ ip.type ≠ 0

/-! ## What each operation does to the disk -/

theorem Consistent.replaced (consistent : Consistent sb v.disk) (inum : Nat) :
    Replaced sb inum (dinode sb v.disk inum) v v :=
  ⟨consistent, rfl, fun _ _ _ => ⟨rfl, rfl⟩⟩

/-- The inode is changed in fields that do not concern its blocks. -/
theorem iupdate_replaced (valid : sb.Valid) (consistent : Consistent sb v.disk)
    (number : inum < sb.ninodes) (addrs : ip.addrs = (dinode sb v.disk inum).addrs)
    (size : blocksOf ip.fileSize = blocksOf (dinode sb v.disk inum).fileSize)
    (run : iupdate sb inum ip v = .ok ((), w)) : Replaced sb inum ip v w := by
  rw [iupdate_ok run]
  obtain ⟨consistent', data⟩ := consistent.setInode valid number ip (fun _ _ _ => ⟨rfl, rfl⟩) addrs
    size.symm
  refine ⟨consistent', dinode_setInode, fun m number' other => ⟨dinode_setInode_other other, ?_⟩⟩
  show content (setInode sb v.disk inum ip) (dinode sb (setInode sb v.disk inum ip) m) = _
  rw [dinode_setInode_other other]
  refine content_congr fun p lower => ?_
  refine consistent.fileBytes_congr number' (fun x above => ?_) _ rfl (div_lt_blocksOf lower)
  exact data x ((bmapstart_lt_dataStart sb).le.trans above)

theorem iallocLoop_ok {type : UInt16} {m start : Nat}
    (run : iallocLoop sb type m start v = .ok (n, w)) : start ≤ n ∧ n < start + m ∧
      (dinode sb v.disk n).type = 0 ∧
      w = v.write (sb.iblock n) (putInode (v.disk (sb.iblock n)) (n % ipb) (.blank type)) := by
  induction m generalizing start with
  | zero => cases run
  | succ m ih =>
    rw [iallocLoop] at run
    obtain ⟨bp, v', read, rest⟩ := bind_run_iff.mp run
    obtain ⟨rfl, rfl, -, -⟩ := bread_ok read
    split_ifs at rest with free
    · obtain ⟨_, v₁, write, rest⟩ := bind_run_iff.mp rest
      cases write
      cases rest
      exact ⟨Nat.le_refl _, by omega, free, rfl⟩
    · obtain ⟨after, before, rest⟩ := ih rest
      exact ⟨by omega, by omega, rest⟩

theorem Inode.blank_fileSize (type : UInt16) : (Inode.blank type).fileSize = 0 := by
  unfold Inode.fileSize
  split_ifs <;> rfl

theorem ialloc_replaced {type : UInt16} (valid : sb.Valid) (consistent : Consistent sb v.disk)
    (run : ialloc sb type v = .ok (n, w)) :
    n < sb.ninodes ∧ (dinode sb v.disk n).type = 0 ∧ Replaced sb n (.blank type) v w := by
  obtain ⟨after, before, free, rfl⟩ := iallocLoop_ok run
  have number : n < sb.ninodes := by omega
  have none_ : (dinode sb v.disk n).fileSize = 0 := if_pos (.inl free)
  have update : iupdate sb n (.blank type) v = .ok ((), v.write (sb.iblock n)
      (putInode (v.disk (sb.iblock n)) (n % ipb) (.blank type))) :=
    iupdate_run (valid.inode_block number)
  refine ⟨number, free, iupdate_replaced valid consistent number ?_ ?_ update⟩
  · funext k
    exact (consistent.addrs_zero number none_ k).symm
  · rw [none_, Inode.blank_fileSize]

/-- Reading changes nothing. -/
theorem readi_ok (valid : sb.Valid) (consistent : Consistent sb v.disk) (number : inum < sb.ninodes)
    (allocated : (dinode sb v.disk inum).type ≠ 0) {off len : UInt32} {r : Option (List UInt8)}
    (run : readi sb dev (dinode sb v.disk inum) off.toNat len.toNat v = .ok ((r, ip), w)) :
    ip = dinode sb v.disk inum ∧ w = v := by
  have start := off.toNat_lt
  have count := len.toNat_lt
  by_cases device : (dinode sb v.disk inum).type = tDev
  · unfold readi at run
    rw [if_pos device] at run
    split_ifs at run with major
    · cases driver : dev.read (dinode sb v.disk inum).major with
      | none =>
        rw [driver] at run
        cases run
        exact ⟨rfl, rfl⟩
      | some read =>
        rw [driver] at run
        cases run
        exact ⟨rfl, rfl⟩
    · cases run
      exact ⟨rfl, rfl⟩
  · have file : (dinode sb v.disk inum).isFile := ⟨allocated, device⟩
    by_cases outside : (dinode sb v.disk inum).size.toNat < off.toNat ∨
        4294967296 ≤ off.toNat + len.toNat
    · rw [readi_refuses file start count outside] at run
      cases run
      exact ⟨rfl, rfl⟩
    · rw [readi_returns valid consistent number file (by omega) (by omega)] at run
      cases run
      exact ⟨rfl, rfl⟩

/-- Writing changes no other inode. -/
theorem writei_replaced (valid : sb.Valid) (consistent : Consistent sb v.disk)
    (number : inum < sb.ninodes) (allocated : (dinode sb v.disk inum).type ≠ 0) {off : UInt32}
    {src : List UInt8} (short : src.length < 4294967296) {r : Int}
    (run : writei sb dev inum (dinode sb v.disk inum) src off.toNat v = .ok ((r, ip), w)) :
    Replaced sb inum ip v w ∧ ip.type ≠ 0 := by
  have start := off.toNat_lt
  have same := consistent.replaced inum
  by_cases device : (dinode sb v.disk inum).type = tDev
  · unfold writei at run
    dsimp only at run
    rw [if_pos device] at run
    split_ifs at run with major
    · cases driver : dev.write (dinode sb v.disk inum).major with
      | none =>
        rw [driver] at run
        cases run
        exact ⟨same, allocated⟩
      | some write =>
        rw [driver] at run
        cases run
        exact ⟨same, allocated⟩
    · cases run
      exact ⟨same, allocated⟩
  · rcases writei_cases valid consistent number ⟨allocated, device⟩ start short run with
      ⟨-, rfl, rfl, -⟩ | ⟨-, rfl, rewritten, -, -⟩
    · exact ⟨same, allocated⟩
    · refine ⟨⟨rewritten.consistent, rfl, rewritten.others⟩, ?_⟩
      rw [rewritten.fields]
      exact allocated

/-- The end of `iput` for an inode without links. -/
theorem iputFree_run (valid : sb.Valid) (consistent : Consistent sb v.disk)
    (number : inum < sb.ninodes) : ∃ w ip, iputFree sb inum (dinode sb v.disk inum) v = .ok ((), w) ∧
      Replaced sb inum ip v w := by
  obtain ⟨v₁, trunc, first⟩ := itrunc_run valid consistent number
  have update : iupdate sb inum { (dinode sb v.disk inum).truncated with type := 0 } v₁ = _ :=
    iupdate_run (valid.inode_block number)
  have second := iupdate_replaced valid first.consistent number (by rw [first.inode]) (by
    rw [first.inode]
    unfold Inode.fileSize Inode.truncated
    split_ifs <;> rfl) update
  refine ⟨_, _, bind_run_iff.mpr ⟨_, _, trunc, update⟩, second.consistent, second.inode,
    fun m number' other => ?_⟩
  obtain ⟨kept, bytes⟩ := second.others m number' other
  obtain ⟨kept', bytes'⟩ := first.others m number' other
  exact ⟨kept.trans kept', bytes.trans bytes'⟩

/-! ## Between operations -/

namespace Inodes.Good

/-- An operation that has replaced one inode, and its entry in the cache. -/
theorem set (good : s.Good sb) (replaced : Replaced sb inum ip s.vol w) (number : inum < sb.ninodes)
    {entry : Cached} (copy : ∀ ip', entry.copy = some ip' → 0 < entry.ref ∧ ip' = ip ∧ ip'.type ≠ 0) :
    (s.set w inum entry).Good sb where
  consistent := replaced.consistent
  numbers n referred := by
    by_cases self : n = inum
    · rw [self]
      exact number
    · refine good.numbers n ?_
      have entries : (s.set w inum entry).cache n = s.cache n := Function.update_of_ne self ..
      rwa [entries] at referred
  copies n ip' held := by
    by_cases self : n = inum
    · subst self
      have entries : (s.set w n entry).cache n = entry := Function.update_self ..
      rw [entries] at held ⊢
      obtain ⟨referred, same, allocated⟩ := copy ip' held
      exact ⟨referred, same.trans replaced.inode.symm, allocated⟩
    · have entries : (s.set w inum entry).cache n = s.cache n := Function.update_of_ne self ..
      rw [entries] at held ⊢
      obtain ⟨referred, same, allocated⟩ := good.copies n ip' held
      refine ⟨referred, ?_, allocated⟩
      rw [same]
      exact (replaced.others n (good.numbers n referred) self).1.symm

theorem iget (good : s.Good sb) (number : n < sb.ninodes) : (s.iget s.vol n).Good sb := by
  refine good.set (good.consistent.replaced n) number fun ip' held => ?_
  dsimp only at held ⊢
  split_ifs at held with none_
  obtain ⟨-, same, allocated⟩ := good.copies n ip' held
  exact ⟨Nat.succ_pos _, same, allocated⟩

theorem drop (good : s.Good sb) (referred : 0 < (s.cache n).ref) : (s.drop n).Good sb := by
  refine good.set (good.consistent.replaced n) (good.numbers n referred) fun ip' held => ?_
  dsimp only at held ⊢
  split_ifs at held with last
  obtain ⟨-, same, allocated⟩ := good.copies n ip' held
  exact ⟨by omega, same, allocated⟩

/-- An operation on an inode in memory. -/
theorem onCopy (good : s.Good sb) {f : Inode → VolM Inode}
    (effect : n < sb.ninodes → (dinode sb s.vol.disk n).type ≠ 0 → ∀ ip w,
      f (dinode sb s.vol.disk n) s.vol = .ok (ip, w) → Replaced sb n ip s.vol w ∧ ip.type ≠ 0)
    (step : s.onCopy n f = some (.ok t)) : t.Good sb := by
  unfold Inodes.onCopy at step
  cases held : (s.cache n).copy with
  | none =>
    rw [held] at step
    cases step
  | some ip =>
    rw [held] at step
    obtain ⟨referred, rfl, allocated⟩ := good.copies n ip held
    obtain ⟨r, run, rfl⟩ := map_ok_iff.mp (Option.some.inj step)
    obtain ⟨replaced, allocated'⟩ := effect (good.numbers n referred) allocated r.1 r.2 run
    refine good.set replaced (good.numbers n referred) fun ip' same => ?_
    cases same
    exact ⟨referred, rfl, allocated'⟩

/-- Every operation keeps the disk and the cache in order. -/
theorem call (good : s.Good sb) (valid : sb.Valid) {op : InodeOp}
    (step : s.call sb dev op = some (.ok t)) : t.Good sb := by
  have consistent := good.consistent
  cases op with
  | iget n =>
    dsimp only [Inodes.call] at step
    split_ifs at step with number
    cases step
    exact good.iget number
  | ilock n =>
    dsimp only [Inodes.call] at step
    split_ifs at step with referred
    obtain ⟨⟨ip, w⟩, run, rfl⟩ := map_ok_iff.mp (Option.some.inj step)
    obtain ⟨rfl, copied⟩ := ilock_ok run
    have facts : ip = dinode sb s.vol.disk n ∧ ip.type ≠ 0 := by
      rcases copied with held | ⟨-, read, allocated⟩
      · exact (good.copies n ip held).2
      · exact ⟨read, allocated⟩
    refine good.set (consistent.replaced n) (good.numbers n referred) fun ip' held => ?_
    cases held
    exact ⟨referred, facts.1, facts.2⟩
  | ialloc type =>
    dsimp only [Inodes.call] at step
    obtain ⟨⟨n, w⟩, run, rfl⟩ := map_ok_iff.mp (Option.some.inj step)
    obtain ⟨number, free, replaced⟩ := ialloc_replaced valid consistent run
    refine good.set replaced number fun ip' held => ?_
    dsimp only at held
    split_ifs at held with none_
    obtain ⟨-, rfl, allocated⟩ := good.copies n ip' held
    exact absurd free allocated
  | readi n off len =>
    refine good.onCopy (fun number allocated ip w run => ?_) step
    obtain ⟨⟨r, ip₁⟩, w₁, read, rest⟩ := bind_run_iff.mp run
    cases rest
    obtain ⟨rfl, rfl⟩ := readi_ok valid consistent number allocated read
    exact ⟨consistent.replaced n, allocated⟩
  | writei n src off =>
    dsimp only [Inodes.call] at step
    split_ifs at step with short
    refine good.onCopy (fun number allocated ip w run => ?_) step
    obtain ⟨⟨r, ip₁⟩, w₁, write, rest⟩ := bind_run_iff.mp run
    cases rest
    exact writei_replaced valid consistent number allocated short write
  | iupdate n major minor nlink =>
    refine good.onCopy (fun number allocated ip w run => ?_) step
    obtain ⟨_, w₁, update, rest⟩ := bind_run_iff.mp run
    cases rest
    exact ⟨iupdate_replaced valid consistent number rfl rfl update, allocated⟩
  | itrunc n =>
    refine good.onCopy (fun number allocated ip w run => ?_) step
    obtain ⟨w', trunc, replaced⟩ := itrunc_run valid consistent number
    rw [trunc] at run
    cases run
    exact ⟨replaced, allocated⟩
  | iput n =>
    dsimp only [Inodes.call] at step
    split_ifs at step with referred
    cases held : (s.cache n).copy with
    | none =>
      rw [held] at step
      cases step
      exact good.drop referred
    | some ip =>
      rw [held] at step
      dsimp only at step
      split_ifs at step with last
      · obtain ⟨-, rfl, -⟩ := good.copies n ip held
        obtain ⟨w, ip', free, replaced⟩ :=
          iputFree_run valid consistent (good.numbers n referred)
        rw [free] at step
        cases step
        exact good.set replaced (good.numbers n referred) fun _ wrong => nomatch wrong
      · cases step
        exact good.drop referred

end Inodes.Good

/-! ## Operations that free nothing -/

/-- The program does not reach `panic("freeing free block")`. -/
def NoFree {α : Type} (f : VolM α) : Prop :=
  Triple (fun _ => True) f (fun _ _ => True) fun e => e.1 ≠ .freeingFreeBlock

section NoFree

variable {α β : Type} {f : VolM α} {g : α → VolM β}

theorem NoFree.bind (first : NoFree f) (rest : ∀ a, NoFree (g a)) : NoFree (f >>= g) :=
  Triple.bind first rest

theorem NoFree.pure (a : α) : NoFree (Pure.pure a : VolM α) :=
  Triple.pure fun _ _ => trivial

theorem NoFree.halt {why : VolHalt} (other : why ≠ .freeingFreeBlock) :
    NoFree (Volume.halt why : VolM α) := by
  intro s _
  refine ⟨fun _ _ _ => trivial, fun e stop => ?_⟩
  cases stop
  exact other

theorem NoFree.bread {held : List Nat} {b : Nat} : NoFree (Volume.bread held b) := by
  refine Triple.get_bind fun s _ => Triple.pre ?_ fun _ _ => trivial
  split_ifs with busy beyond
  · exact NoFree.halt (by decide)
  · exact NoFree.halt (by decide)
  · exact NoFree.pure _

theorem NoFree.logWrite {b : Nat} {d : Data} : NoFree (Volume.logWrite b d) :=
  Triple.modify fun _ _ => trivial

theorem NoFree.balloc {held : List Nat} : NoFree (Volume.balloc sb held) := by
  unfold Volume.balloc
  generalize (sb.size + bpb - 1) / bpb = turns
  generalize 0 = start
  induction turns generalizing start with
  | zero => exact NoFree.halt (by decide)
  | succ turns ih =>
    refine NoFree.bread.bind fun bp => ?_
    cases freeBit sb start bp with
    | none => exact ih _
    | some bi =>
      exact NoFree.logWrite.bind fun _ =>
        (NoFree.bread.bind fun _ => NoFree.logWrite).bind fun _ => NoFree.pure _

theorem NoFree.slotBlock {k : Fin 13} : NoFree (Volume.slotBlock sb ip k) := by
  unfold Volume.slotBlock
  split_ifs with empty
  · exact NoFree.balloc.bind fun _ => NoFree.pure _
  · exact NoFree.pure _

theorem NoFree.bmap {bn : Nat} : NoFree (Volume.bmap sb ip bn) := by
  unfold Volume.bmap
  split_ifs with near inside
  · exact NoFree.slotBlock
  · refine NoFree.slotBlock.bind fun r => NoFree.bread.bind fun bp => ?_
    dsimp only
    split_ifs with empty
    · exact NoFree.balloc.bind fun _ => NoFree.logWrite.bind fun _ => NoFree.pure _
    · exact NoFree.pure _
  · exact NoFree.halt (by decide)

theorem NoFree.iupdate : NoFree (Volume.iupdate sb n ip) :=
  NoFree.bread.bind fun _ => NoFree.logWrite

theorem NoFree.readi {off len : Nat} : NoFree (Volume.readi sb dev ip off len) := by
  have loop : ∀ turns ip off len, NoFree (readLoop sb turns ip off len) := by
    intro turns
    induction turns with
    | zero => exact fun _ _ _ => NoFree.pure _
    | succ turns ih =>
      intro ip off len
      rw [readLoop]
      split_ifs with done
      · exact NoFree.pure _
      · exact NoFree.bmap.bind fun r => NoFree.bread.bind fun _ =>
          (ih _ _ _).bind fun _ => NoFree.pure _
  unfold Volume.readi
  split_ifs with device major outside
  · cases dev.read ip.major with
    | none => exact NoFree.pure _
    | some read => exact NoFree.pure _
  · exact NoFree.pure _
  · exact NoFree.pure _
  · exact (loop _ _ _ _).bind fun _ => NoFree.pure _
  · exact (loop _ _ _ _).bind fun _ => NoFree.pure _

theorem NoFree.writei {src : List UInt8} {off : Nat} : NoFree (Volume.writei sb dev n ip src off) := by
  have loop : ∀ turns ip off src, NoFree (writeLoop sb turns ip off src) := by
    intro turns
    induction turns with
    | zero => exact fun _ _ _ => NoFree.pure _
    | succ turns ih =>
      intro ip off src
      rw [writeLoop]
      split_ifs with done
      · exact NoFree.pure _
      · exact NoFree.bmap.bind fun r => NoFree.bread.bind fun _ =>
          NoFree.logWrite.bind fun _ => ih _ _ _
  unfold Volume.writei
  dsimp only
  split_ifs with device major outside big
  · cases dev.write ip.major with
    | none => exact NoFree.pure _
    | some write => exact NoFree.pure _
  · exact NoFree.pure _
  · exact NoFree.pure _
  · exact NoFree.pure _
  · refine (loop _ _ _ _).bind fun r => ?_
    split_ifs with grown
    · exact NoFree.iupdate.bind fun _ => NoFree.pure _
    · exact NoFree.pure _

theorem NoFree.ialloc {type : UInt16} : NoFree (Volume.ialloc sb type) := by
  unfold Volume.ialloc
  generalize sb.ninodes - 1 = turns
  generalize 1 = start
  induction turns generalizing start with
  | zero => exact NoFree.halt (by decide)
  | succ turns ih =>
    refine NoFree.bread.bind fun bp => ?_
    split_ifs with free
    · exact NoFree.logWrite.bind fun _ => NoFree.pure _
    · exact ih _

theorem NoFree.ilock {copy : Option Inode} : NoFree (Volume.ilock sb n copy) := by
  cases copy with
  | some ip => exact NoFree.pure _
  | none =>
    refine NoFree.bread.bind fun bp => ?_
    dsimp only
    split_ifs with free
    · exact NoFree.halt (by decide)
    · exact NoFree.pure _

theorem NoFree.error {v : Vol} {e : VolHalt × List Nat} (noFree : NoFree f) (failed : f v = .error e) :
    e.1 ≠ .freeingFreeBlock :=
  (noFree v trivial).2 e failed

end NoFree

theorem Inodes.onCopy_error {f : Inode → VolM Inode} {e : VolHalt × List Nat}
    (failed : s.onCopy n f = some (.error e)) :
    ∃ ip, (s.cache n).copy = some ip ∧ f ip s.vol = .error e := by
  unfold Inodes.onCopy at failed
  cases held : (s.cache n).copy with
  | none =>
    rw [held] at failed
    cases failed
  | some ip =>
    rw [held] at failed
    exact ⟨ip, rfl, map_error_iff.mp (Option.some.inj failed)⟩

/-- No operation frees a block that is free. -/
theorem Inodes.Good.call_error (good : s.Good sb) (valid : sb.Valid) {op : InodeOp}
    {e : VolHalt × List Nat} (failed : s.call sb dev op = some (.error e)) :
    e.1 ≠ .freeingFreeBlock := by
  cases op with
  | iget n =>
    dsimp only [Inodes.call] at failed
    split_ifs at failed with number
    cases failed
  | ilock n =>
    dsimp only [Inodes.call] at failed
    split_ifs at failed with referred
    exact NoFree.ilock.error (map_error_iff.mp (Option.some.inj failed))
  | ialloc type => exact NoFree.ialloc.error (map_error_iff.mp (Option.some.inj failed))
  | readi n off len =>
    obtain ⟨ip, -, run⟩ := Inodes.onCopy_error failed
    exact (NoFree.readi.bind fun r => NoFree.pure r.2).error run
  | writei n src off =>
    dsimp only [Inodes.call] at failed
    split_ifs at failed with short
    obtain ⟨ip, -, run⟩ := Inodes.onCopy_error failed
    exact (NoFree.writei.bind fun r => NoFree.pure r.2).error run
  | iupdate n major minor nlink =>
    obtain ⟨ip, -, run⟩ := Inodes.onCopy_error failed
    exact (NoFree.iupdate.bind fun _ => NoFree.pure _).error run
  | itrunc n =>
    obtain ⟨ip, held, run⟩ := Inodes.onCopy_error failed
    obtain ⟨referred, rfl, -⟩ := good.copies n ip held
    obtain ⟨w, trunc, -⟩ := itrunc_run valid good.consistent (good.numbers n referred)
    rw [trunc] at run
    cases run
  | iput n =>
    dsimp only [Inodes.call] at failed
    split_ifs at failed with referred
    cases held : (s.cache n).copy with
    | none =>
      rw [held] at failed
      cases failed
    | some ip =>
      rw [held] at failed
      dsimp only at failed
      split_ifs at failed with last
      · obtain ⟨-, rfl, -⟩ := good.copies n ip held
        obtain ⟨w, ip', free, -⟩ :=
          iputFree_run valid good.consistent (good.numbers n referred)
        rw [free] at failed
        cases failed
      · cases failed

/-! ## Whole runs -/

/-- From a disk in order, whatever operations follow: no block is in two slots, the bitmap marks the
data blocks that are in one, and a file has the blocks for its size and no others.  So `balloc`
returns no block that is in use, and `bfree` gets no block that is free. -/
theorem blocks_owned (valid : sb.Valid) (good : s.Good sb) (run : Run (InodeStep sb dev) anyStep s t) :
    (∀ n m i j, n < sb.ninodes → m < sb.ninodes →
      slot t.vol.disk (dinode sb t.vol.disk n) i ≠ 0 →
      slot t.vol.disk (dinode sb t.vol.disk m) j = slot t.vol.disk (dinode sb t.vol.disk n) i →
      m = n ∧ j = i) ∧
    (∀ b, sb.dataStart ≤ b → b < sb.size → (marked sb t.vol.disk b = true ↔
      ∃ n j, n < sb.ninodes ∧ slot t.vol.disk (dinode sb t.vol.disk n) j = b)) ∧
    (∀ n, n < sb.ninodes →
      (∀ j, j < maxfile → (slot t.vol.disk (dinode sb t.vol.disk n) j ≠ 0 ↔
        j < blocksOf (dinode sb t.vol.disk n).fileSize)) ∧
      (slot t.vol.disk (dinode sb t.vol.disk n) maxfile ≠ 0 ↔
        ndirect < blocksOf (dinode sb t.vol.disk n).fileSize)) ∧
    (∀ held b u, balloc sb held t.vol = .ok (b, u) → ∀ n j, n < sb.ninodes →
      slot t.vol.disk (dinode sb t.vol.disk n) j ≠ b) ∧
    ∀ op e, t.call sb dev op = some (.error e) → e.1 ≠ .freeingFreeBlock := by
  have good : t.Good sb := run.invariant (Inodes.Good sb) good
    fun s op t good _ step => good.call valid step
  have owned := good.consistent.owned
  have start := bmapstart_lt_dataStart sb
  refine ⟨fun n m i j number number' some_ same => owned.once number number' some_ same,
    fun b above below => ⟨fun mark => ?_, ?_⟩, fun n number => ?_, fun held b u run n j number same => ?_,
    fun op e failed => good.call_error valid failed⟩
  · rcases (owned.holds.used_iff b).mp ⟨above, below, mark⟩ with ⟨⟨n, j⟩, holds⟩ | wrong
    · obtain ⟨number, value, -⟩ := held_eq_some.mp holds
      exact ⟨n, j, number, value⟩
    · exact absurd wrong (Set.notMem_empty b)
  · rintro ⟨n, j, number, rfl⟩
    exact (owned.slot_used number (by omega)).2.2
  · have shape := good.consistent.shape n number
    exact ⟨shape.blocks, shape.table⟩
  · obtain ⟨-, -, free, -⟩ := balloc_ok run
    have above := owned.dataStart_le free
    have inUse := owned.slot_used number (j := j) (by omega)
    rw [same] at inUse
    exact Owned.not_used free inUse

/-- An empty file, and nothing in memory. -/
def smallInodes : Inodes := ⟨⟨smallDisk, []⟩, fun _ => ⟨0, none⟩⟩

theorem smallInodes_good : smallInodes.Good smallSb where
  consistent := smallDisk_consistent
  numbers _ wrong := absurd wrong (Nat.lt_irrefl 0)
  copies _ _ wrong := nomatch wrong

/-- An inode is allocated, written, truncated, written again and freed; then inode 1 is written. -/
def smallCalls : List InodeOp :=
  [.ialloc 2, .ilock 2, .writei 2 [1, 2, 3] 0, .itrunc 2, .writei 2 [4] 0, .iput 2, .iget 1,
    .ilock 1, .writei 1 [5, 6] 0]

theorem blocks_owned_small : ∃ t, Run (InodeStep smallSb noDev) anyStep smallInodes t ∧
    marked smallSb t.vol.disk 4 = true ∧ slot t.vol.disk (dinode smallSb t.vol.disk 1) 0 = 4 ∧
    (∀ m j, m < 8 → slot t.vol.disk (dinode smallSb t.vol.disk m) j = 4 → m = 1 ∧ j = 0) ∧
    ∀ op e, t.call smallSb noDev op = some (.error e) → e.1 ≠ .freeingFreeBlock := by
  have steps : (follow (fun s op => (s.call smallSb noDev op).bind Except.toOption) smallCalls
      smallInodes).any (fun t => decide (marked smallSb t.vol.disk 4 = true ∧
        slot t.vol.disk (dinode smallSb t.vol.disk 1) 0 = 4)) = true := by decide +kernel
  obtain ⟨t, run, shape⟩ := Run.follow_any (InodeStep smallSb noDev) anyStep (fun s op t done => by
    obtain ⟨r, call, ok⟩ := Option.bind_eq_some_iff.mp done
    cases r with
    | error => cases ok
    | ok t' =>
      cases ok
      exact ⟨trivial, call⟩) steps
  obtain ⟨mark, block⟩ := of_decide_eq_true shape
  obtain ⟨once, -, -, -, safe⟩ := blocks_owned smallSb_valid smallInodes_good run
  refine ⟨t, run, mark, block, fun m j number same => ?_, safe⟩
  exact once 1 m 0 j (by decide) number (by rw [block]; decide) (by rw [block]; exact same)

end RandomRepo.Xv6.Volume

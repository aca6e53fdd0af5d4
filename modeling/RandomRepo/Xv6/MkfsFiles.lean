import RandomRepo.Xv6.MkfsAppend

/-!
# The files on the way

What `mkfs` has done so far, in terms of files: a table of inodes with their bytes.  `Shows`
relates the image on the way to such a table; `ialloc` and `iappend` change it as their names
say, and return while there are blocks.
-/

namespace RandomRepo.Xv6.Volume.Mkfs

inductive Kind
  | dir | file
deriving DecidableEq, Repr

def Kind.type : Kind → UInt16
  | dir => tDir
  | file => tFile

/-- Inode numbers with what they stand for. -/
abbrev Files := Nat → Option (Kind × List UInt8)

namespace Files

def bytes (files : Files) (n : Nat) : List UInt8 := ((files n).map Prod.snd).getD []

def type (files : Files) (n : Nat) : UInt16 := ((files n).map fun file => file.1.type).getD 0

/-- Every inode in use has one link. -/
def nlink (files : Files) (n : Nat) : UInt16 := ((files n).map fun _ => 1).getD 0

end Files

/-- The inodes of the image hold the files of the table, with zeros behind them. -/
structure Shows (m : Build) (files : Files) : Prop where
  draft : Draft m ⟨virt m, []⟩
  super : m.image 1 = sbData
  consistent : Consistent sb (virt m)
  inode : ∀ n, n < sb.ninodes → dinode sb (virt m) n = ⟨files.type n, 0, 0, files.nlink n,
    UInt32.ofNat (files.bytes n).length, (dinode sb (virt m) n).addrs⟩
  short : ∀ n, n < sb.ninodes → (files.bytes n).length ≤ maxfile * bsize
  bytes : ∀ n, n < sb.ninodes →
    padded (virt m) (dinode sb (virt m) n) (blocksOf (files.bytes n).length) =
      overlay (fun _ => 0) 0 (files.bytes n)

variable {m m' : Build} {t : Vol} {files : Files} {kind : Kind} {bytes p : List UInt8} {ip : Inode}
  {n inum : Nat}

/-! ## Inodes of the table -/

theorem Kind.isFile (kind : Kind) : kind.type ≠ 0 ∧ kind.type ≠ tDev := by
  cases kind <;> decide

namespace Shows

/-- What the kernel would find. -/
theorem sound (shows_ : Shows m files) : Sound sb (Vol.mk (virt m) []).disk (dinode sb (virt m))
    fun n => blocksOf (dinode sb (virt m) n).fileSize :=
  shows_.consistent

variable (shows_ : Shows m files) (number : inum < sb.ninodes)

include shows_ number

theorem size_eq : (dinode sb (virt m) inum).size.toNat = (files.bytes inum).length := by
  have short := shows_.short inum number
  have limit : maxfile * bsize = 71680 := rfl
  rw [shows_.inode inum number]
  exact UInt32.toNat_ofNat_of_lt' (by unfold UInt32.size; omega)

theorem isFile (here : files inum = some (kind, bytes)) : (dinode sb (virt m) inum).isFile := by
  rw [shows_.inode inum number]
  unfold Inode.isFile Files.type
  rw [here]
  exact kind.isFile

theorem fileSize_eq : (dinode sb (virt m) inum).fileSize = (files.bytes inum).length := by
  cases here : files inum with
  | none =>
    have free : (dinode sb (virt m) inum).type = 0 := by
      rw [shows_.inode inum number]
      unfold Files.type
      rw [here]
      rfl
    unfold Inode.fileSize Files.bytes
    rw [if_pos (.inl free), here]
    rfl
  | some file => rw [(shows_.isFile number here).fileSize_eq, shows_.size_eq number]

end Shows

/-! ## One operation -/

theorem rinode_run (draft : Draft m t) (number : inum < sb.ninodes) :
    rinode inum m = .ok (dinode sb t.disk inum, m) := by
  have lower := sb_valid.inodes inum number
  exact bind_run_iff.mpr
    ⟨_, _, rsect_run draft (sb_valid.inode_block number) (Nat.ne_of_lt lower), rfl⟩

/-- An inode is written, in the image and on the disk that it stands for. -/
theorem winode_run (draft : Draft m t) (number : inum < sb.ninodes) (ip : Inode) :
    ∃ m', winode inum ip m = .ok ((), m') ∧ Draft m' ⟨setInode sb t.disk inum ip, []⟩ ∧
      m'.freeinode = m.freeinode ∧ m'.freeblock = m.freeblock := by
  have lower := sb_valid.inodes inum number
  have start := bmapstart_lt_dataStart sb
  have data := draft.data
  have below := sb_valid.inode_block number
  have stored := draft.write (x := sb.iblock inum) (by omega) (by omega)
    (putInode (t.disk (sb.iblock inum)) (inum % ipb) ip)
  refine ⟨_, bind_run_iff.mpr ⟨_, _, rsect_run draft below (Nat.ne_of_lt lower),
    wsect_run draft.sectors below _⟩, { stored with }, rfl, rfl⟩

theorem iblock_ne_super (inum : Nat) : (1 : Nat) ≠ sb.iblock inum := by
  have first : sb.inodestart = 32 := rfl
  have count : ipb = 8 := rfl
  unfold Superblock.iblock
  rw [first, count]
  omega

/-- The inode in memory, whose blocks have changed, is written back.  The other files are as
before. -/
theorem Shows.stored (shows_ : Shows m files) (number : inum < sb.ninodes) {len : Nat → Nat}
    {node : Nat → Inode} (sound : Sound sb t.disk node len) (inodes : ∀ x, x < sb.bmapstart →
      t.disk x = virt m x)
    (others : ∀ n, n < sb.ninodes → n ≠ inum → node n = dinode sb (virt m) n ∧
      len n = blocksOf (files.bytes n).length ∧
      padded t.disk (node n) (len n) = padded (virt m) (dinode sb (virt m) n) (len n))
    (addrs : ip.addrs = (node inum).addrs) (length : len inum = blocksOf bytes.length)
    (short : bytes.length ≤ maxfile * bsize)
    (content : padded t.disk (node inum) (len inum) = overlay (fun _ => 0) 0 bytes)
    (fields : ip = ⟨kind.type, 0, 0, 1, UInt32.ofNat bytes.length, ip.addrs⟩)
    (draft : Draft m' ⟨setInode sb t.disk inum ip, []⟩) :
    Shows m' (Function.update files inum (some (kind, bytes))) := by
  have limit : maxfile * bsize = 71680 := rfl
  have disk : setInode sb t.disk inum ip = virt m' := draft.disk
  have self : dinode sb (virt m') inum = ip := by rw [← disk, dinode_setInode]
  have kept : ∀ n, n < sb.ninodes → n ≠ inum → dinode sb (virt m') n = dinode sb (virt m) n := by
    intro n number' other
    rw [← disk, dinode_setInode_other other]
    exact dinode_congr (inodes _ (sb_valid.inodes n number'))
  have size : ip.fileSize = bytes.length := by
    have file : ip.isFile := by
      rw [fields]
      exact kind.isFile
    rw [file.fileSize_eq, fields]
    exact UInt32.toNat_ofNat_of_lt' (by unfold UInt32.size; omega)
  obtain ⟨consistent, data⟩ := sound.setInode sb_valid number ip
    (fun n number' other => by
      obtain ⟨node_, len_, -⟩ := others n number' other
      have same := dinode_congr (inodes _ (sb_valid.inodes n number'))
      rw [same, shows_.fileSize_eq number']
      exact ⟨node_, len_⟩) addrs (by rw [size, length])
  rw [disk] at consistent data
  have data' : ∀ x, sb.dataStart ≤ x → virt m' x = t.disk x :=
    fun x above => data x ((bmapstart_lt_dataStart sb).le.trans above)
  refine ⟨{ draft with disk := rfl }, ?_, consistent, fun n number' => ?_, fun n number' => ?_,
    fun n number' => ?_⟩
  · have other : (1 : Nat) ≠ sb.bmapstart := by decide
    rw [← virt_of_ne other, ← disk, setInode, Function.update_of_ne (iblock_ne_super inum),
      inodes 1 (by decide), virt_of_ne other]
    exact shows_.super
  · by_cases same : n = inum
    · subst same
      unfold Files.type Files.nlink Files.bytes
      rw [Function.update_self, self]
      exact fields
    · unfold Files.type Files.nlink Files.bytes
      rw [Function.update_of_ne same, kept n number' same]
      exact shows_.inode n number'
  · unfold Files.bytes
    by_cases same : n = inum
    · rw [same, Function.update_self]
      exact short
    · rw [Function.update_of_ne same]
      exact shows_.short n number'
  · by_cases same : n = inum
    · subst same
      have bytes' : Files.bytes (Function.update files n (some (kind, bytes))) n = bytes := by
        unfold Files.bytes
        rw [Function.update_self]
        rfl
      rw [bytes', self, ← length, sound.padded_congr number data' ip addrs]
      exact content
    · obtain ⟨node_, len_, padded_⟩ := others n number' same
      have bytes' : Files.bytes (Function.update files inum (some (kind, bytes))) n =
          files.bytes n := by
        unfold Files.bytes
        rw [Function.update_of_ne same]
      rw [bytes', kept n number' same, ← len_, ← node_, sound.padded_congr number' data' _ rfl,
        padded_, len_]
      exact shows_.bytes n number'

/-- The bytes have been written to the blocks of the file, and the inode follows. -/
theorem Shows.append (shows_ : Shows m files) (number : inum < sb.ninodes)
    (here : files inum = some (kind, bytes))
    (written : Written sb inum bytes.length p ⟨virt m, []⟩ (dinode sb (virt m))
      (fun n => blocksOf (dinode sb (virt m) n).fileSize) ip t)
    (inside : bytes.length + p.length ≤ maxfile * bsize)
    (draft : Draft m' ⟨setInode sb t.disk inum
      { ip with size := UInt32.ofNat (bytes.length + p.length) }, []⟩) :
    Shows m' (Function.update files inum (some (kind, bytes ++ p))) := by
  have same : files.bytes inum = bytes := by
    unfold Files.bytes
    rw [here]
    rfl
  have fileSize := shows_.fileSize_eq number
  have before := shows_.bytes inum number
  rw [same] at fileSize before
  have length : max (blocksOf (dinode sb (virt m) inum).fileSize)
      (blocksOf (bytes.length + p.length)) = blocksOf (bytes ++ p).length := by
    rw [fileSize, List.length_append]
    exact Nat.max_eq_right (blocksOf_mono (Nat.le_add_right ..))
  refine shows_.stored number written.sound written.inodes (fun n number' other => ?_) ?_ ?_ ?_ ?_ ?_
    draft
  · rw [Function.update_of_ne other, Function.update_of_ne other, shows_.fileSize_eq number']
    refine ⟨rfl, rfl, funext fun x => ?_⟩
    unfold padded
    split_ifs with lower
    · exact written.others n number' other x (by rw [shows_.fileSize_eq number']; exact lower)
    · rfl
  · rw [Function.update_self]
  · rw [Function.update_self, length]
  · rw [List.length_append]
    exact inside
  · have bytes' := written.bytes
    rw [length, fileSize, before] at bytes'
    rw [Function.update_self, Function.update_self, length, bytes']
    have append : overlay (overlay (fun _ => (0 : UInt8)) 0 bytes) (0 + bytes.length) p =
        overlay (fun _ => 0) 0 (bytes ++ p) := overlay_append
    rwa [Nat.zero_add] at append
  · have fields := written.fields
    rw [shows_.inode inum number] at fields
    unfold Files.type Files.nlink at fields
    rw [here] at fields
    rw [List.length_append, fields]
    rfl

/-- The facts about a file in the table that `iappend` starts from. -/
theorem Shows.upto (shows_ : Shows m files) (number : inum < sb.ninodes)
    (here : files inum = some (kind, bytes)) :
    (dinode sb (virt m) inum).size.toNat = bytes.length ∧
      (dinode sb (virt m) inum).fileSize = bytes.length ∧
      bytes.length ≤ blocksOf (dinode sb (virt m) inum).fileSize * bsize := by
  have same : files.bytes inum = bytes := by
    unfold Files.bytes
    rw [here]
    rfl
  have size := shows_.size_eq number
  have fileSize := shows_.fileSize_eq number
  rw [same] at size fileSize
  refine ⟨size, fileSize, ?_⟩
  rw [fileSize]
  exact le_blocksOf _

/-- `iappend` appends the bytes to the file, if there are blocks for them. -/
theorem iappend_run (shows_ : Shows m files) (number : inum < sb.ninodes)
    (here : files inum = some (kind, bytes)) (inside : bytes.length + p.length ≤ maxfile * bsize)
    (room : m.freeblock + total (blocksOf (bytes.length + p.length)) ≤
      fssize + total (blocksOf bytes.length)) :
    ∃ m', iappend inum p m = .ok ((), m') ∧
      Shows m' (Function.update files inum (some (kind, bytes ++ p))) ∧
      m'.freeblock + total (blocksOf bytes.length) =
        m.freeblock + total (blocksOf (bytes.length + p.length)) := by
  obtain ⟨size, fileSize, upto⟩ := shows_.upto number here
  have draft := shows_.draft
  have bound := draft.bound
  have longest : max (blocksOf bytes.length) (blocksOf (bytes.length + p.length)) =
      blocksOf (bytes.length + p.length) :=
    Nat.max_eq_right (blocksOf_mono (Nat.le_add_right ..))
  obtain ⟨ip, m₁, t, loop, draft₁, written⟩ := appendLoop_written draft shows_.sound number upto
    inside (Nat.le_refl _) (by
      rw [fileSize, longest, draft.freeBlocks_eq]
      omega)
  obtain ⟨m', store, draft', -, blocks⟩ := winode_run draft₁ number
    { ip with size := UInt32.ofNat (bytes.length + p.length) }
  refine ⟨m', ?_, shows_.append number here written inside draft', ?_⟩
  · have loop' : appendLoop p.length (dinode sb (virt m) inum) (dinode sb (virt m) inum).size.toNat
        p m = .ok ((bytes.length + p.length, ip), m₁) := by rw [size]; exact loop
    exact bind_run_iff.mpr ⟨_, _, rinode_run draft number, bind_run_iff.mpr ⟨_, _, loop', store⟩⟩
  · have count := written.room
    have bound' := draft₁.bound
    rw [fileSize, longest, draft.freeBlocks_eq, draft₁.freeBlocks_eq] at count
    omega

/-- If `iappend` returns, then there were blocks for the bytes. -/
theorem iappend_room (shows_ : Shows m files) (number : inum < sb.ninodes)
    (here : files inum = some (kind, bytes)) (run : iappend inum p m = .ok ((), m')) :
    bytes.length + p.length ≤ maxfile * bsize ∧
      m.freeblock + total (blocksOf (bytes.length + p.length)) ≤
        fssize + total (blocksOf bytes.length) := by
  obtain ⟨size, fileSize, upto⟩ := shows_.upto number here
  have draft := shows_.draft
  have bound := draft.bound
  obtain ⟨din, m₁, load, run⟩ := bind_run_iff.mp run
  obtain ⟨r, m₂, loop, -⟩ := bind_run_iff.mp run
  rw [rinode_run draft number] at load
  cases load
  rw [size] at loop
  obtain ⟨inside, room⟩ :=
    appendLoop_room draft shows_.sound number upto (Nat.le_refl _) loop
  refine ⟨inside, ?_⟩
  rw [fileSize, Nat.max_eq_right (blocksOf_mono (Nat.le_add_right ..)), draft.freeBlocks_eq] at room
  omega

theorem iappend_ok (shows_ : Shows m files) (number : inum < sb.ninodes)
    (here : files inum = some (kind, bytes)) (run : iappend inum p m = .ok ((), m')) :
    Shows m' (Function.update files inum (some (kind, bytes ++ p))) := by
  obtain ⟨inside, room⟩ := iappend_room shows_ number here run
  obtain ⟨m₂, run', shows', -⟩ := iappend_run shows_ number here inside room
  rw [run] at run'
  cases run'
  exact shows'

/-- `ialloc` makes an empty file. -/
theorem ialloc_run (shows_ : Shows m files) (number : m.freeinode < sb.ninodes)
    (free : files m.freeinode = none) (kind : Kind) :
    ∃ m', ialloc kind.type m = .ok (m.freeinode, m') ∧
      Shows m' (Function.update files m.freeinode (some (kind, []))) ∧
      m'.freeinode = m.freeinode + 1 ∧ m'.freeblock = m.freeblock := by
  have draft := shows_.draft
  have empty : files.bytes m.freeinode = [] := by
    unfold Files.bytes
    rw [free]
    rfl
  have fileSize := shows_.fileSize_eq number
  have before := shows_.bytes m.freeinode number
  rw [empty] at fileSize before
  have draft₁ : Draft { m with freeinode := m.freeinode + 1 } ⟨virt m, []⟩ := { draft with }
  obtain ⟨m', store, draft', inodes, blocks⟩ := winode_run draft₁ number (newInode kind.type)
  refine ⟨m', bind_run_iff.mpr ⟨_, _, rfl, bind_run_iff.mpr ⟨_, _, store, rfl⟩⟩, ?_, inodes, blocks⟩
  refine shows_.stored number shows_.sound (fun _ _ => rfl) (fun n number' other => ?_) ?_ ?_ ?_
    ?_ rfl draft'
  · exact ⟨rfl, by rw [shows_.fileSize_eq number'], rfl⟩
  · funext k
    exact (shows_.consistent.addrs_zero number fileSize k).symm
  · rw [fileSize]
  · exact Nat.zero_le _
  · rw [fileSize]
    exact before

end RandomRepo.Xv6.Volume.Mkfs

import RandomRepo.Xv6.MkfsImage

/-!
# What the kernel finds in the image

The image is ready when the size of the root directory has been rounded up and the bitmap has
been written.  It is then the disk that the image on the way stood for, with a new size in the
inode of the root directory.
-/

namespace RandomRepo.Xv6.Volume.Mkfs

variable {m m' : Build} {files : Files} {inum k n : Nat} {args done rest : List Arg} {arg : Arg}

/-! ## The last steps -/

/-- The inode of the root directory in the end. -/
def rootInode (m : Build) : Inode :=
  { dinode sb (virt m) rootino with
    size := UInt32.ofNat (((dinode sb (virt m) rootino).size.toNat / bsize + 1) * bsize) }

/-- The image in the end. -/
def finished (m : Build) : Nat → Data := setInode sb (virt m) rootino (rootInode m)

theorem main_end (shows_ : Shows m files) : ∃ m',
    (do fixRoot; let m ← get; balloc m.freeblock : MkfsM Unit) m = .ok ((), m') ∧
      m'.image = finished m ∧ m'.freeinode = m.freeinode := by
  have root : rootino < sb.ninodes := by decide
  have size : fssize = 1000 := rfl
  have bits_ : bsize * 8 = 4096 := rfl
  obtain ⟨m₁, store, draft, counter, -⟩ := winode_run shows_.draft root (rootInode m)
  have fix : fixRoot m = .ok ((), m₁) :=
    bind_run_iff.mpr ⟨_, _, rinode_run shows_.draft root, store⟩
  have bound := draft.bound
  have small : m₁.freeblock < bsize * 8 := by omega
  have write := wsect_run draft.sectors (x := sb.bmapstart) (by decide) (bits m₁.freeblock)
  refine ⟨_, (bind_run fix).trans ((congrFun (if_pos small) m₁).trans write), ?_, counter⟩
  exact draft.disk.symm

theorem main_ok (few : args.length ≤ 198) (run : main args start = .ok ((), m')) :
    ∃ m, Holds m args ∧ m'.image = finished m := by
  obtain ⟨m₁, holds, -, begin_⟩ := main_begin
  rw [begin_ args] at run
  obtain ⟨_, m₂, add, run⟩ := bind_run_iff.mp run
  have holds₂ := addFiles_ok holds (by rw [List.length_nil]; omega) add
  obtain ⟨m₃, end_, image, -⟩ := main_end holds₂.shows_
  have same : Except.ok ((), m₃) = Except.ok ((), m') := end_.symm.trans run
  cases same
  exact ⟨m₂, holds₂, image⟩

/-! ## What is to be found -/

/-- The kernel reads just these bytes from the inode, and nothing changes. -/
structure ReadsBack (image : Nat → Data) (inum : Nat) (bytes : List UInt8) : Prop where
  size : (dinode sb image inum).size.toNat = bytes.length
  read : ∀ dev logged, readi sb dev (dinode sb image inum) 0 bytes.length ⟨image, logged⟩ =
    .ok ((some bytes, dinode sb image inum), ⟨image, logged⟩)

/-- The image is a file system with the files of the arguments. -/
structure Built (args : List Arg) (m : Build) : Prop where
  super : readsb (m.image 1) = sb
  numbers : ∀ inum, 0 < inum → inum < m.freeinode → inum < sb.ninodes
  rootType : (dinode sb m.image rootino).type = tDir
  root : ∃ pad, ReadsBack m.image rootino (rootBytes args ++ List.replicate pad 0)
  files : ∀ k arg, args[k]? = some arg → (dinode sb m.image (k + 2)).type = tFile ∧
    ReadsBack m.image (k + 2) arg.bytes
  blocks : ∀ n, n < sb.ninodes → ∀ j, j < blocksOf (dinode sb m.image n).size.toNat →
    sb.dataStart ≤ slot m.image (dinode sb m.image n) j ∧
      slot m.image (dinode sb m.image n) j < sb.size
  unshared : ∀ n, n < sb.ninodes → ∀ n', n' < sb.ninodes → ∀ j j',
    slot m.image (dinode sb m.image n) j ≠ 0 →
    slot m.image (dinode sb m.image n') j' = slot m.image (dinode sb m.image n) j → n' = n ∧ j' = j
  bitmap : ∀ b, b < sb.size → (marked sb m.image b = true ↔ b < sb.dataStart ∨
    ∃ n, n < sb.ninodes ∧ ∃ j, slot m.image (dinode sb m.image n) j = b)

/-! ## The finished image -/

section Finished

variable (shows_ : Shows m files)

include shows_

theorem finished_sound : Sound sb (finished m) (dinode sb (finished m))
    (fun n => blocksOf (files.bytes n).length) ∧
      ∀ x, sb.bmapstart ≤ x → finished m x = virt m x := by
  have sound : Sound sb (virt m) (dinode sb (virt m)) fun n => blocksOf (files.bytes n).length :=
    shows_.sound.congr sb_valid fun n number => ⟨rfl, by rw [shows_.fileSize_eq number]⟩
  exact sound.setInode_sound sb_valid (by decide) (rootInode m) (fun _ _ _ => rfl) rfl

theorem finished_padded (number : n < sb.ninodes) :
    padded (finished m) (dinode sb (finished m) n) (blocksOf (files.bytes n).length) =
      overlay (fun _ => 0) 0 (files.bytes n) := by
  have sound : Sound sb (virt m) (dinode sb (virt m)) fun n => blocksOf (files.bytes n).length :=
    shows_.sound.congr sb_valid fun n number => ⟨rfl, by rw [shows_.fileSize_eq number]⟩
  have data := (finished_sound shows_).2
  have addrs : (dinode sb (finished m) n).addrs = (dinode sb (virt m) n).addrs := by
    unfold finished
    by_cases here : n = rootino
    · rw [here, dinode_setInode]
      rfl
    · rw [dinode_setInode_other here]
  have same := sound.padded_congr number
    (fun x above => data x ((bmapstart_lt_dataStart sb).le.trans above)) _ addrs
  rw [same]
  exact shows_.bytes n number

end Finished

theorem finished_other (other : n ≠ rootino) : dinode sb (finished m) n = dinode sb (virt m) n :=
  dinode_setInode_other other

theorem finished_type (shows_ : Shows m files) (number : n < sb.ninodes) :
    (dinode sb (finished m) n).type = files.type n := by
  have before : (dinode sb (virt m) n).type = files.type n := by rw [shows_.inode n number]
  by_cases here : n = rootino
  · subst here
    unfold finished
    rw [dinode_setInode]
    exact before
  · rw [finished_other here, before]

section Sizes

variable (holds : Holds m args) (few : args.length ≤ 198)

include holds few

/-- The size of the root directory in the end. -/
theorem finished_root_size : (dinode sb (finished m) rootino).size.toNat =
    (16 * (args.length + 2) / bsize + 1) * bsize := by
  have block : bsize = 512 := rfl
  have size := holds.shows_.size_eq (show rootino < sb.ninodes by decide)
  have bytes : (filesOf args).bytes rootino = rootBytes args := rfl
  rw [bytes, rootBytes_length] at size
  unfold finished
  rw [dinode_setInode]
  unfold rootInode
  dsimp only
  rw [size, UInt32.toNat_ofNat_of_lt']
  unfold UInt32.size
  rw [block]
  omega

/-- The blocks of every inode are those for its size, if the root directory does not end with a
block. -/
theorem finished_consistent (ragged : (args.length + 2) % 32 ≠ 0) :
    Consistent sb (finished m) := by
  have block : bsize = 512 := rfl
  refine (finished_sound holds.shows_).1.congr sb_valid fun n number => ⟨rfl, ?_⟩
  by_cases here : n = rootino
  · subst here
    have file : (dinode sb (finished m) rootino).isFile := by
      unfold Inode.isFile
      rw [finished_type holds.shows_ number]
      exact Kind.dir.isFile
    have bytes : (filesOf args).bytes rootino = rootBytes args := rfl
    rw [file.fileSize_eq, finished_root_size holds few, bytes, rootBytes_length]
    unfold blocksOf
    rw [block]
    omega
  · rw [finished_other here, holds.shows_.fileSize_eq number]

end Sizes

/-- Zeros behind the bytes. -/
theorem slice_overlay_zero (bytes : List UInt8) (pad : Nat) :
    slice (overlay (fun _ => 0) 0 bytes) 0 (bytes.length + pad) = bytes ++ List.replicate pad 0 := by
  refine List.ext_getElem? fun i => ?_
  rw [slice_getElem?, List.getElem?_append, Nat.zero_add, List.getElem?_replicate, overlay,
    if_pos (Nat.zero_le i), Nat.sub_zero]
  by_cases inside : i < bytes.length
  · rw [if_pos (by omega), if_pos inside, List.getElem?_eq_getElem inside, Option.getD_some]
  · rw [if_neg inside, List.getElem?_eq_none (by omega), Option.getD_none]
    split_ifs <;> first | rfl | omega

/-- A file in a consistent image is read with the zeros behind it. -/
theorem finished_reads {pad : Nat} (shows_ : Shows m files) (consistent : Consistent sb (finished m))
    (number : n < sb.ninodes) (file : (dinode sb (finished m) n).isFile)
    (size : (dinode sb (finished m) n).size.toNat = (files.bytes n).length + pad)
    (blocks : blocksOf ((files.bytes n).length + pad) = blocksOf (files.bytes n).length) :
    ReadsBack (finished m) n (files.bytes n ++ List.replicate pad 0) := by
  have length : (files.bytes n ++ List.replicate pad 0).length = (files.bytes n).length + pad := by
    rw [List.length_append, List.length_replicate]
  have content_ : content (finished m) (dinode sb (finished m) n) =
      files.bytes n ++ List.replicate pad 0 := by
    unfold content
    rw [file.fileSize_eq, size, ← slice_overlay_zero, ← finished_padded shows_ number]
    refine slice_congr fun i lower => ?_
    have inside := div_lt_blocksOf lower
    rw [blocks] at inside
    unfold padded
    rw [Nat.zero_add, if_pos inside]
  refine ⟨size.trans length.symm, fun dev logged => ?_⟩
  have fits := (dinode sb (finished m) n).size.toNat_lt
  have whole : Consistent sb (Vol.disk ⟨finished m, logged⟩) := consistent
  have inside : 0 + ((files.bytes n).length + pad) < 4294967296 := by omega
  rw [length, readi_returns sb_valid whole number file (Nat.zero_le _) inside]
  show Except.ok ((some (((content (finished m) (dinode sb (finished m) n)).drop 0).take _), _), _) = _
  rw [content_, List.drop_zero, ← length, List.take_length]

theorem readsb_sbData : readsb sbData = sb := by decide

/-- The condition is enough. -/
theorem built_of_few (holds : Holds m args) (few : args.length ≤ 198)
    (ragged : (args.length + 2) % 32 ≠ 0) (image : m'.image = finished m)
    (counter : m'.freeinode = args.length + 2) : Built args m' := by
  have block : bsize = 512 := rfl
  have count : sb.ninodes = 200 := rfl
  have root : rootino < sb.ninodes := by decide
  have shows_ := holds.shows_
  have consistent := finished_consistent holds few ragged
  obtain ⟨sound, data⟩ := finished_sound shows_
  have rootFile : (dinode sb (finished m) rootino).isFile := by
    unfold Inode.isFile
    rw [finished_type shows_ root]
    exact Kind.dir.isFile
  have rootSize := finished_root_size holds few
  have rootLength := rootBytes_length args
  have bytes : (filesOf args).bytes rootino = rootBytes args := rfl
  constructor
  case super =>
    rw [image, finished, setInode, Function.update_of_ne (iblock_ne_super rootino),
      virt_of_ne (by decide), shows_.super]
    exact readsb_sbData
  case numbers =>
    intro inum _ lower
    omega
  case rootType =>
    rw [image, finished_type shows_ root]
    rfl
  case root =>
    rw [image]
    refine ⟨(16 * (args.length + 2) / bsize + 1) * bsize - 16 * (args.length + 2),
      finished_reads shows_ consistent root rootFile ?_ ?_⟩
    · rw [rootSize, bytes, rootLength, block]
      omega
    · rw [bytes, rootLength]
      unfold blocksOf
      rw [block]
      omega
  case files =>
    intro k arg at_
    have inside := (List.getElem?_eq_some_iff.mp at_).1
    have number : k + 2 < sb.ninodes := by omega
    have here := filesOf_file at_
    have bytes' : (filesOf args).bytes (k + 2) = arg.bytes := by
      unfold Files.bytes
      rw [here]
      rfl
    have type : (filesOf args).type (k + 2) = tFile := by
      unfold Files.type
      rw [here]
      rfl
    have file : (dinode sb (finished m) (k + 2)).isFile := by
      unfold Inode.isFile
      rw [finished_type shows_ number, type]
      exact Kind.file.isFile
    have other : k + 2 ≠ rootino := by
      unfold rootino
      omega
    rw [image]
    refine ⟨by rw [finished_type shows_ number, type], ?_⟩
    have reads : ReadsBack (finished m) (k + 2) ((filesOf args).bytes (k + 2) ++ List.replicate 0 0) :=
      finished_reads shows_ consistent number file
      (by rw [finished_other other, shows_.size_eq number]; rfl) rfl
    rwa [bytes', List.replicate_zero, List.append_nil] at reads
  case blocks =>
    intro n number j lower
    rw [image] at lower ⊢
    have size : blocksOf (dinode sb (finished m) n).size.toNat =
        blocksOf ((filesOf args).bytes n).length := by
      by_cases here : n = rootino
      · rw [here, rootSize, bytes, rootLength]
        unfold blocksOf
        rw [block]
        omega
      · rw [finished_other here, shows_.size_eq number]
    rw [size] at lower
    have shape := sound.shape n number
    have most : blocksOf ((filesOf args).bytes n).length ≤ maxfile := shape.most
    have inUse := sound.owned.slot_used number ((shape.blocks j (by omega)).mpr lower)
    exact ⟨inUse.1, inUse.2.1⟩
  case unshared =>
    intro n number n' number' j j' some_ same
    rw [image] at some_ same
    exact sound.owned.once number number' some_ same
  case bitmap =>
    intro b below
    rw [image]
    constructor
    · intro mark
      by_cases low : b < sb.dataStart
      · exact .inl low
      · rcases (sound.owned.holds.used_iff b).mp ⟨Nat.le_of_not_lt low, below, mark⟩ with
          ⟨⟨n, j⟩, here⟩ | wrong
        · obtain ⟨number, same, -⟩ := held_eq_some.mp here
          exact .inr ⟨n, number, j, same⟩
        · exact absurd wrong (Set.notMem_empty b)
    · rintro (low | ⟨n, number, j, same⟩)
      · exact sound.owned.low b low
      · by_cases zero : b = 0
        · exact sound.owned.low b (by rw [zero]; decide)
        · have inUse := sound.owned.slot_used (j := j) number (by rw [same]; exact zero)
          rw [same] at inUse
          exact inUse.2.2

/-- If the entries fill the last block of the root directory, then its size says that there is one
more. -/
theorem not_built_of_full (holds : Holds m args) (few : args.length ≤ 198)
    (full : (args.length + 2) % 32 = 0) (image : m'.image = finished m) : ¬ Built args m' := by
  intro built
  have block : bsize = 512 := rfl
  have root : rootino < sb.ninodes := by decide
  have shape := (finished_sound holds.shows_).1.shape rootino root
  have bytes : (filesOf args).bytes rootino = rootBytes args := rfl
  rw [bytes, rootBytes_length] at shape
  have most := shape.most
  have inside := built.blocks rootino root (16 * (args.length + 2) / bsize) (by
    rw [image, finished_root_size holds few]
    unfold blocksOf
    rw [block]
    omega)
  rw [image] at inside
  have start := bmapstart_lt_dataStart sb
  have length : maxfile = 140 := rfl
  have lower := (shape.blocks (16 * (args.length + 2) / bsize) (by rw [block]; omega)).mp (by omega)
  unfold blocksOf at lower
  rw [block] at lower
  omega

/-- `mkfs` exits with status 0.  The image is what the kernel expects just if there were inodes for
all files and the entries of the root directory do not fill its last block. -/
theorem main_built (run : main args start = .ok ((), m)) :
    Built args m ↔ args.length ≤ 198 ∧ (args.length + 2) % 32 ≠ 0 := by
  have counter : m.freeinode = 1 + 1 + args.length := main_counts.runs rfl run
  have count : sb.ninodes = 200 := rfl
  constructor
  · intro built
    have few : args.length ≤ 198 := by
      have last := built.numbers (args.length + 1) (by omega) (by omega)
      omega
    obtain ⟨m₁, holds, image⟩ := main_ok few run
    exact ⟨few, fun full => not_built_of_full holds few full image built⟩
  · rintro ⟨few, ragged⟩
    obtain ⟨m₁, holds, image⟩ := main_ok few run
    exact built_of_few holds few ragged image (by omega)

/-! ## Inputs for which it exits with status 0 -/

/-- The blocks of the files. -/
def filesCost : List Arg → Nat
  | [] => 0
  | arg :: rest => total (blocksOf arg.bytes.length) + filesCost rest

/-- The blocks of the root directory with `n` files. -/
def rootCost (n : Nat) : Nat := total (blocksOf (16 * (n + 2)))

theorem rootCost_mono {a b : Nat} (le : a ≤ b) : rootCost a ≤ rootCost b :=
  total_mono (blocksOf_mono (by omega))

/-- The file can be opened and added, as far as that depends on itself. -/
structure Arg.Fine (arg : Arg) : Prop where
  name : arg.name.contains 47 = false
  opened : arg.reads.isSome = true
  short : arg.bytes.length ≤ maxfile * bsize

theorem addFile_run (holds : Holds m done) (few : done.length < 198) (fine : arg.Fine)
    (room : m.freeblock + rootCost (done.length + 1) + total (blocksOf arg.bytes.length) ≤
      fssize + rootCost done.length) :
    ∃ m', addFile arg m = .ok ((), m') ∧ m'.freeblock + rootCost done.length =
      m.freeblock + rootCost (done.length + 1) + total (blocksOf arg.bytes.length) := by
  have counter := holds.counter
  have count : sb.ninodes = 200 := rfl
  have root : rootino < sb.ninodes := by decide
  have one : rootino = 1 := rfl
  have limit : maxfile * bsize = 71680 := rfl
  have cost : total (blocksOf ([] : List UInt8).length) = 0 := by decide
  obtain ⟨reads, opened⟩ := Option.isSome_iff_exists.mp fine.opened
  have bytes : arg.bytes = reads.flatten := by
    unfold Arg.bytes
    rw [opened]
    rfl
  obtain ⟨m₁, alloc, shows₁, -, blocks₁⟩ := ialloc_run holds.shows_ (by omega)
    (by rw [counter]; exact filesOf_next done) .file
  rw [counter] at alloc shows₁
  have size := rootBytes_length done
  have length := direntBytes_length (.mk_ arg.entryName (done.length + 2))
  have more : 16 * (done.length + 2) + 16 = 16 * (done.length + 1 + 2) := by omega
  obtain ⟨m₂, entry, shows₂, blocks₂⟩ := iappend_run shows₁ root
    (by rw [Function.update_of_ne (by omega)]; exact filesOf_root done)
    (p := direntBytes (.mk_ arg.entryName (done.length + 2))) (by omega) (by
      rw [size, length, more]
      show _ + rootCost (done.length + 1) ≤ _ + rootCost done.length
      omega)
  rw [size, length, more] at blocks₂
  have blocks₂' : m₂.freeblock + rootCost done.length = m₁.freeblock + rootCost (done.length + 1) :=
    blocks₂
  have short := fine.short
  rw [bytes] at short room ⊢
  have number : done.length + 2 < sb.ninodes := by omega
  have inside : ([] : List UInt8).length + reads.flatten.length ≤ maxfile * bsize := by
    rw [List.length_nil, Nat.zero_add]
    exact short
  obtain ⟨m₃, rest, blocks₃⟩ := appendReads_run shows₂ number
    (by rw [Function.update_of_ne (by omega), Function.update_self]) inside (by
      rw [cost, List.length_nil, Nat.zero_add]
      omega)
  rw [cost, List.length_nil, Nat.zero_add] at blocks₃
  refine ⟨m₃, ?_, by omega⟩
  unfold addFile
  rw [fine.name, if_neg Bool.false_ne_true, opened]
  exact bind_run_iff.mpr ⟨_, _, alloc, bind_run_iff.mpr ⟨_, _, entry, rest⟩⟩

theorem addFiles_run (holds : Holds m done) (few : done.length + rest.length ≤ 198)
    (fine : ∀ arg ∈ rest, arg.Fine)
    (room : m.freeblock + rootCost (done.length + rest.length) + filesCost rest ≤
      fssize + rootCost done.length) : ∃ m', addFiles rest m = .ok ((), m') := by
  induction rest generalizing m done with
  | nil => exact ⟨m, rfl⟩
  | cons arg rest ih =>
    rw [List.length_cons] at few room
    rw [filesCost] at room
    have mono := rootCost_mono (show done.length + 1 ≤ done.length + (rest.length + 1) by omega)
    obtain ⟨m₁, first, blocks⟩ := addFile_run holds (by omega) (fine arg List.mem_cons_self)
      (by omega)
    have holds₁ := addFile_ok holds (by omega) first
    have length : (done ++ [arg]).length = done.length + 1 := List.length_append
    obtain ⟨m', run⟩ := ih holds₁ (by omega)
      (fun other later => fine other (List.mem_cons_of_mem arg later)) (by
        rw [length, show done.length + 1 + rest.length = done.length + (rest.length + 1) by omega]
        omega)
    exact ⟨m', bind_run_iff.mpr ⟨_, _, first, run⟩⟩

/-- `mkfs` exits with status 0 if there are inodes and blocks for all files. -/
theorem main_returns (few : args.length ≤ 198) (fine : ∀ arg ∈ args, arg.Fine)
    (room : rootCost args.length + filesCost args ≤ nblocks) :
    ∃ m, main args start = .ok ((), m) := by
  obtain ⟨m₁, holds, blocks, begin_⟩ := main_begin
  have total_ : fssize = nmeta + nblocks := by decide
  have first : rootCost 0 = 1 := by decide
  have fewer : ([] : List Arg).length + args.length ≤ 198 := by
    rw [List.length_nil]
    omega
  obtain ⟨m₂, add⟩ := addFiles_run holds fewer fine (by
    rw [List.length_nil, Nat.zero_add, first]
    omega)
  have holds₂ := addFiles_ok holds (by rw [List.length_nil]; omega) add
  obtain ⟨m₃, end_, -, -⟩ := main_end holds₂.shows_
  exact ⟨m₃, (begin_ args).trans ((bind_run add).trans end_)⟩

/-- An empty file with a name of one letter. -/
def emptyFile (letter : Nat) : Arg := ⟨[UInt8.ofNat (65 + letter)], some [], by simp⟩

/-- A file of two bytes and one of more than a block. -/
def twoFiles : List Arg :=
  [⟨[97], some [[72, 105]], by decide +kernel⟩,
    ⟨[98], some [List.replicate 512 1, [2]], by decide +kernel⟩]

theorem main_built_two : ∃ m, main twoFiles start = .ok ((), m) ∧ Built twoFiles m := by
  obtain ⟨m, run⟩ := main_returns (show twoFiles.length ≤ 198 by decide) (by
    intro arg member
    rcases List.mem_cons.mp member with rfl | member
    · exact ⟨by decide, rfl, by decide⟩
    · rw [List.mem_singleton.mp member]
      exact ⟨by decide, rfl, by decide +kernel⟩) (by decide +kernel)
  exact ⟨m, run, (main_built run).mpr (by decide)⟩

/-- 30 empty files, and 32 entries in the root directory. -/
def thirtyFiles : List Arg := (List.range 30).map emptyFile

/-- The names of the files are distinct.  The second block of the root directory is missing. -/
theorem thirtyFiles_not_built : (thirtyFiles.map fun arg => nameKey arg.entryName).Nodup ∧
    ∃ m, main thirtyFiles start = .ok ((), m) ∧ ¬ Built thirtyFiles m := by
  refine ⟨by decide, ?_⟩
  have few : thirtyFiles.length ≤ 198 := by decide
  have fine : ∀ arg ∈ thirtyFiles, arg.Fine := by
    intro arg member
    obtain ⟨letter, below, rfl⟩ := List.mem_map.mp member
    have names : (List.range 30).all fun letter => !(emptyFile letter).name.contains 47 := by decide
    exact ⟨by simpa using List.all_eq_true.mp names letter below, rfl, Nat.zero_le _⟩
  obtain ⟨m, run⟩ := main_returns few fine (by decide)
  obtain ⟨m₁, holds, image⟩ := main_ok few run
  exact ⟨m, run, not_built_of_full holds few (by decide) image⟩

end RandomRepo.Xv6.Volume.Mkfs

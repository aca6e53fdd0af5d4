import RandomRepo.Xv6.MkfsFiles

/-!
# The image that `mkfs` builds

The loop over the arguments adds one file after the other.  The image in the end is what the
kernel expects, unless there are too many files for the inodes or the entries of the root
directory fill its blocks: the size of the root directory is always rounded up to the next block,
also if it ends with a block.
-/

namespace RandomRepo.Xv6.Volume.Mkfs

variable {m m' : Build} {files : Files} {kind : Kind} {bytes p : List UInt8} {inum i j k : Nat}
  {args done rest : List Arg} {arg : Arg} {chunks : List (List UInt8)} {α β : Type}

/-! ## The inode counter -/

/-- The program takes `freeinode` from `i` to `j`. -/
def Counts (i j : Nat) (f : MkfsM α) : Prop :=
  Triple (fun m => m.freeinode = i) f (fun _ m => m.freeinode = j) anyError

theorem Counts.pure {a : α} : Counts i i (Pure.pure a : MkfsM α) := Triple.pure fun _ same => same

theorem Counts.throw {why : Halt} : Counts i j (MonadExcept.throw why : MkfsM α) :=
  Triple.throw trivial

theorem Counts.bind {f : MkfsM α} {g : α → MkfsM β} (first : Counts i j f)
    (rest : ∀ a, Counts j k (g a)) : Counts i k (f >>= g) :=
  Triple.bind first rest

theorem wsect_counts {sec : Nat} {buf : Data} : Counts i i (wsect sec buf) :=
  Triple.modify fun _ same => same

theorem rsect_counts {sec : Nat} : Counts i i (rsect sec) := by
  refine Triple.get_bind fun m same => ?_
  have pre : ∀ t, t = m → t.freeinode = i := by
    rintro t rfl
    exact same
  split_ifs
  · exact Triple.pre Counts.pure pre
  · exact Triple.pre Counts.throw pre

theorem winode_counts {inum : Nat} {ip : Inode} : Counts i i (winode inum ip) :=
  rsect_counts.bind fun _ => wsect_counts

theorem rinode_counts {inum : Nat} : Counts i i (rinode inum) :=
  rsect_counts.bind fun _ => Counts.pure

theorem ialloc_counts {type : UInt16} : Counts i (i + 1) (ialloc type) := by
  refine Counts.bind (j := i + 1) (fun m same => ⟨fun inum m' run => ?_, fun _ _ => trivial⟩)
    fun inum => winode_counts.bind fun _ => Counts.pure
  cases run
  exact congrArg (· + 1) same

theorem nextBlock_counts : Counts i i nextBlock := by
  refine fun m same => ⟨fun b m' run => ?_, fun _ _ => trivial⟩
  cases run
  exact same

theorem fillSlot_counts {din : Inode} {k : Fin 13} : Counts i i (fillSlot din k) := by
  unfold fillSlot
  split_ifs
  · exact nextBlock_counts.bind fun _ => Counts.pure
  · exact Counts.pure

theorem appendBlock_counts {din : Inode} {fbn : Nat} : Counts i i (appendBlock din fbn) := by
  unfold appendBlock
  split_ifs
  · exact fillSlot_counts.bind fun _ => Counts.pure
  · refine fillSlot_counts.bind fun _ => rsect_counts.bind fun _ => ?_
    split_ifs
    · exact nextBlock_counts.bind fun _ => wsect_counts.bind fun _ => Counts.pure
    · exact Counts.pure

theorem appendLoop_counts {turns : Nat} {din : Inode} {off : Nat} {p : List UInt8} :
    Counts i i (appendLoop turns din off p) := by
  induction turns generalizing din off p with
  | zero => exact Counts.pure
  | succ turns ih =>
    rw [appendLoop]
    split_ifs
    · exact Counts.pure
    · exact Counts.throw
    · exact appendBlock_counts.bind fun _ => rsect_counts.bind fun _ =>
        wsect_counts.bind fun _ => ih

theorem iappend_counts {inum : Nat} {p : List UInt8} : Counts i i (iappend inum p) :=
  rinode_counts.bind fun _ => appendLoop_counts.bind fun _ => winode_counts

theorem appendReads_counts {inum : Nat} {chunks : List (List UInt8)} :
    Counts i i (appendReads inum chunks) := by
  induction chunks with
  | nil => exact Counts.pure
  | cons c rest ih => exact iappend_counts.bind fun _ => ih

theorem addFile_counts {arg : Arg} : Counts i (i + 1) (addFile arg) := by
  unfold addFile
  split_ifs
  · exact Counts.throw
  · cases arg.reads with
    | none => exact Counts.throw
    | some reads =>
      exact ialloc_counts.bind fun _ => iappend_counts.bind fun _ => appendReads_counts

theorem addFiles_counts {args : List Arg} : Counts i (i + args.length) (addFiles args) := by
  induction args generalizing i with
  | nil => exact Counts.pure
  | cons arg rest ih =>
    rw [List.length_cons, Nat.add_comm rest.length, ← Nat.add_assoc]
    exact addFile_counts.bind fun _ => ih

theorem zeroSectors_counts {n : Nat} : Counts i i (zeroSectors n) := by
  induction n with
  | zero => exact Counts.pure
  | succ n ih => exact ih.bind fun _ => wsect_counts

theorem balloc_counts {used : Nat} : Counts i i (balloc used) := by
  unfold balloc
  split_ifs
  · exact wsect_counts
  · exact Counts.throw

theorem main_counts {args : List Arg} : Counts i (i + 1 + args.length) (main args) := by
  refine zeroSectors_counts.bind fun _ => wsect_counts.bind fun _ =>
    ialloc_counts.bind fun root => ?_
  split_ifs
  · exact Counts.throw
  · refine iappend_counts.bind fun _ => iappend_counts.bind fun _ =>
      addFiles_counts.bind fun _ => Counts.bind (j := i + 1 + args.length) ?_ fun _ => ?_
    · exact rinode_counts.bind fun _ => winode_counts
    · refine Triple.get_bind fun m same => balloc_counts.pre ?_
      rintro t rfl
      exact same

/-! ## One file after the other -/

/-- The entries of the root directory. -/
def rootEntries (args : List Arg) : List Dirent :=
  .mk_ dot rootino :: .mk_ dotdot rootino ::
    args.mapIdx fun k arg => .mk_ arg.entryName (k + 2)

def rootBytes (args : List Arg) : List UInt8 := (rootEntries args).flatMap direntBytes

/-- What the image shall hold. -/
def filesOf (args : List Arg) : Files := fun n =>
  if n = rootino then some (.dir, rootBytes args)
  else if 2 ≤ n then args[n - 2]?.map fun arg => (.file, arg.bytes)
  else none

theorem direntBytes_length (de : Dirent) : (direntBytes de).length = 16 := by
  unfold direntBytes
  rw [List.length_append, de.name.property]
  rfl

theorem rootBytes_length (args : List Arg) : (rootBytes args).length = 16 * (args.length + 2) := by
  have entries : ∀ des : List Dirent, (des.flatMap direntBytes).length = 16 * des.length := by
    intro des
    induction des with
    | nil => rfl
    | cons de des ih =>
      rw [List.flatMap_cons, List.length_append, direntBytes_length, ih, List.length_cons]
      omega
  unfold rootBytes rootEntries
  rw [entries, List.length_cons, List.length_cons, List.length_mapIdx]

theorem rootBytes_concat (args : List Arg) (arg : Arg) : rootBytes (args ++ [arg]) =
    rootBytes args ++ direntBytes (.mk_ arg.entryName (args.length + 2)) := by
  unfold rootBytes rootEntries
  rw [List.mapIdx_concat, ← List.cons_append, ← List.cons_append, List.flatMap_append,
    List.flatMap_singleton]

theorem filesOf_root (args : List Arg) : filesOf args rootino = some (.dir, rootBytes args) :=
  if_pos rfl

theorem filesOf_file (at_ : args[k]? = some arg) : filesOf args (k + 2) = some (.file, arg.bytes) := by
  unfold filesOf rootino
  rw [if_neg (by omega), if_pos (by omega), Nat.add_sub_cancel, at_]
  rfl

theorem filesOf_next (args : List Arg) : filesOf args (args.length + 2) = none := by
  unfold filesOf rootino
  rw [if_neg (by omega), if_pos (by omega), Nat.add_sub_cancel, List.getElem?_eq_none (Nat.le_refl _)]
  rfl

theorem filesOf_concat (args : List Arg) (arg : Arg) : filesOf (args ++ [arg]) =
    Function.update (Function.update (filesOf args) rootino (some (.dir, rootBytes args ++
      direntBytes (.mk_ arg.entryName (args.length + 2))))) (args.length + 2)
        (some (.file, arg.bytes)) := by
  funext n
  have one : rootino = 1 := rfl
  by_cases last : n = args.length + 2
  · rw [last, Function.update_self]
    exact filesOf_file List.getElem?_concat_length
  rw [Function.update_of_ne last]
  by_cases root : n = rootino
  · rw [root, Function.update_self, filesOf_root, rootBytes_concat]
  rw [Function.update_of_ne root]
  unfold filesOf
  rw [if_neg root, if_neg root]
  by_cases file : 2 ≤ n
  · rw [if_pos file, if_pos file]
    congr 1
    by_cases old : n - 2 < args.length
    · exact List.getElem?_append_left old
    · rw [List.getElem?_eq_none (by rw [List.length_append, List.length_singleton]; omega),
        List.getElem?_eq_none (by omega)]
  · rw [if_neg file, if_neg file]

/-- The chunks of a file are appended one after the other. -/
theorem appendReads_ok (shows_ : Shows m files) (number : inum < sb.ninodes)
    (here : files inum = some (kind, bytes)) (run : appendReads inum chunks m = .ok ((), m')) :
    Shows m' (Function.update files inum (some (kind, bytes ++ chunks.flatten))) := by
  induction chunks generalizing m files bytes with
  | nil =>
    cases run
    rw [List.flatten_nil, List.append_nil, ← here, Function.update_eq_self]
    exact shows_
  | cons c rest ih =>
    obtain ⟨_, m₁, first, run⟩ := bind_run_iff.mp run
    have shows₁ := iappend_ok shows_ number here first
    have shows' := ih shows₁ (Function.update_self ..) run
    rwa [Function.update_idem, List.append_assoc] at shows'

theorem appendReads_run (shows_ : Shows m files) (number : inum < sb.ninodes)
    (here : files inum = some (kind, bytes))
    (inside : bytes.length + chunks.flatten.length ≤ maxfile * bsize)
    (room : m.freeblock + total (blocksOf (bytes.length + chunks.flatten.length)) ≤
      fssize + total (blocksOf bytes.length)) :
    ∃ m', appendReads inum chunks m = .ok ((), m') ∧
      m'.freeblock + total (blocksOf bytes.length) =
        m.freeblock + total (blocksOf (bytes.length + chunks.flatten.length)) := by
  induction chunks generalizing m files bytes with
  | nil => exact ⟨m, rfl, rfl⟩
  | cons c rest ih =>
    rw [List.flatten_cons, List.length_append] at inside room ⊢
    have mono := total_mono (blocksOf_mono
      (show bytes.length + c.length ≤ bytes.length + (c.length + rest.flatten.length) by omega))
    obtain ⟨m₁, first, shows₁, count₁⟩ := iappend_run shows_ number here (p := c)
      (by omega) (by omega)
    have length : (bytes ++ c).length = bytes.length + c.length := List.length_append
    have sum : bytes.length + c.length + rest.flatten.length =
      bytes.length + (c.length + rest.flatten.length) := by omega
    obtain ⟨m', run, count⟩ := ih shows₁ (Function.update_self ..)
      (by rw [length, sum]; exact inside) (by rw [length, sum]; omega)
    rw [length, sum] at count
    exact ⟨m', bind_run_iff.mpr ⟨_, _, first, run⟩, by omega⟩

/-- The image on the way holds the files of the arguments so far. -/
structure Holds (m : Build) (done : List Arg) : Prop where
  shows_ : Shows m (filesOf done)
  counter : m.freeinode = done.length + 2

theorem addFile_ok (holds : Holds m done) (few : done.length < 198)
    (run : addFile arg m = .ok ((), m')) : Holds m' (done ++ [arg]) := by
  have counter := holds.counter
  have count : sb.ninodes = 200 := rfl
  have root : rootino < sb.ninodes := by decide
  have one : rootino = 1 := rfl
  have counts := addFile_counts.runs counter run
  refine ⟨?_, by rw [List.length_append, List.length_singleton]; omega⟩
  unfold addFile at run
  split_ifs at run
  · cases run
  cases opened : arg.reads with
  | none =>
    rw [opened] at run
    cases run
  | some reads =>
    rw [opened] at run
    obtain ⟨inum, m₁, alloc, run⟩ := bind_run_iff.mp run
    obtain ⟨_, m₂, entry, run⟩ := bind_run_iff.mp run
    obtain ⟨m₁', alloc', shows₁, -, -⟩ := ialloc_run holds.shows_ (by omega)
      (by rw [counter]; exact filesOf_next done) .file
    rw [show Kind.file.type = tFile from rfl, alloc] at alloc'
    cases alloc'
    rw [counter] at shows₁ entry run
    have shows₂ := iappend_ok shows₁ root
      (by rw [Function.update_of_ne (by omega)]; exact filesOf_root done) entry
    have number : done.length + 2 < sb.ninodes := by omega
    have shows₃ := appendReads_ok shows₂ number
      (by rw [Function.update_of_ne (by omega), Function.update_self]) run
    have bytes : arg.bytes = reads.flatten := by
      unfold Arg.bytes
      rw [opened]
      rfl
    rw [filesOf_concat, bytes]
    have apart : done.length + 2 ≠ rootino := by omega
    have swap := Function.update_comm (β := fun _ => Option (Kind × List UInt8)) apart
      (some (.file, [])) (some (.dir, rootBytes done ++ direntBytes (.mk_ arg.entryName
        (done.length + 2)))) (filesOf done)
    rwa [swap, Function.update_idem, List.nil_append] at shows₃

theorem addFiles_ok (holds : Holds m done) (few : done.length + rest.length ≤ 198)
    (run : addFiles rest m = .ok ((), m')) : Holds m' (done ++ rest) := by
  induction rest generalizing m done with
  | nil =>
    cases run
    rw [List.append_nil]
    exact holds
  | cons arg rest ih =>
    rw [List.length_cons] at few
    obtain ⟨_, m₁, first, run⟩ := bind_run_iff.mp run
    have holds₁ := addFile_ok holds (by omega) first
    have holds' := ih holds₁ (by rw [List.length_append, List.length_singleton]; omega) run
    rwa [List.append_assoc] at holds'

/-! ## From the start -/

/-- Zeros and the super block. -/
def blank : Build := ⟨Function.update (fun _ _ => 0) 1 sbData, fssize, 1, nmeta⟩

theorem zeroSectors_run {n : Nat} (fits : n ≤ fssize) :
    zeroSectors n start = .ok ((), { start with sectors := n }) := by
  induction n with
  | zero => rfl
  | succ n ih =>
    refine bind_run_iff.mpr ⟨_, _, ih (by omega), ?_⟩
    have image : Function.update start.image n (fun _ => 0) = start.image :=
      Function.update_eq_self n start.image
    show Except.ok ((), { start with
      image := Function.update start.image (lseek n) (fun _ => 0)
      sectors := max n (lseek n + 1) }) = _
    rw [lseek_of_le (by omega), image, Nat.max_eq_right (Nat.le_succ n)]

theorem blank_image {x : Nat} (other : x ≠ 1) : blank.image x = fun _ => 0 := by
  show Function.update (fun _ _ => 0) 1 sbData x = fun _ => 0
  rw [Function.update_of_ne other]

theorem blank_inode {n : Nat} (number : n < sb.ninodes) :
    dinode sb (virt blank) n = ⟨0, 0, 0, 0, 0, fun _ => 0⟩ := by
  have lower := sb_valid.inodes n number
  have zero : virt blank (sb.iblock n) = fun _ => 0 := by
    rw [virt_of_ne (Nat.ne_of_lt lower)]
    exact blank_image (iblock_ne_super n).symm
  have word : ∀ a, readWord (fun _ => 0) a = 0 := fun _ => rfl
  unfold dinode getInode
  simp only [zero, word]
  rfl

theorem blank_draft : Draft blank ⟨virt blank, []⟩ where
  disk := rfl
  sectors := rfl
  bound := by decide
  data := by decide
  fresh b after := by
    have start : nmeta = 59 := rfl
    have after' : nmeta ≤ b := after
    exact blank_image (by omega)

theorem blank_shows : Shows blank fun _ => none where
  draft := blank_draft
  super := by
    show Function.update (fun _ _ => 0) 1 sbData 1 = sbData
    rw [Function.update_self]
  consistent := by
    refine consistent_of_blank sb_valid (fun n number => ?_) fun b below => ?_
    · rw [blank_inode number]
      exact ⟨fun _ => rfl, rfl⟩
    · exact blank_draft.marked_eq below
  inode n number := by
    rw [blank_inode number]
    rfl
  short _ _ := Nat.zero_le _
  bytes n number := by
    have none_ : Files.bytes (fun _ => none) n = [] := rfl
    have empty : blocksOf ([] : List UInt8).length = 0 := by decide
    rw [none_, overlay_nil, empty]
    funext p
    exact if_neg (Nat.not_lt_zero _)

/-- Before the first argument: the root directory has its first two entries. -/
theorem main_begin : ∃ m, Holds m [] ∧ m.freeblock = nmeta + 1 ∧ ∀ args, main args start =
    (do addFiles args; fixRoot; let m ← get; balloc m.freeblock : MkfsM Unit) m := by
  have root : rootino < sb.ninodes := by decide
  have length := direntBytes_length
  have limit : 16 + 16 ≤ maxfile * bsize := by decide
  have size : fssize = 1000 := rfl
  have first : nmeta = 59 := rfl
  have cost₀ : total (blocksOf ([] : List UInt8).length) = 0 := by decide
  have cost₁ : total (blocksOf (([] : List UInt8).length + 16)) = 1 := by decide
  have cost₂ : total (blocksOf (16 + 16)) = 1 := by decide
  obtain ⟨m₁, alloc, shows₁, counter, blocks₁⟩ := ialloc_run blank_shows root rfl .dir
  have start₁ : m₁.freeblock = nmeta := blocks₁
  obtain ⟨m₂, dot_, shows₂, blocks₂⟩ := iappend_run shows₁ root (Function.update_self ..)
    (p := direntBytes (.mk_ dot rootino)) (by rw [length]; exact (by decide))
    (by rw [length, cost₀, cost₁]; omega)
  rw [length, cost₀, cost₁] at blocks₂
  have length₂ : ([] ++ direntBytes (.mk_ dot rootino)).length = 16 := length _
  obtain ⟨m₃, dotdot_, shows₃, blocks₃⟩ := iappend_run shows₂ root (Function.update_self ..)
    (p := direntBytes (.mk_ dotdot rootino)) (by rw [length₂, length]; exact limit)
    (by rw [length₂, length]; omega)
  have counter₂ := iappend_counts.runs counter dot_
  have counter₃ := iappend_counts.runs counter₂ dotdot_
  refine ⟨m₃, ⟨?_, counter₃⟩, ?_, fun args => ?_⟩
  · have same : filesOf [] = Function.update (Function.update (Function.update (fun _ => none)
        rootino (some (.dir, []))) rootino (some (.dir, [] ++ direntBytes (.mk_ dot rootino))))
        rootino (some (.dir, [] ++ direntBytes (.mk_ dot rootino) ++
          direntBytes (.mk_ dotdot rootino))) := by
      funext n
      by_cases here : n = rootino
      · rw [here, Function.update_self]
        rfl
      · rw [Function.update_of_ne here, Function.update_of_ne here, Function.update_of_ne here]
        unfold filesOf
        rw [if_neg here, List.getElem?_nil, Option.map_none, ite_self]
    rw [same]
    exact shows₃
  · rw [length₂, length, cost₂] at blocks₃
    have cost₃ : total (blocksOf 16) = 1 := by decide
    omega
  · refine (bind_run (zeroSectors_run (Nat.le_refl _))).trans ?_
    refine (bind_run (wsect_run rfl (by decide) _)).trans ?_
    refine (bind_run alloc).trans ?_
    refine (congrFun (if_neg fun other => other rfl) _).trans ?_
    refine (bind_run dot_).trans ?_
    exact bind_run dotdot_

end RandomRepo.Xv6.Volume.Mkfs

import RandomRepo.Lib.Triple
import RandomRepo.Xv6.Dirent
import RandomRepo.Xv6.FileInv
import RandomRepo.Xv6.Kernel

/-!
# The file system

Inodes, directories and path names of `fs.c`, and the system calls of `sysfile.c`, `file.c`
and `proc.c` that create, name, open and drop files.  A system call runs as a whole.

There is one device.  Of an inode on the disk we keep its type and its link count, and of
its contents the entries of a directory; a cached inode has a copy of the type and of the link
count.  The contents of files, the blocks that hold them and the numbers of devices play no part
here.  Running out of blocks ends a run as any panic does.  What the page allocator answers comes
from outside (`room`); a pipe is named by the number of its allocation.

The file structures and the descriptors are those of `file.c` (`Files`, `Proc`).
-/

namespace RandomRepo.Xv6

/-- `NINODE`. -/
def ninode : Nat := 50

def rootino : Nat := 1

/-! ## The state -/

/-- `T_DIR`, `T_FILE` and `T_DEV`; a free inode has type 0. -/
inductive Itype
  | none | dir | file | dev
  deriving DecidableEq, Repr

structure Dinode where
  type : Itype
  nlink : Int
  deriving DecidableEq, Repr

structure Inode where
  inum : Nat
  ref : Nat
  locked : Bool
  valid : Bool
  /-- The copy of the disk inode. -/
  copy : Dinode
  deriving DecidableEq, Repr

structure FsDisk where
  dinode : Nat → Dinode
  /-- The contents of the directories. -/
  ents : Nat → List Dirent

/-- What a file structure holds a reference to. -/
inductive Resource
  | pipe (p : Nat) (writable : Bool)
  | inode (x : Nat)
  deriving DecidableEq, Repr

/-- The tables that refer to inodes.  `acquired` and `released` are history variables: how often a
file has been given the resource, and how often `fileclose` has given it back. -/
structure Tables where
  files : Files
  npipe : Nat
  proc : Nat → Proc
  cwd : Nat → Option Nat
  acquired : Resource → Nat
  released : Resource → Nat

structure Fs where
  disk : FsDisk
  inode : Nat → Inode
  tab : Tables

/-- Why a call does not return: a panic of the file system, or one of the other reasons.  A
process that asks for a sleep lock it holds hangs. -/
inductive FsHalt
  | panic (p : FsPanic)
  | kernel (h : Halt)
  deriving DecidableEq, Repr

abbrev FsM := StateT Fs (Except FsHalt)

/-- A C `short`. -/
def short (n : Int) : Int := n.bmod 65536

def FsDisk.setDinode (D : FsDisk) (n : Nat) (d : Dinode) : FsDisk :=
  { D with dinode := Function.update D.dinode n d }

def FsDisk.setEnts (D : FsDisk) (n : Nat) (es : List Dirent) : FsDisk :=
  { D with ents := Function.update D.ents n es }

def Fs.setInode (s : Fs) (x : Nat) (ip : Inode) : Fs :=
  { s with inode := Function.update s.inode x ip }

def inodeAt (x : Nat) : FsM Inode := do
  let s ← get
  return s.inode x

def setInode (x : Nat) (ip : Inode) : FsM Unit := modify fun s => s.setInode x ip

def setDisk (D : FsDisk) : FsM Unit := modify fun s => { s with disk := D }

def modifyTab (f : Tables → Tables) : FsM Unit := modify fun s => { s with tab := f s.tab }

def liftHalt {α : Type} : Except Halt α → FsM α
  | .ok a => pure a
  | .error h => throw (.kernel h)

/-! ## Inodes -/

/-- Find the inode with number `inum` in the cache, or an empty slot for it. -/
def iget (inum : Nat) : FsM Nat := do
  let s ← get
  match (List.range ninode).find? fun x => 0 < (s.inode x).ref ∧ (s.inode x).inum = inum with
  | some x => do
    setInode x { s.inode x with ref := (s.inode x).ref + 1 }
    return x
  | none =>
    match (List.range ninode).find? fun x => (s.inode x).ref = 0 with
    | none => throw (.panic .igetNoInodes)
    | some x => do
      setInode x { s.inode x with inum := inum, ref := 1, valid := false }
      return x

def idup (x : Nat) : FsM Unit := do
  let ip ← inodeAt x
  setInode x { ip with ref := ip.ref + 1 }

def ilock (x : Nat) : FsM Unit := do
  let s ← get
  let ip := s.inode x
  if ip.ref < 1 then throw (.panic .ilock)
  else if ip.locked then throw (.kernel .hang)
  else if ip.valid then setInode x { ip with locked := true }
  else
    let dip := s.disk.dinode ip.inum
    if dip.type = .none then throw (.panic .ilockNoType)
    else setInode x { ip with locked := true, valid := true, copy := dip }

def iunlock (x : Nat) : FsM Unit := do
  let ip ← inodeAt x
  if !ip.locked ∨ ip.ref < 1 then throw (.panic .iunlock)
  else setInode x { ip with locked := false }

/-- An inode without links and without other references is freed with its contents. -/
def FsDisk.free (D : FsDisk) (n : Nat) (d : Dinode) : FsDisk :=
  (D.setDinode n { d with type := .none }).setEnts n []

def iput (x : Nat) : FsM Unit := do
  let s ← get
  let ip := s.inode x
  if ip.locked then throw (.kernel .hang)
  else if ip.valid ∧ ip.copy.nlink = 0 ∧ ip.ref = 1 then do
    setDisk (s.disk.free ip.inum ip.copy)
    setInode x { ip with copy := { ip.copy with type := .none }, valid := false, ref := 0 }
  else setInode x { ip with ref := ip.ref - 1 }

def iunlockput (x : Nat) : FsM Unit := do
  iunlock x
  iput x

def iupdate (x : Nat) : FsM Unit :=
  modify fun s => { s with disk := s.disk.setDinode (s.inode x).inum (s.inode x).copy }

/-- The assignments `ip->nlink = ...; iupdate(ip);`. -/
def setNlink (x : Nat) (n : Int) : FsM Unit := do
  let ip ← inodeAt x
  setInode x { ip with copy := { ip.copy with nlink := n } }
  iupdate x

/-- The new inode has an empty content. -/
def ialloc (ninodes : Nat) (type : Itype) : FsM Nat := do
  let s ← get
  match (List.range ninodes).find? fun n => 0 < n ∧ (s.disk.dinode n).type = .none with
  | none => throw (.panic .iallocNoInodes)
  | some n => do
    setDisk ((s.disk.setDinode n ⟨type, 0⟩).setEnts n [])
    iget n

/-! ## Directories and path names -/

/-- The position of the entry and the inode, with a reference to it. -/
def dirget (dp : Nat) (name : List UInt8) : FsM (Option (Nat × Nat)) := do
  let s ← get
  let d := s.inode dp
  if d.copy.type ≠ .dir then throw (.panic .dirlookupNotDir)
  else
    match dirlookup (s.disk.ents d.inum) name with
    | none => return none
    | some (off, inum) => do
      let ip ← iget inum.toNat
      return some (off, ip)

/-- The result says whether 0 is returned. -/
def dirlink (dp : Nat) (name : List UInt8) (inum : Nat) : FsM Bool := do
  let found ← dirget dp name
  match found with
  | some (_, ip) => do
    iput ip
    return false
  | none => do
    let s ← get
    let d := (s.inode dp).inum
    let off := emptySlot (s.disk.ents d)
    if maxEntries < off + 1 then throw (.panic .dirlink)
    else do
      setDisk (s.disk.setEnts d (put (s.disk.ents d) off (.mk_ name inum)))
      return true

def slash : UInt8 := 47

/-- The next element, cut to `DIRSIZ` bytes, and the rest of the path. -/
def skipelem (path : List UInt8) : Option (List UInt8 × List UInt8) :=
  let path := path.dropWhile (· = slash)
  if path.headD 0 = 0 then none
  else
    let elem := path.takeWhile fun c => c ≠ slash ∧ c ≠ 0
    let rest := path.dropWhile fun c => c ≠ slash ∧ c ≠ 0
    some (elem.take dirsiz, rest.dropWhile (· = slash))

/-- The loop of `namex`, with the inode reached so far; the fuel bounds the number of elements. -/
def namexLoop (parent : Bool) : Nat → List UInt8 → Nat → FsM (Option (Nat × List UInt8))
  | 0, _, _ => throw (.kernel .hang)
  | fuel + 1, path, ip =>
    match skipelem path with
    | none =>
      if parent then do
        iput ip
        return none
      else return some (ip, [])
    | some (name, rest) => do
      ilock ip
      let d ← inodeAt ip
      if d.copy.type ≠ .dir then do
        iunlockput ip
        return none
      else if parent ∧ rest.headD 0 = 0 then do
        -- Stop one level early.
        iunlock ip
        return some (ip, name)
      else do
        let next ← dirget ip name
        match next with
        | none => do
          iunlockput ip
          return none
        | some (_, next) => do
          iunlockput ip
          namexLoop parent fuel rest next

def namex (i : Nat) (parent : Bool) (path : List UInt8) : FsM (Option (Nat × List UInt8)) := do
  let s ← get
  if path.headD 0 = slash then do
    let ip ← iget rootino
    namexLoop parent (path.length + 1) path ip
  else
    match s.tab.cwd i with
    | none => throw (.kernel .null)
    | some ip => do
      idup ip
      namexLoop parent (path.length + 1) path ip

def namei (i : Nat) (path : List UInt8) : FsM (Option Nat) := do
  let r ← namex i false path
  return r.map Prod.fst

def nameiparent (i : Nat) (path : List UInt8) : FsM (Option (Nat × List UInt8)) :=
  namex i true path

/-! ## Calls that name files -/

/-- The entries of a new directory; `dp->nlink` counts the one for "..". -/
def mkdots (dp ip : Nat) : FsM Unit := do
  let d ← inodeAt dp
  setNlink dp (short (d.copy.nlink + 1))
  let self ← inodeAt ip
  let one ← dirlink ip dot self.inum
  if !one then throw (.panic .createDots)
  else do
    let two ← dirlink ip dotdot d.inum
    if !two then throw (.panic .createDots) else return ()

/-- The part of `create` after the name has not been found. -/
def createNew (ninodes : Nat) (dp : Nat) (name : List UInt8) (type : Itype) : FsM Nat := do
  let ip ← ialloc ninodes type
  ilock ip
  setNlink ip 1
  (if type = .dir then mkdots dp ip else return ())
  let self ← inodeAt ip
  let linked ← dirlink dp name self.inum
  if !linked then throw (.panic .createDirlink)
  else do
    iunlockput dp
    return ip

def create (ninodes i : Nat) (path : List UInt8) (type : Itype) : FsM (Option Nat) := do
  let r ← nameiparent i path
  match r with
  | none => return none
  | some (dp, name) => do
    ilock dp
    let found ← dirget dp name
    match found with
    | some (_, ip) => do
      iunlockput dp
      ilock ip
      let self ← inodeAt ip
      if type = .file ∧ self.copy.type = .file then return some ip
      else do
        iunlockput ip
        return none
    | none => do
      let ip ← createNew ninodes dp name type
      return some ip

/-- What a call returns: -1, another value, or nothing because the process is gone or asleep. -/
inductive FsReply
  | failed
  | value (n : Nat)
  | away
  deriving DecidableEq, Repr

/-- The label `bad` of `sys_link`. -/
def linkBad (ip : Nat) : FsM FsReply := do
  ilock ip
  let self ← inodeAt ip
  setNlink ip (short (self.copy.nlink - 1))
  iunlockput ip
  return .failed

def sysLink (i : Nat) (arg : Option (List UInt8 × List UInt8)) : FsM FsReply :=
  match arg with
  | none => return .failed
  | some (old, new) => do
    let r ← namei i old
    match r with
    | none => return .failed
    | some ip => do
      ilock ip
      let self ← inodeAt ip
      if self.copy.type = .dir then do
        iunlockput ip
        return .failed
      else do
        setNlink ip (short (self.copy.nlink + 1))
        iunlock ip
        let r ← nameiparent i new
        match r with
        | none => linkBad ip
        | some (dp, name) => do
          ilock dp
          let linked ← dirlink dp name self.inum
          if !linked then do
            iunlockput dp
            linkBad ip
          else do
            iunlockput dp
            iput ip
            return .value 0

def isdirempty (es : List Dirent) : Bool := (es.drop 2).all fun de => de.inum = 0

/-- The part of `sys_unlink` after the checks. -/
def unlinkGo (dp off ip : Nat) : FsM FsReply := do
  let s ← get
  let d := (s.inode dp).inum
  if maxEntries < off + 1 then throw (.panic .unlinkWritei)
  else do
    setDisk (s.disk.setEnts d (put (s.disk.ents d) off .zero))
    (if (s.inode ip).copy.type = .dir then setNlink dp (short ((s.inode dp).copy.nlink - 1))
      else return ())
    iunlockput dp
    let self ← inodeAt ip
    setNlink ip (short (self.copy.nlink - 1))
    iunlockput ip
    return .value 0

/-- The label `bad` of `sys_unlink`. -/
def unlinkBad (dp : Nat) : FsM FsReply := do
  iunlockput dp
  return .failed

def sysUnlink (i : Nat) (arg : Option (List UInt8)) : FsM FsReply :=
  match arg with
  | none => return .failed
  | some path => do
    let r ← nameiparent i path
    match r with
    | none => return .failed
    | some (dp, name) => do
      ilock dp
      if namecmp name dot = 0 ∨ namecmp name dotdot = 0 then unlinkBad dp
      else do
        let found ← dirget dp name
        match found with
        | none => unlinkBad dp
        | some (off, ip) => do
          ilock ip
          let s ← get
          let self := s.inode ip
          if self.copy.nlink < 1 then throw (.panic .unlinkNlink)
          else if self.copy.type = .dir ∧ !isdirempty (s.disk.ents self.inum) then do
            iunlockput ip
            unlinkBad dp
          else unlinkGo dp off ip

def sysMkdir (ninodes i : Nat) (arg : Option (List UInt8)) : FsM FsReply :=
  match arg with
  | none => return .failed
  | some path => do
    let r ← create ninodes i path .dir
    match r with
    | none => return .failed
    | some ip => do
      iunlockput ip
      return .value 0

def sysMknod (ninodes i : Nat) (arg : Option (List UInt8)) : FsM FsReply :=
  match arg with
  | none => return .failed
  | some path => do
    let r ← create ninodes i path .dev
    match r with
    | none => return .failed
    | some ip => do
      iunlockput ip
      return .value 0

def sysChdir (i : Nat) (arg : Option (List UInt8)) : FsM FsReply :=
  match arg with
  | none => return .failed
  | some path => do
    let r ← namei i path
    match r with
    | none => return .failed
    | some ip => do
      ilock ip
      let self ← inodeAt ip
      if self.copy.type ≠ .dir then do
        iunlockput ip
        return .failed
      else do
        iunlock ip
        let s ← get
        match s.tab.cwd i with
        | none => throw (.kernel .null)
        | some old => do
          iput old
          modifyTab fun t => { t with cwd := Function.update t.cwd i (some ip) }
          return .value 0

/-- `exec` as far as the inode goes; `loads` says whether the image is built. -/
def execFile (i : Nat) (loads : Bool) (arg : Option (List UInt8)) : FsM FsReply :=
  match arg with
  | none => return .failed
  | some path => do
    let r ← namei i path
    match r with
    | none => return .failed
    | some ip => do
      ilock ip
      iunlockput ip
      return if loads then .value 0 else .failed

/-! ## Open files -/

def Resource.ofFile (ff : File) : Option Resource :=
  match ff.type with
  | .fdNone => none
  | .fdPipe => some (.pipe ff.pipe ff.writable)
  | .fdInode => some (.inode ff.ip)

def Tables.acquire (t : Tables) (r : Resource) : Tables :=
  { t with acquired := Function.update t.acquired r (t.acquired r + 1) }

def Tables.release (t : Tables) (r : Resource) : Tables :=
  { t with released := Function.update t.released r (t.released r + 1) }

def Tables.setProc (t : Tables) (i : Nat) (p : Proc) : Tables :=
  { t with proc := Function.update t.proc i p }

def setFiles (fs : Files) : FsM Unit := modifyTab fun t => { t with files := fs }

/-- Closing one end; a pipe without ends is gone. -/
def closePipe (p : Nat) (writable : Bool) (fs : Files) : Except Halt Files :=
  match fs.pipe p with
  | none => .error .null
  | some q =>
    let q := q.close writable
    .ok (fs.setPipe p (if !q.readopen && !q.writeopen then none else some q))

/-- The part of `fileclose` after the file has left the table. -/
def closeLast (ff : File) : FsM Unit :=
  match ff.type with
  | .fdNone => return ()
  | .fdPipe => do
    let s ← get
    let fs ← liftHalt (closePipe ff.pipe ff.writable s.tab.files)
    setFiles fs
    modifyTab fun t => t.release (.pipe ff.pipe ff.writable)
  | .fdInode => do
    iput ff.ip
    modifyTab fun t => t.release (.inode ff.ip)

def closeFile (f : Nat) : FsM Unit := do
  let s ← get
  let (last, fs) ← liftHalt (dropRef f s.tab.files)
  setFiles fs
  match last with
  | none => return ()
  | some ff => closeLast ff

/-- `O_WRONLY`, `O_RDWR` and `O_CREATE`. -/
def wronly : UInt32 := 1

def rdwr : UInt32 := 2

def creates : UInt32 := 0x200

/-- The part of `sys_open` that finds the inode; it is locked. -/
def openInode (ninodes i : Nat) (path : List UInt8) (omode : UInt32) : FsM (Option Nat) :=
  if omode &&& creates ≠ 0 then create ninodes i path .file
  else do
    let r ← namei i path
    match r with
    | none => return none
    | some ip => do
      ilock ip
      let self ← inodeAt ip
      if self.copy.type = .dir ∧ omode ≠ 0 then do
        iunlockput ip
        return none
      else return some ip

/-- The file stands for the inode from now on. -/
def Tables.openFile (t : Tables) (f ip : Nat) (omode : UInt32) : Tables :=
  let ff := { t.files.file f with
    type := .fdInode
    ip := ip
    readable := omode &&& wronly = 0
    writable := omode &&& wronly ≠ 0 ∨ omode &&& rdwr ≠ 0 }
  { t with files := t.files.setFile f ff }.acquire (.inode ip)

def sysOpen (ninodes i : Nat) (arg : Option (List UInt8 × UInt32)) : FsM FsReply :=
  match arg with
  | none => return .failed
  | some (path, omode) => do
    let r ← openInode ninodes i path omode
    match r with
    | none => return .failed
    | some ip => do
      let s ← get
      match filealloc s.tab.files with
      | none => do
        iunlockput ip
        return .failed
      | some (f, fs) => do
        setFiles fs
        match fdalloc (s.tab.proc i) f with
        | none => do
          closeFile f
          iunlockput ip
          return .failed
        | some (fd, p) => do
          modifyTab fun t => t.setProc i p
          iunlock ip
          modifyTab fun t => t.openFile f ip omode
          return .value fd

def dupFile (i : Nat) (arg : Option CInt) : FsM FsReply := do
  let s ← get
  match argfd (s.tab.proc i) arg with
  | none => return .failed
  | some (_, f) =>
    match fdalloc (s.tab.proc i) f with
    | none => return .failed
    | some (fd, p) => do
      modifyTab fun t => t.setProc i p
      let fs ← liftHalt (filedup f s.tab.files)
      setFiles fs
      return .value fd

def closeFd (i : Nat) (arg : Option CInt) : FsM FsReply := do
  let s ← get
  match argfd (s.tab.proc i) arg with
  | none => return .failed
  | some (fd, f) => do
    modifyTab fun t => t.setProc i ((t.proc i).setFd fd none)
    closeFile f
    return .value 0

/-- The two ends of a new pipe. -/
def Tables.openPipe (t : Tables) (f g : Nat) : Tables :=
  let p := t.npipe
  (({ t with files := t.files.newPipe f g p, npipe := p + 1 } : Tables).acquire
    (.pipe p false)).acquire (.pipe p true)

/-- The two files, read end first. -/
def newPipe (room : Bool) : FsM (Option (Nat × Nat)) := do
  let s ← get
  match filealloc s.tab.files with
  | none => return none
  | some (f, fs) => do
    setFiles fs
    match filealloc fs with
    | none => do
      closeFile f
      return none
    | some (g, fs) => do
      setFiles fs
      if !room then do
        closeFile f
        closeFile g
        return none
      else do
        modifyTab fun t => t.openPipe f g
        return some (f, g)

/-- The flag `arg` is the outcome of the call of `argptr`. -/
def pipeCall (i : Nat) (arg room : Bool) : FsM FsReply :=
  if !arg then return .failed
  else do
    let r ← newPipe room
    match r with
    | none => return .failed
    | some (rf, wf) => do
      let s ← get
      match (fdalloc (s.tab.proc i) rf).bind fun (_, p) => fdalloc p wf with
      | some (_, p) => do
        modifyTab fun t => t.setProc i p
        return .value 0
      | none => do
        -- a descriptor taken for the read end has been given back
        closeFile rf
        closeFile wf
        return .failed

/-! ## Processes -/

/-- `room` says whether there is memory for the new process. -/
def forkFiles (i : Nat) (room : Bool) : FsM FsReply := do
  let s ← get
  match (List.range nproc).find? fun n => (s.tab.proc n).state = .unused with
  | none => return .failed
  | some n =>
    if !room then return .failed
    else do
      let curproc := s.tab.proc i
      let np := s.tab.proc n
      let fs ← liftHalt (dupFiles curproc.ofile (List.range nofile) s.tab.files)
      setFiles fs
      match s.tab.cwd i with
      | none => throw (.kernel .null)
      | some x => do
        idup x
        let np := { np with
          parent := some i
          ofile := fun fd => (curproc.ofile fd).orElse fun _ => np.ofile fd
          name := curproc.name
          state := .runnable }
        modifyTab fun t => { t.setProc n np with cwd := Function.update t.cwd n (some x) }
        return .value n

/-- Close the open files among the given descriptors. -/
def closeFds (i : Nat) : List Nat → FsM Unit
  | [] => return ()
  | fd :: fds => do
    let s ← get
    match (s.tab.proc i).ofile fd with
    | none => closeFds i fds
    | some f => do
      closeFile f
      modifyTab fun t => t.setProc i ((t.proc i).setFd fd none)
      closeFds i fds

/-- The first process is init; it gets the children of a process that exits. -/
def Tables.exit (t : Tables) (i : Nat) : Tables :=
  let pass := fun p : Proc => if p.parent = some i then { p with parent := some 0 } else p
  { t with
    cwd := Function.update t.cwd i none
    proc := Function.update (fun j => pass (t.proc j)) i { pass (t.proc i) with state := .zombie } }

def exitFiles (i : Nat) : FsM FsReply :=
  if i = 0 then throw (.kernel (.panic .initExiting))
  else do
    closeFds i (List.range nofile)
    let s ← get
    match s.tab.cwd i with
    | none => throw (.kernel .null)
    | some x => do
      iput x
      modifyTab fun t => t.exit i
      return .away

/-- A process that has children but no zombie among them goes to sleep. -/
def waitProc (i : Nat) : FsM FsReply := do
  let s ← get
  let child := fun j => (s.tab.proc j).parent = some i
  match (List.range nproc).find? fun j => child j ∧ (s.tab.proc j).state = .zombie with
  | some j => do
    let p := s.tab.proc j
    modifyTab fun t => t.setProc j
      { p with kstack := none, pid := 0, parent := none, name := [], killed := false,
               state := .unused }
    return .value j
  | none =>
    if !(List.range nproc).any (fun j => child j) || (s.tab.proc i).killed then return .failed
    else return .away

/-! ## Steps -/

inductive FsCall
  | open_ (arg : Option (List UInt8 × UInt32))
  | mkdir (arg : Option (List UInt8))
  | mknod (arg : Option (List UInt8))
  | link (arg : Option (List UInt8 × List UInt8))
  | unlink (arg : Option (List UInt8))
  | chdir (arg : Option (List UInt8))
  | exec (loads : Bool) (arg : Option (List UInt8))
  | dup (arg : Option CInt)
  | close (arg : Option CInt)
  | pipe (arg room : Bool)
  | fork (room : Bool)
  | exit
  | wait

def FsCall.run (ninodes i : Nat) : FsCall → FsM FsReply
  | open_ arg => sysOpen ninodes i arg
  | mkdir arg => sysMkdir ninodes i arg
  | mknod arg => sysMknod ninodes i arg
  | link arg => sysLink i arg
  | unlink arg => sysUnlink i arg
  | chdir arg => sysChdir i arg
  | exec loads arg => execFile i loads arg
  | dup arg => dupFile i arg
  | close arg => closeFd i arg
  | pipe arg room => pipeCall i arg room
  | fork room => forkFiles i room
  | exit => exitFiles i
  | wait => waitProc i

/-- Process `i` makes the call `c` and it returns `r`. -/
def Fs.Calls (ninodes : Nat) (s : Fs) (i : Nat) (c : FsCall) (r : FsReply) (s' : Fs) : Prop :=
  i < nproc ∧ (s.tab.proc i).state = .runnable ∧ c.run ninodes i s = .ok (r, s')

def Fs.Step (ninodes : Nat) (s : Fs) (a : Nat × FsCall) (s' : Fs) : Prop :=
  ∃ r, s.Calls ninodes a.1 a.2 r s'

def noProc : Proc where
  sz := 0
  pgdir := none
  kstack := none
  state := .unused
  pid := 0
  parent := none
  tf := ⟨0, 0, 0⟩
  killed := false
  ofile := fun _ => none
  name := []

/-- After `userinit`: the first process has the root as its current directory. -/
def Fs.boot (D : FsDisk) : Fs where
  disk := D
  inode := Function.update (fun _ => ⟨0, 0, false, false, ⟨.none, 0⟩⟩) 0
    ⟨rootino, 1, false, false, ⟨.none, 0⟩⟩
  tab :=
    { files := ⟨fun _ => ⟨.fdNone, 0, false, false, 0, 0⟩, fun _ => none⟩
      npipe := 0
      proc := Function.update (fun _ => noProc) 0 { noProc with state := .runnable }
      cwd := Function.update (fun _ => none) 0 (some 0)
      acquired := fun _ => 0
      released := fun _ => 0 }

end RandomRepo.Xv6

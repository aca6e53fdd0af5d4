import RandomRepo.Lib.Run
import RandomRepo.Xv6.Dirent

/-!
# Processes at work in one directory

`n` processes look names up in a directory `dp`, link names to inodes, create files and
remove entries: the calls of `dirlookup` in `namex`, of `dirlink` in `sys_link`, `create`
and `sys_unlink`.  Each of them holds the sleep lock of `dp` from `ilock` to `iunlock`; in
between every entry that is read or written is a step of its own.

What happens in other inodes comes from outside: the number that `ialloc` finds for a new
inode, and whether `sys_unlink` may remove the entry (it may not if the entry names a
directory that is not empty).

`done` is a history variable: the successful changes, the last one first.
-/

namespace RandomRepo.Xv6

/-- `isInode` says that a number can be the number of an inode. -/
def IsInode (ninodes inum : Nat) : Prop := 0 < inum ∧ inum < ninodes

instance (ninodes inum : Nat) : Decidable (IsInode ninodes inum) :=
  inferInstanceAs (Decidable (_ ∧ _))

/-- What `dirlookup` is called for. -/
inductive DirTask
  | lookup
  /-- The first loop of `dirlink`, called from `sys_link`. -/
  | link (inum : Nat)
  | create
  /-- The first loop of `dirlink`, called at the end of `create`. -/
  | made (inum : Nat)
  | unlink
  deriving DecidableEq, Repr

inductive DirPlace
  | out
  /-- Before `ilock(dp)`. -/
  | want (task : DirTask) (name : List UInt8)
  /-- In `dirlookup`, at the test of the loop. -/
  | look (task : DirTask) (name : List UInt8) (off : Nat)
  /-- In `ialloc`, called from `create`. -/
  | alloc (name : List UInt8)
  /-- In the second loop of `dirlink`. -/
  | seek (name : List UInt8) (inum off : Nat)
  /-- Before `writei` in `dirlink`. -/
  | write (name : List UInt8) (inum off : Nat)
  /-- In `sys_unlink`, with the entry found. -/
  | judge (name : List UInt8) (off : Nat)
  /-- After `dirlookup` in `namex`, with what it has returned. -/
  | answer (name : List UInt8) (r : Option (Nat × UInt16))
  /-- Before `iunlock(dp)`. -/
  | leave
  | panic (p : FsPanic)
  deriving DecidableEq, Repr

inductive DirEvent
  | linked (name : List UInt8) (inum : Nat)
  | unlinked (name : List UInt8)
  deriving DecidableEq, Repr

def DirEvent.name : DirEvent → List UInt8
  | linked name _ => name
  | unlinked name => name

structure DirSys (n : Nat) where
  ents : List Dirent
  lock : Option (Fin n)
  place : Fin n → DirPlace
  done : List DirEvent

inductive DirAct (n : Nat)
  | lookup (i : Fin n) (name : List UInt8)
  | link (i : Fin n) (name : List UInt8) (inum : Nat)
  | create (i : Fin n) (name : List UInt8)
  | unlink (i : Fin n) (name : List UInt8)
  /-- `ialloc` returns. -/
  | alloc (i : Fin n) (inum : Nat)
  /-- `sys_unlink` has looked at the inode that the entry names. -/
  | judge (i : Fin n) (go : Bool)
  | run (i : Fin n)

/-- Where `dirlookup` leads if no entry matches. -/
def DirTask.miss (name : List UInt8) : DirTask → DirPlace
  | lookup => .answer name none
  | link inum => .seek name inum 0
  | create => .alloc name
  | made inum => .seek name inum 0
  | unlink => .leave

/-- Where `dirlookup` leads if the entry `de` at `off` matches. -/
def DirTask.hit (name : List UInt8) (off : Nat) (de : Dirent) : DirTask → DirPlace
  | lookup => .answer name (some (off, de.inum))
  | link _ => .leave
  | create => .leave
  | made _ => .panic .createDirlink
  | unlink => .judge name off

namespace DirSys

variable {n : Nat}

def at_ (s : DirSys n) (i : Fin n) (x : DirPlace) : DirSys n :=
  { s with place := Function.update s.place i x }

/-- A turn of the loop of `dirlookup`. -/
def lookTurn (ents : List Dirent) (task : DirTask) (name : List UInt8) (off : Nat) : DirPlace :=
  match ents[off]? with
  | none => task.miss name
  | some de =>
    if de.inum = 0 then .look task name (off + 1)
    else if namecmp name de.name.val = 0 then task.hit name off de
    else .look task name (off + 1)

/-- A turn of the second loop of `dirlink`. -/
def seekTurn (ents : List Dirent) (name : List UInt8) (inum off : Nat) : DirPlace :=
  match ents[off]? with
  | none => .write name inum off
  | some de => if de.inum = 0 then .write name inum off else .seek name inum (off + 1)

/-- Cannot unlink "." or "..". -/
def enter (task : DirTask) (name : List UInt8) : DirPlace :=
  if task = .unlink ∧ (namecmp name dot = 0 ∨ namecmp name dotdot = 0) then .leave
  else .look task name 0

def change (s : DirSys n) (i : Fin n) (off : Nat) (de : Dirent) (e : DirEvent) : DirSys n :=
  { s with ents := put s.ents off de, done := e :: s.done }.at_ i .leave

/-- The next step of a process; `none` if it is in no call, waits, or has panicked. -/
def run (i : Fin n) (s : DirSys n) : Option (DirSys n) :=
  match s.place i with
  | .out | .alloc _ | .judge _ _ | .panic _ => none
  | .want task name =>
    if s.lock = none then some ({ s with lock := some i }.at_ i (enter task name)) else none
  | .look task name off => some (s.at_ i (lookTurn s.ents task name off))
  | .seek name inum off => some (s.at_ i (seekTurn s.ents name inum off))
  | .write name inum off =>
    if maxEntries < off + 1 then some (s.at_ i (.panic .dirlink))
    else some (s.change i off (.mk_ name inum) (.linked name inum))
  | .answer _ _ | .leave => some ({ s with lock := none }.at_ i .out)

def call (i : Fin n) (task : DirTask) (name : List UInt8) (s : DirSys n) : Option (DirSys n) :=
  if s.place i = .out then some (s.at_ i (.want task name)) else none

def act (ninodes : Nat) (s : DirSys n) : DirAct n → Option (DirSys n)
  | .lookup i name => s.call i .lookup name
  | .link i name inum => if IsInode ninodes inum then s.call i (.link inum) name else none
  | .create i name => s.call i .create name
  | .unlink i name => s.call i .unlink name
  | .alloc i inum =>
    match s.place i with
    | .alloc name =>
      if IsInode ninodes inum then some (s.at_ i (.look (.made inum) name 0)) else none
    | _ => none
  | .judge i go =>
    match s.place i with
    | .judge name off =>
      if !go then some (s.at_ i .leave)
      else if maxEntries < off + 1 then some (s.at_ i (.panic .unlinkWritei))
      else some (s.change i off .zero (.unlinked name))
    | _ => none
  | .run i => s.run i

def Step (ninodes : Nat) (s : DirSys n) (a : DirAct n) (s' : DirSys n) : Prop :=
  s.act ninodes a = some s'

/-- Nobody is at work in the directory. -/
def init (n : Nat) (ents : List Dirent) : DirSys n := ⟨ents, none, fun _ => .out, []⟩

end DirSys

end RandomRepo.Xv6

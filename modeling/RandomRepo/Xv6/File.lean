import RandomRepo.Xv6.Kalloc

/-!
`file.c` and the allocation and closing of pipes in `pipe.c`.

A pipe lives in a page of its own and is named by it; `pipe p` is the pipe in
page `p`, if there is one.  Its ring buffer plays no part here.  An inode is
named by its number; what `fileclose` does for it touches the file system only.
-/

namespace RandomRepo.Xv6

inductive FileType
  | fdNone | fdPipe | fdInode
  deriving DecidableEq, Repr

structure File where
  type : FileType
  ref : Nat
  readable : Bool
  writable : Bool
  pipe : Nat
  ip : Nat
  deriving DecidableEq, Repr

structure Pipe where
  readopen : Bool
  writeopen : Bool
  deriving DecidableEq, Repr

/-- The file table and the pipes. -/
structure Files where
  file : Nat → File
  pipe : Nat → Option Pipe

def Files.setFile (fs : Files) (f : Nat) (x : File) : Files :=
  { fs with file := Function.update fs.file f x }

def Files.setPipe (fs : Files) (p : Nat) (x : Option Pipe) : Files :=
  { fs with pipe := Function.update fs.pipe p x }

def filealloc (fs : Files) : Option (Nat × Files) :=
  match (List.range nfile).find? fun f => (fs.file f).ref = 0 with
  | none => none
  | some f => some (f, fs.setFile f { fs.file f with ref := 1 })

def filedup (f : Nat) (fs : Files) : Except Halt Files :=
  if (fs.file f).ref < 1 then .error (.panic .filedup)
  else .ok (fs.setFile f { fs.file f with ref := (fs.file f).ref + 1 })

def Pipe.close (q : Pipe) (writable : Bool) : Pipe :=
  if writable then { q with writeopen := false } else { q with readopen := false }

/-- Closing one end; the page of a pipe without ends is freed. -/
def pipeclose (L : Layout) (p : Nat) (writable : Bool) (fs : Files) (m : Kmem) :
    Except Halt (Files × Kmem) :=
  match fs.pipe p with
  | none => .error .null
  | some q =>
    let q := q.close writable
    if !q.readopen && !q.writeopen then do
      let m ← kfree L p m
      .ok (fs.setPipe p none, m)
    else .ok (fs.setPipe p (some q), m)

/-- The part of `fileclose` under the lock of the table: one reference less.  The file is
returned if this was the last one. -/
def dropRef (f : Nat) (fs : Files) : Except Halt (Option File × Files) :=
  let ff := fs.file f
  if ff.ref < 1 then .error (.panic .fileclose)
  else if 0 < ff.ref - 1 then .ok (none, fs.setFile f { ff with ref := ff.ref - 1 })
  else .ok (some ff, fs.setFile f { ff with ref := 0, type := .fdNone })

def fileclose (L : Layout) (f : Nat) (fs : Files) (m : Kmem) : Except Halt (Files × Kmem) := do
  let (last, fs) ← dropRef f fs
  match last with
  | none => .ok (fs, m)
  | some ff =>
    if ff.type = .fdPipe then pipeclose L ff.pipe ff.writable fs m
    else .ok (fs, m)

/-- The two files, read end first. -/
def pipealloc (L : Layout) (fs : Files) (m : Kmem) :
    Except Halt (Option (Nat × Nat) × Files × Kmem) :=
  match filealloc fs with
  | none => .ok (none, fs, m)
  | some (f0, fs) =>
    match filealloc fs with
    | none => do
      let (fs, m) ← fileclose L f0 fs m
      .ok (none, fs, m)
    | some (f1, fs) =>
      match kalloc m with
      | (none, m) => do
        let (fs, m) ← fileclose L f0 fs m
        let (fs, m) ← fileclose L f1 fs m
        .ok (none, fs, m)
      | (some p, m) =>
        let fs := fs.setPipe p (some ⟨true, true⟩)
        let fs := fs.setFile f0
          { fs.file f0 with type := .fdPipe, readable := true, writable := false, pipe := p }
        let fs := fs.setFile f1
          { fs.file f1 with type := .fdPipe, readable := false, writable := true, pipe := p }
        .ok (some (f0, f1), fs, m)

end RandomRepo.Xv6

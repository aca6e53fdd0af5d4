import RandomRepo.Xv6.Proc

/-!
`exec.c`.  The file is the content of the inode `namei` finds for the path, or
`none` if there is none; it is a regular file or a directory (a device has no
content).  The argument strings are given without their NUL.
-/

namespace RandomRepo.Xv6

/-- The fields of `struct elfhdr` that `exec` reads. -/
structure Elfhdr where
  magic : Nat
  entry : Nat
  phoff : Nat
  phnum : Nat

/-- The fields of `struct proghdr` that `exec` reads. -/
structure Proghdr where
  type : Nat
  off : Nat
  vaddr : Nat
  filesz : Nat
  memsz : Nat

def elfMagic : Nat := 0x464C457F
def elfProgLoad : Nat := 1
def elfhdrSize : Nat := 52
def proghdrSize : Nat := 32

/-- The little-endian number in the `n` bytes from `i` on. -/
def bytesToNat (bytes : List UInt8) (i n : Nat) : Nat :=
  ((bytes.drop i).take n).foldr (fun b acc => b.toNat + 256 * acc) 0

/-- A `readi` of exactly `n` bytes. -/
def readExact (ip : List UInt8) (off n : Nat) : Option (List UInt8) :=
  (readi ip off n).filter fun bytes => bytes.length = n

def readElfhdr (ip : List UInt8) : Option Elfhdr :=
  (readExact ip 0 elfhdrSize).map fun b =>
    { magic := bytesToNat b 0 4, entry := bytesToNat b 24 4, phoff := bytesToNat b 28 4,
      phnum := bytesToNat b 44 2 }

def readProghdr (ip : List UInt8) (off : Nat) : Option Proghdr :=
  (readExact ip off proghdrSize).map fun b =>
    { type := bytesToNat b 0 4, off := bytesToNat b 4 4, vaddr := bytesToNat b 8 4,
      filesz := bytesToNat b 16 4, memsz := bytesToNat b 20 4 }

/-- The loop over the program headers, with `n` of them left.  A result `none` is the jump
to `bad`. -/
def loadSegments (L : Layout) (ip : List UInt8) :
    Nat → Nat → Nat → Pgdir → Kmem → Except Halt (Option Nat × Pgdir × Kmem)
  | 0, _, sz, pd, m => .ok (some sz, pd, m)
  | n + 1, off, sz, pd, m =>
    match readProghdr ip off with
    | none => .ok (none, pd, m)
    | some ph =>
      if ph.type ≠ elfProgLoad then loadSegments L ip n (u32 (off + proghdrSize)) sz pd m
      else if ph.memsz < ph.filesz then .ok (none, pd, m)
      else if u32 (ph.vaddr + ph.memsz) < ph.vaddr then .ok (none, pd, m)
      else do
        let (sz, pd, m) ← allocuvm L pd sz (u32 (ph.vaddr + ph.memsz)) m
        if sz = 0 then .ok (none, pd, m)
        else if ph.vaddr % pgsize ≠ 0 then .ok (none, pd, m)
        else do
          let (ok, m) ← loaduvm pd ph.vaddr ip ph.off ph.filesz m
          if ok then loadSegments L ip n (u32 (off + proghdrSize)) sz pd m
          else .ok (none, pd, m)

/-- The loop that pushes the argument strings; `argc` of them are on the stack already, at
the addresses `ustack`. -/
def pushArgs (null : Kmem → Except Halt Unit) (pd : Pgdir) :
    List (List UInt8) → Nat → Nat → List Nat → Kmem → Except Halt (Option (Nat × List Nat) × Kmem)
  | [], _, sp, ustack, m => .ok (some (sp, ustack), m)
  | arg :: args, argc, sp, ustack, m =>
    if maxarg ≤ argc then .ok (none, m)
    else do
      let sp := usub sp (arg.length + 1) / 4 * 4
      let (ok, m) ← copyoutWith null pd sp (arg ++ [0]) m
      if ok then pushArgs null pd args (argc + 1) sp (ustack ++ [sp]) m
      else .ok (none, m)

/-- The four bytes of a word. -/
def wordBytes (w : Nat) : List UInt8 :=
  [w.toUInt8, (w / 256).toUInt8, (w / 65536).toUInt8, (w / 16777216).toUInt8]

/-- Push the strings, then the fake return address, `argc`, the `argv` pointer and the
pointers themselves. -/
def pushStack (null : Kmem → Except Halt Unit) (pd : Pgdir) (argv : List (List UInt8)) (sz : Nat)
    (m : Kmem) : Except Halt (Option Nat × Kmem) := do
  let (pushed, m) ← pushArgs null pd argv 0 sz [] m
  match pushed with
  | none => .ok (none, m)
  | some (sp, strings) =>
    let argc := strings.length
    let ustack := [0xFFFFFFFF, argc, usub sp ((argc + 1) * 4)] ++ strings ++ [0]
    let sp := usub sp ((3 + argc + 1) * 4)
    let (ok, m) ← copyoutWith null pd sp (ustack.flatMap wordBytes) m
    .ok (if ok then some sp else none, m)

/-- Everything between `setupkvm` and the commit; `none` is the jump to `bad`. -/
def buildImage (L : Layout) (null : Kmem → Except Halt Unit) (ip : List UInt8) (elf : Elfhdr)
    (argv : List (List UInt8)) (pd : Pgdir) (m : Kmem) :
    Except Halt (Option (Nat × Nat) × Pgdir × Kmem) := do
  let (loaded, pd, m) ← loadSegments L ip elf.phnum elf.phoff 0 pd m
  match loaded with
  | none => .ok (none, pd, m)
  | some sz => do
    -- Allocate two pages at the next page boundary; make the first inaccessible.
    let sz := pgroundup sz
    let (sz, pd, m) ← allocuvm L pd sz (u32 (sz + 2 * pgsize)) m
    if sz = 0 then .ok (none, pd, m)
    else do
      let (pd, m) ← clearpteu pd (usub sz (2 * pgsize)) m
      let (stack, m) ← pushStack null pd argv sz m
      .ok (stack.map fun sp => (sz, sp), pd, m)

/-- The part of a path after its last `/`. -/
def lastElem (path : List UInt8) : List UInt8 :=
  (path.reverse.takeWhile fun c => c ≠ 47).reverse

def freevmPtr (L : Layout) (pgdir : Option Pgdir) (m : Kmem) : Except Halt Kmem :=
  match pgdir with
  | none => .error (.panic .freevmNoPgdir)
  | some pd => freevm L pd m

/-- The word at address 0 of a process. -/
def Proc.firstWord (p : Proc) (m : Kmem) : Option Nat :=
  (p.pgdir.bind fun pd => pd.pte 0).map fun e =>
    bytesToNat ((List.range 4).map (m.data e.ppn)) 0 4

/-- What comes of it if `uva2ka` reads an entry through a null pointer in the `exec` of process `p`.
It finds the first word of the process, which `exec` does not change, so that it can be read in
the memory `m₀` at the start.  With `PTE_P` and `PTE_U` this word names a page, and `copyout`
writes to it: where the kernel may not write this is a page fault.  If there is no page 0, and if
the write or the fault goes through, we do not follow the null pointer. -/
def nullEntry (L : Layout) (p : Proc) (m₀ m : Kmem) : Except Halt Unit :=
  match p.pgdir, p.firstWord m₀ with
  | some pd, some w =>
    if w % 2 = 0 ∨ w / 4 % 2 = 0 then .ok ()
    else
      let ka := p2v (w / pgsize * pgsize)
      match pd.pte ka with
      | some ⟨_, false, _⟩ => do
        let _ ← pageFaultHandler L pd ka m
        .error .null
      | _ => .error .null
  | _, _ => .error .null

/-- The result says whether 0 is returned. -/
def exec (L : Layout) (file : Option (List UInt8)) (path : List UInt8) (argv : List (List UInt8))
    (p : Proc) (m : Kmem) : Except Halt (Bool × Proc × Kmem) :=
  match file with
  | none => .ok (false, p, m)
  | some ip =>
    match readElfhdr ip with
    | none => .ok (false, p, m)
    | some elf =>
      if elf.magic ≠ elfMagic then .ok (false, p, m)
      else do
        let (pgdir, m₁) ← setupkvm L m
        match pgdir with
        | none => .ok (false, p, m₁)
        | some pd => do
          let (image, pd, m) ← buildImage L (nullEntry L p m) ip elf argv pd m₁
          match image with
          | none => do
            let m ← freevm L pd m
            .ok (false, p, m)
          | some (sz, sp) => do
            -- Commit to the user image.
            let oldpgdir := p.pgdir
            let tf := { p.tf with eip := elf.entry, esp := sp }
            let name := (lastElem path).take 15
            let p := { p with name := name, pgdir := some pd, sz := sz, tf := tf }
            switchuvm p
            let m ← freevmPtr L oldpgdir m
            .ok (true, p, m)

end RandomRepo.Xv6

import RandomRepo.Lib.Run
import RandomRepo.Lib.Words
import RandomRepo.Lib.Cover
import RandomRepo.Lib.Fuel
import RandomRepo.Xv6.Mmu

/-!
The allocator of user programs (umalloc.c).

The memory of the process is a function from addresses to bytes.  A header is two words
of it, the pointer to the next free block and the size in units of a header, and
pointers to headers are the addresses of their first byte, with the pointer arithmetic
and the comparisons of the source.  The static header `base` stands at some address of
the data segment; the variable `freep` is kept beside the memory.

What `sbrk` will answer is part of the state, as is the list of the regions it has
granted.  The loops of `free` and `malloc` have fuel.
-/

namespace RandomRepo.Xv6

namespace Heap

/-- Some units of memory with the header at `addr` in front. -/
structure Block where
  addr : Nat
  units : Nat
deriving DecidableEq

/-- The first byte behind the block. -/
def Block.stop (b : Block) : Nat := b.addr + 8 * b.units

/-- The byte belongs to the block, its header included. -/
def Block.covers (b : Block) (y : Nat) : Bool := decide (b.addr ≤ y) && decide (y < b.stop)

theorem Block.covers_iff {b : Block} {y : Nat} : b.covers y = true ↔ b.addr ≤ y ∧ y < b.stop := by
  simp [covers]

theorem Block.covers_toNat {b : Block} {y : Nat} :
    (b.covers y).toNat = if b.addr ≤ y ∧ y < b.stop then 1 else 0 := by
  split_ifs with inside
  · rw [covers_iff.mpr inside]
    rfl
  · rw [Bool.eq_false_iff.mpr (mt covers_iff.mp inside)]
    rfl

abbrev Memory := Nat → UInt8

/-- The field `s.ptr` of the header at `p`. -/
def ptr (m : Memory) (p : Nat) : Nat := readWord m p

/-- The field `s.size` of the header at `p`. -/
def size (m : Memory) (p : Nat) : Nat := readWord m (p + 4)

def setPtr (m : Memory) (p v : Nat) : Memory := writeWord m p v

def setSize (m : Memory) (p v : Nat) : Memory := writeWord m (p + 4) v

end Heap

/-- The memory and the static variables of the allocator, and what `sbrk` knows. -/
structure Heap where
  mem : Heap.Memory
  freep : Nat
  answers : List (Option Nat)
  regions : List Heap.Block

namespace Heap

/-- The loop of `free` that looks for the block behind which `bp` belongs. -/
def freeSearch (m : Memory) (bp : Nat) : Nat → Nat → Option Nat
  | 0, _ => none
  | fuel + 1, p =>
    if p < bp ∧ bp < ptr m p then some p
    else if ptr m p ≤ p ∧ (p < bp ∨ bp < ptr m p) then some p
    else freeSearch m bp fuel (ptr m p)

/-- The assignments of `free` that put `bp` behind `p` and merge it with its neighbours. -/
def link (m : Memory) (bp p : Nat) : Memory :=
  let m :=
    if u32 (bp + 8 * size m bp) = ptr m p then
      let m := setSize m bp (u32 (size m bp + size m (ptr m p)))
      setPtr m bp (ptr m (ptr m p))
    else setPtr m bp (ptr m p)
  if u32 (p + 8 * size m p) = bp then
    let m := setSize m p (u32 (size m p + size m bp))
    setPtr m p (ptr m bp)
  else setPtr m p bp

def free (fuel : Nat) (h : Heap) (ap : Nat) : Option Heap :=
  let bp := ap - 8
  (freeSearch h.mem bp fuel h.freep).map fun p => { h with mem := link h.mem bp p, freep := p }

/-- Ask for `nu` units: the next answer, which is `none` for `(char*)-1`. -/
def sbrk (h : Heap) (nu : Nat) : Option (Option Nat × Heap) :=
  match h.answers with
  | [] => none
  | none :: rest => some (none, { h with answers := rest })
  | some p :: rest => some (some p, { h with answers := rest, regions := ⟨p, nu⟩ :: h.regions })

/-- The units that `morecore` asks for. -/
def coreUnits (nu : Nat) : Nat := if nu < 4096 then 4096 else nu

/-- A null pointer is 0. -/
def morecore (fuel : Nat) (h : Heap) (nu : Nat) : Option (Nat × Heap) :=
  let nu := coreUnits nu
  (sbrk h nu).bind fun (p, h) =>
    match p with
    | none => some (0, h)
    | some p =>
      let h := { h with mem := setSize h.mem p nu }
      (free fuel h (p + 8)).map fun h => (h.freep, h)

/-- The block at `p` is large enough: take all of it or its tail. -/
def take (h : Heap) (nunits prevp p : Nat) : Nat × Heap :=
  if size h.mem p = nunits then
    (p + 8, { h with mem := setPtr h.mem prevp (ptr h.mem p), freep := prevp })
  else
    let m := setSize h.mem p (size h.mem p - nunits)
    let p := u32 (p + 8 * size m p)
    (p + 8, { h with mem := setSize m p nunits, freep := prevp })

/-- The loop of `malloc`. -/
def mallocLoop (nunits : Nat) : Nat → Heap → Nat → Nat → Option (Nat × Heap)
  | 0, _, _, _ => none
  | fuel + 1, h, prevp, p =>
    if nunits ≤ size h.mem p then some (take h nunits prevp p)
    else if p = h.freep then
      (morecore fuel h nunits).bind fun (p, h) =>
        if p = 0 then some (0, h) else mallocLoop nunits fuel h p (ptr h.mem p)
    else mallocLoop nunits fuel h p (ptr h.mem p)

/-- The units for `nbytes` bytes and the header. -/
def unitsFor (nbytes : Nat) : Nat := u32 (nbytes + 7) / 8 + 1

/-- The first call makes `base` a free list of its own. -/
def init (base : Nat) (h : Heap) : Heap :=
  if h.freep = 0 then
    { h with mem := setSize (setPtr h.mem base base) base 0, freep := base }
  else h

def malloc (base fuel : Nat) (h : Heap) (nbytes : Nat) : Option (Nat × Heap) :=
  let nunits := unitsFor nbytes
  let h := init base h
  mallocLoop nunits fuel h h.freep (ptr h.mem h.freep)

/-! ## Headers in memory -/

section Header

variable {m m' : Memory} {p q v : Nat}

/-- Two headers have no byte in common. -/
def Apart (p q : Nat) : Prop := p + 8 ≤ q ∨ q + 8 ≤ p

theorem Apart.symm (apart : Apart p q) : Apart q p := Or.symm apart

@[simp] theorem ptr_setSize : ptr (setSize m p v) p = ptr m p :=
  readWord_writeWord_of_apart (.inr (by omega))

@[simp] theorem size_setPtr : size (setPtr m p v) p = size m p :=
  readWord_writeWord_of_apart (.inl (by omega))

theorem ptr_setPtr (fits : v < 4294967296) : ptr (setPtr m p v) p = v := readWord_writeWord fits

theorem size_setSize (fits : v < 4294967296) : size (setSize m p v) p = v := readWord_writeWord fits

theorem ptr_lt : ptr m p < 4294967296 := readWord_lt

/-- The memories agree on the header at `p`. -/
def SameHeader (m m' : Memory) (p : Nat) : Prop := ∀ x, p ≤ x → x < p + 8 → m' x = m x

theorem SameHeader.ptr (same : SameHeader m m' p) : ptr m' p = ptr m p :=
  readWord_congr fun x low high => same x low (by omega)

theorem SameHeader.size (same : SameHeader m m' p) : size m' p = size m p :=
  readWord_congr fun x low high => same x (by omega) (by omega)

theorem SameHeader.trans {m'' : Memory} (first : SameHeader m m' p) (second : SameHeader m' m'' p) :
    SameHeader m m'' p :=
  fun x low high => (second x low high).trans (first x low high)

theorem sameHeader_setPtr (apart : Apart q p) : SameHeader m (setPtr m q v) p := by
  unfold Apart at apart
  exact fun x low high => writeWord_of_out (by omega)

theorem sameHeader_setSize (apart : Apart q p) : SameHeader m (setSize m q v) p := by
  unfold Apart at apart
  exact fun x low high => writeWord_of_out (by omega)

end Header

/-! ## Linked blocks -/

section Linked

variable {m m' : Memory} {z : Nat} {b c : Block} {L xs ys : List Block}

/-- The address of the first block, or `z`. -/
def first (z : Nat) : List Block → Nat
  | [] => z
  | b :: _ => b.addr

/-- The headers of the blocks hold their sizes and lead from each block to the next one and from
the last one to `z`. -/
def Linked (m : Memory) (z : Nat) : List Block → Prop
  | [] => True
  | b :: bs => (size m b.addr = b.units ∧ ptr m b.addr = first z bs) ∧ Linked m z bs

theorem linked_append :
    Linked m z (xs ++ ys) ↔ Linked m (first z ys) xs ∧ Linked m z ys := by
  induction xs with
  | nil => exact (and_iff_right trivial).symm
  | cons b xs ih =>
    have next : first z (xs ++ ys) = first (first z ys) xs := by cases xs <;> rfl
    rw [List.cons_append, Linked, Linked, ih, next]
    exact and_assoc.symm

theorem Linked.congr (linked : Linked m z L) (same : ∀ b ∈ L, SameHeader m m' b.addr) :
    Linked m' z L := by
  induction L with
  | nil => trivial
  | cons b bs ih =>
    have here := same b List.mem_cons_self
    refine ⟨⟨here.size.trans linked.1.1, here.ptr.trans linked.1.2⟩, ?_⟩
    exact ih linked.2 fun c member => same c (List.mem_cons_of_mem _ member)

theorem Linked.size_of_mem (linked : Linked m z L) (member : b ∈ L) : size m b.addr = b.units := by
  induction L with
  | nil => cases member
  | cons c cs ih =>
    cases member with
    | head => exact linked.1.1
    | tail _ member => exact ih linked.2 member

/-- A pointer leads to a later block or to the end. -/
theorem Linked.succ {R : Block → Block → Prop} (linked : Linked m z L) (order : L.Pairwise R)
    (member : b ∈ L) : ptr m b.addr = z ∨ ∃ c ∈ L, R b c ∧ ptr m b.addr = c.addr := by
  induction L with
  | nil => cases member
  | cons d ds ih =>
    rw [List.pairwise_cons] at order
    cases member with
    | head =>
      cases ds with
      | nil => exact .inl linked.1.2
      | cons e es =>
        exact .inr ⟨e, List.mem_cons_of_mem _ List.mem_cons_self,
          order.1 e List.mem_cons_self, linked.1.2⟩
    | tail _ member =>
      rcases ih linked.2 order.2 member with last | ⟨c, later, related, next⟩
      · exact .inl last
      · exact .inr ⟨c, List.mem_cons_of_mem _ later, related, next⟩

end Linked

end Heap

end RandomRepo.Xv6

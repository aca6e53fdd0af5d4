import RandomRepo.Lib.Outcome
import RandomRepo.Xv6.Mmu
import Mathlib.Logic.Function.Basic

/-!
`kalloc.c`: the physical page allocator.

A page is named by its physical page number; its kernel address is
`p2v (p * pgsize)`.  `freelist` is the chain through `run.next`, first page
first.  Two history variables record what the code itself does not keep: `oom`
that some `kalloc` has returned 0, `twice` that some `kfree` was handed a page
that was already free.  No function reads them.
-/

namespace RandomRepo.Xv6

/-- The `panic` calls of the modelled kernel code, by their message. -/
inductive Panic
  | remap | kfree | freevmNoPgdir | phystopTooHigh | inituvm | userinitOutOfMemory
  | loaduvmAlign | loaduvmExist | clearpteu | copyuvmPte | copyuvmPresent
  | switchuvmKstack | switchuvmPgdir | filedup | fileclose | initExiting
  | tooBigTransaction | logWriteOutside | logCommitting
  deriving DecidableEq, Repr

/-- Why a kernel function does not return: it panics, it loops for ever, or it
dereferences a null pointer. -/
inductive Halt
  | panic (p : Panic)
  | hang
  | null
  deriving DecidableEq, Repr

/-- The two addresses the linker script provides.  The kernel is linked at
`kernlink`, its data section starts on a page boundary above a non-empty text,
and the whole image leaves the allocator at least 128 pages of the four
megabytes that `kinit1` hands out. -/
structure Layout where
  data : Nat
  end_ : Nat
  data_gt : kernlink < data
  data_aligned : data % pgsize = 0
  data_le : data ≤ end_
  end_le : end_ ≤ kernbase + 0x380000

/-- The addresses of `kernel.sym`. -/
def kernelSym : Layout where
  data := 0x80108000
  end_ := 0x801154a8
  data_gt := by decide
  data_aligned := by decide
  data_le := by decide
  end_le := by decide

/-- The bytes of a page. -/
abbrev PageData := Nat → UInt8

structure Kmem where
  freelist : List Nat
  data : Nat → PageData
  oom : Bool
  twice : Bool

/-- Kernel address of a physical page. -/
def kva (p : Nat) : Nat := p2v (p * pgsize)

/-- `memset` of a whole page. -/
def Kmem.memset (m : Kmem) (p : Nat) (c : UInt8) : Kmem :=
  { m with data := Function.update m.data p fun _ => c }

/-- `memmove` of a whole page. -/
def Kmem.copyPage (m : Kmem) (dst src : Nat) : Kmem :=
  { m with data := Function.update m.data dst (m.data src) }

/-- `memmove` of `bytes` into page `p` from offset `off` on. -/
def Kmem.write (m : Kmem) (p off : Nat) (bytes : List UInt8) : Kmem :=
  { m with data := Function.update m.data p fun i =>
      if off ≤ i ∧ i < off + bytes.length then bytes.getD (i - off) 0
      else m.data p i }

theorem Kmem.write_inside {m : Kmem} {p off i : Nat} {bytes : List UInt8} (inside : i < bytes.length) :
    (m.write p off bytes).data p (off + i) = bytes.getD i 0 := by
  simp only [Kmem.write, Function.update_self]
  rw [if_pos (by omega), Nat.add_sub_cancel_left]

theorem Kmem.write_outside {m : Kmem} {p off q o : Nat} {bytes : List UInt8}
    (outside : q = p → ¬ (off ≤ o ∧ o < off + bytes.length)) :
    (m.write p off bytes).data q o = m.data q o := by
  by_cases page : q = p
  · subst page
    simp only [Kmem.write, Function.update_self]
    rw [if_neg (outside rfl)]
  · simp only [Kmem.write]
    rw [Function.update_of_ne page]

def kalloc (m : Kmem) : Option Nat × Kmem :=
  match m.freelist with
  | [] => (none, { m with oom := true })
  | r :: rs => (some r, { m with freelist := rs })

/-- A page address is a multiple of `pgsize`, so the first of the three tests of
the source never fires. -/
def kfree (L : Layout) (p : Nat) (m : Kmem) : Except Halt Kmem :=
  if kva p < L.end_ ∨ phystop ≤ p * pgsize then .error (.panic .kfree)
  else
    -- Fill with junk to catch dangling refs.
    let m := { m with twice := m.twice || m.freelist.contains p }
    let m := m.memset p 1
    .ok { m with freelist := p :: m.freelist }

/-- The loop of `freerange`, `p` being the next kernel address to free. -/
def freeLoop (L : Layout) (vend p : Nat) (m : Kmem) : Except Halt Kmem :=
  if p + pgsize ≤ vend then do
    let m ← kfree L (v2p p / pgsize) m
    freeLoop L vend (p + pgsize) m
  else .ok m
  termination_by vend - p
  decreasing_by simp only [pgsize] at *; omega

def freerange (L : Layout) (vstart vend : Nat) (m : Kmem) : Except Halt Kmem :=
  freeLoop L vend (pgroundup vstart) m

/-- The pages `kfree` accepts: between the end of the kernel image and the top of
physical memory. -/
def Layout.InRam (L : Layout) (p : Nat) : Prop :=
  L.end_ ≤ kva p ∧ p * pgsize < phystop

theorem kfree_ok {L : Layout} {p : Nat} {m : Kmem} (ram : L.InRam p) :
    kfree L p m = .ok
      { freelist := p :: m.freelist
        data := Function.update m.data p fun _ => 1
        oom := m.oom
        twice := m.twice || m.freelist.contains p } := by
  obtain ⟨low, high⟩ := ram
  rw [kfree, if_neg (by omega)]
  rfl

theorem kfree_error {L : Layout} {p : Nat} {m : Kmem} (outside : ¬ L.InRam p) :
    kfree L p m = .error (.panic .kfree) := by
  rw [kfree, if_pos]
  by_contra accepted
  refine outside ⟨Nat.not_lt.mp fun low => accepted (.inl low), ?_⟩
  exact Nat.not_le.mp fun high => accepted (.inr high)

theorem kfree_eq_ok {L : Layout} {p : Nat} {m m' : Kmem} (h : kfree L p m = .ok m') :
    L.InRam p ∧ m' =
      { freelist := p :: m.freelist
        data := Function.update m.data p fun _ => 1
        oom := m.oom
        twice := m.twice || m.freelist.contains p } := by
  by_cases ram : kva p < L.end_ ∨ phystop ≤ p * pgsize
  · rw [kfree, if_pos ram] at h
    cases h
  · have inRam : L.InRam p := by unfold Layout.InRam; omega
    rw [kfree_ok inRam] at h
    cases h
    exact ⟨inRam, rfl⟩

/-- The two outcomes of `kalloc`. -/
theorem kalloc_cases {m m' : Kmem} {r : Option Nat} (h : kalloc m = (r, m')) :
    (m.freelist = [] ∧ r = none ∧ m' = { m with oom := true }) ∨
      ∃ p rest, m.freelist = p :: rest ∧ r = some p ∧
        m' = { m with freelist := rest } := by
  unfold kalloc at h
  cases free : m.freelist with
  | nil =>
    rw [free] at h
    cases h
    exact .inl ⟨rfl, rfl, rfl⟩
  | cons p rest =>
    rw [free] at h
    cases h
    exact .inr ⟨p, rest, rfl, rfl, rfl⟩

end RandomRepo.Xv6

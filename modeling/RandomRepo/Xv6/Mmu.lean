import Mathlib.Logic.Basic

/-!
The constants of `param.h` and `memlayout.h` and the address arithmetic of
`mmu.h`.

A `uint` is a natural number; `u32` is the reduction every 32-bit operation of
the source performs.  Pages, virtual and physical, are named by their page
number (address divided by `pgsize`).
-/

namespace RandomRepo.Xv6

/-- Reduction to a 32-bit `uint`. -/
def u32 (n : Nat) : Nat := n % 4294967296

/-- The `uint` difference `a - b`. -/
def usub (a b : Nat) : Nat := u32 (a + (4294967296 - u32 b))

/-- A `uint` plus an `int`, as C converts the latter. -/
def uaddInt (a : Nat) (n : Int) : Nat := ((a + n) % 4294967296).toNat

/-- The range of a C `int`. -/
def IsInt (n : Int) : Prop := -2147483648 ≤ n ∧ n < 2147483648

def pgsize : Nat := 4096

-- Irreducible, so that no definitional unfolding ever enumerates a range of them.
@[irreducible] def npdentries : Nat := 1024

def extmem : Nat := 0x100000
def phystop : Nat := 0xE000000
def devspace : Nat := 0xFE000000
def kernbase : Nat := 0x80000000
def kernlink : Nat := kernbase + extmem

def nproc : Nat := 64
def nofile : Nat := 16
def nfile : Nat := 100
def maxarg : Nat := 32

def v2p (a : Nat) : Nat := usub a kernbase
def p2v (a : Nat) : Nat := u32 (a + kernbase)

/-- Page directory index of a virtual address. -/
def pdx (va : Nat) : Nat := (va >>> 22) &&& 0x3FF

/-- Page table index of a virtual address. -/
def ptx (va : Nat) : Nat := (va >>> 12) &&& 0x3FF

def pgaddr (d t o : Nat) : Nat := u32 ((d <<< 22) ||| (t <<< 12) ||| o)

def pgroundup (sz : Nat) : Nat := u32 (sz + pgsize - 1) / pgsize * pgsize
def pgrounddown (a : Nat) : Nat := a / pgsize * pgsize

/-- Number of the page that holds the byte at `va`. -/
def vpn (va : Nat) : Nat := va / pgsize

/-- Number of the first page of the kernel half. -/
def kernPage : Nat := 524288

/-- Number of pages of the 32-bit address space. -/
@[irreducible] def vpages : Nat := 1048576

theorem npdentries_eq : npdentries = 1024 := by
  unfold npdentries
  rfl

theorem vpages_eq : vpages = 1048576 := by
  unfold vpages
  rfl

theorem u32_lt (n : Nat) : u32 n < 4294967296 :=
  Nat.mod_lt _ (by decide)

theorem u32_of_lt {n : Nat} (h : n < 4294967296) : u32 n = n :=
  Nat.mod_eq_of_lt h

theorem pdx_eq (va : Nat) : pdx va = va / 4194304 % 1024 := by
  unfold pdx
  rw [Nat.shiftRight_eq_div_pow]
  exact Nat.and_two_pow_sub_one_eq_mod _ 10

theorem ptx_eq (va : Nat) : ptx va = va / 4096 % 1024 := by
  unfold ptx
  rw [Nat.shiftRight_eq_div_pow]
  exact Nat.and_two_pow_sub_one_eq_mod _ 10

/-- The two indices of an address are the quotient and the remainder of its
page number. -/
theorem pdx_vpn {va : Nat} (h : va < 4294967296) : pdx va = vpn va / 1024 := by
  rw [pdx_eq, vpn, pgsize]
  omega

theorem ptx_vpn (va : Nat) : ptx va = vpn va % 1024 :=
  ptx_eq va

theorem vpn_lt {va : Nat} (h : va < 4294967296) : vpn va < vpages := by
  simp only [vpn, pgsize, vpages_eq]
  omega

/-- The start of the next page table's region, as `deallocuvm` computes it. -/
theorem pgaddr_pd (d : Nat) : pgaddr d 0 0 = u32 (d * 4194304) := by
  simp [pgaddr, Nat.shiftLeft_eq]

theorem pgroundup_of_le {sz : Nat} (h : sz ≤ 4294963200) :
    pgroundup sz = (sz + 4095) / 4096 * 4096 := by
  simp only [pgroundup, u32, pgsize]
  omega

theorem pgrounddown_lt {a : Nat} (h : a < 4294967296) : pgrounddown a < 4294967296 :=
  Nat.lt_of_le_of_lt (Nat.div_mul_le_self _ _) h

theorem pgrounddown_aligned (a : Nat) : pgrounddown a % 4096 = 0 :=
  Nat.mul_mod_left _ _

theorem vpn_pgrounddown (a : Nat) : vpn (pgrounddown a) = vpn a :=
  Nat.mul_div_cancel _ (by decide)

theorem pdx_pgrounddown (a : Nat) : pdx (pgrounddown a) = pdx a := by
  rw [pdx_eq, pdx_eq, pgrounddown, pgsize]
  omega

theorem sub_pgrounddown (a : Nat) : a - pgrounddown a = a % pgsize := by
  simp only [pgrounddown, pgsize]
  omega

/-- Number of pages below `pgroundup sz`. -/
def npages (sz : Nat) : Nat := (sz + 4095) / 4096

theorem lt_npages {sz v : Nat} : v < npages sz ↔ v * 4096 < sz := by
  unfold npages
  omega

theorem pgroundup_eq {sz : Nat} (h : sz ≤ 4294963200) : pgroundup sz = npages sz * 4096 :=
  pgroundup_of_le h

theorem npages_le_kernPage {sz : Nat} (h : sz ≤ kernbase) : npages sz ≤ kernPage := by
  simp only [kernbase] at h
  simp only [npages, kernPage]
  omega

theorem vpn_pgroundup {sz : Nat} (h : sz ≤ 4294963200) : vpn (pgroundup sz) = npages sz := by
  rw [pgroundup_eq h, vpn, pgsize, Nat.mul_div_cancel _ (by decide)]

end RandomRepo.Xv6

import RandomRepo.Lib.RangeSum
import RandomRepo.Xv6.PageLedger

/-!
Page directories, `walkpgdir` and `mappages` of `vm.c`.

A page directory is the page it occupies and, for each index with a present
entry, a page table; a page table is its page and its 1024 entries.  A word
without `PTE_P` is `none`: the only such word the kernel ever writes is 0.
Directory entries always carry `PTE_P | PTE_W | PTE_U`, so their flags are not
kept.  `walkpgdir` returns a pointer into the table of its address; a model of
it returns whether there is one, and `pte` and `setPte` read and write through
it.
-/

namespace RandomRepo.Xv6

/-- A present page table entry: `PTE_ADDR` as a page number, `PTE_W`, `PTE_U`. -/
structure Pte where
  ppn : Nat
  w : Bool
  u : Bool
  deriving DecidableEq, Repr

structure PgTab where
  page : Nat
  pte : Nat → Option Pte

structure Pgdir where
  page : Nat
  pde : Nat → Option PgTab

/-- The `perm` argument of `mappages`. -/
structure Perm where
  w : Bool
  u : Bool
  deriving DecidableEq, Repr

/-- `PTE_W | PTE_U` -/
def permUser : Perm := ⟨true, true⟩

def Pte.perm (e : Pte) : Perm := ⟨e.w, e.u⟩

/-- The entry of virtual page `v`. -/
def Pgdir.lookup (pd : Pgdir) (v : Nat) : Option Pte :=
  (pd.pde (v / 1024)).bind fun t => t.pte (v % 1024)

/-- The word `walkpgdir`'s result points to, for the address `va`. -/
def Pgdir.pte (pd : Pgdir) (va : Nat) : Option Pte :=
  (pd.pde (pdx va)).bind fun t => t.pte (ptx va)

/-- A store through the pointer `walkpgdir` returns for `va`. -/
def Pgdir.setPte (pd : Pgdir) (va : Nat) (e : Option Pte) : Pgdir :=
  let tab := (pd.pde (pdx va)).map fun t => { t with pte := Function.update t.pte (ptx va) e }
  { pd with pde := Function.update pd.pde (pdx va) tab }

/-- The result says whether the returned pointer is non-null. -/
def walkpgdir (pd : Pgdir) (va : Nat) (alloc : Bool) (m : Kmem) : Bool × Pgdir × Kmem :=
  match pd.pde (pdx va) with
  | some _ => (true, pd, m)
  | none =>
    if !alloc then (false, pd, m)
    else
      match kalloc m with
      | (none, m) => (false, pd, m)
      | (some pgtab, m) =>
        -- Make sure all those PTE_P bits are zero.
        (true, { pd with pde := Function.update pd.pde (pdx va) (some ⟨pgtab, fun _ => none⟩) }, m)

/-- One turn of the loop of `mappages`. -/
def mapPage (pd : Pgdir) (a ppn : Nat) (perm : Perm) (m : Kmem) :
    Except Halt (Bool × Pgdir × Kmem) :=
  match walkpgdir pd a true m with
  | (false, pd, m) => .ok (false, pd, m)
  | (true, pd, m) =>
    if (pd.pte a).isSome then .error (.panic .remap)
    else .ok (true, pd.setPte a (some ⟨ppn, perm.w, perm.u⟩), m)

/-- The loop of `mappages` with `n` pages to go after this one, that is with
`a + n * pgsize = last` in 32-bit arithmetic. -/
def mapLoop (perm : Perm) : Nat → Nat → Nat → Pgdir → Kmem → Except Halt (Bool × Pgdir × Kmem)
  | 0, a, ppn, pd, m => mapPage pd a ppn perm m
  | n + 1, a, ppn, pd, m => do
    let (ok, pd, m) ← mapPage pd a ppn perm m
    if ok then mapLoop perm n (u32 (a + pgsize)) (u32 ((ppn + 1) * pgsize) / pgsize) pd m
    else .ok (false, pd, m)

/-- `pa` is given as a page number; the result says whether 0 is returned. -/
def mappages (pd : Pgdir) (va size ppn : Nat) (perm : Perm) (m : Kmem) :
    Except Halt (Bool × Pgdir × Kmem) :=
  let a := pgrounddown va
  let last := pgrounddown (usub (u32 (va + size)) 1)
  mapLoop perm (usub last a / pgsize) a ppn pd m

/-! ## Lookups -/

theorem Pgdir.pte_eq_lookup (pd : Pgdir) {va : Nat} (h : va < 4294967296) :
    pd.pte va = pd.lookup (vpn va) := by
  simp only [Pgdir.pte, Pgdir.lookup, pdx_vpn h, ptx_vpn]

/-- A present entry stands in a page table. -/
theorem Pgdir.table_of_lookup {pd : Pgdir} {v : Nat} {e : Pte} (h : pd.lookup v = some e) :
    (pd.pde (v / 1024)).isSome := by
  unfold Pgdir.lookup at h
  cases found : pd.pde (v / 1024) with
  | some t => rfl
  | none => rw [found] at h; cases h

/-- A store through the pointer for `va` changes the entry of its page only. -/
theorem Pgdir.lookup_setPte {pd : Pgdir} {va : Nat} {e : Option Pte} (h : va < 4294967296)
    (table : (pd.pde (pdx va)).isSome) (v : Nat) :
    (pd.setPte va e).lookup v = if v = vpn va then e else pd.lookup v := by
  obtain ⟨t, ht⟩ := Option.isSome_iff_exists.mp table
  simp only [Pgdir.lookup, Pgdir.setPte, ht, Option.map_some]
  by_cases dir : v / 1024 = pdx va
  · rw [dir, Function.update_self, ht]
    simp only [Option.bind_some]
    by_cases tab : v % 1024 = ptx va
    · have page : v = vpn va := by
        rw [pdx_vpn h] at dir
        rw [ptx_vpn] at tab
        omega
      rw [tab, Function.update_self, if_pos page]
    · have page : v ≠ vpn va := by
        rintro rfl
        exact tab (ptx_vpn va).symm
      rw [Function.update_of_ne tab, if_neg page]
  · have page : v ≠ vpn va := by
      rintro rfl
      exact dir (pdx_vpn h).symm
    rw [Function.update_of_ne dir, if_neg page]

/-- What `walkpgdir` does: nothing, or it adds an empty page table. -/
theorem walkpgdir_cases {pd pd' : Pgdir} {va : Nat} {alloc ok : Bool} {m m' : Kmem}
    (h : walkpgdir pd va alloc m = (ok, pd', m')) :
    (ok = true ∧ (pd.pde (pdx va)).isSome ∧ pd' = pd ∧ m' = m) ∨
      (ok = false ∧ pd.pde (pdx va) = none ∧ pd' = pd ∧
        ((alloc = false ∧ m' = m) ∨ (alloc = true ∧ kalloc m = (none, m')))) ∨
      ∃ p, ok = true ∧ alloc = true ∧ pd.pde (pdx va) = none ∧ kalloc m = (some p, m') ∧
        pd' = { pd with pde := Function.update pd.pde (pdx va) (some ⟨p, fun _ => none⟩) } := by
  unfold walkpgdir at h
  cases table : pd.pde (pdx va) with
  | some t =>
    rw [table] at h
    cases h
    exact .inl ⟨rfl, rfl, rfl, rfl⟩
  | none =>
    rw [table] at h
    cases alloc with
    | false =>
      cases h
      exact .inr (.inl ⟨rfl, rfl, rfl, .inl ⟨rfl, rfl⟩⟩)
    | true =>
      rcases page : kalloc m with ⟨_ | p, m₁⟩
      · simp only [page] at h
        cases h
        exact .inr (.inl ⟨rfl, rfl, rfl, .inr ⟨rfl, rfl⟩⟩)
      · simp only [page] at h
        cases h
        exact .inr (.inr ⟨p, rfl, rfl, rfl, rfl, rfl⟩)

end RandomRepo.Xv6

import RandomRepo.Xv6.Pgdir
import Mathlib.Tactic.Abel

/-!
# The pages behind a page directory

`Pgdir.pages` is what a page directory holds: its own page, the pages of its
page tables and the pages its leaf entries map, except the kernel's own
mappings (entries of the kernel half without `PTE_U`), which map memory nobody
allocated.  `walkpgdir` and `mappages` are then movements of pages between the
free list, the caller and the directory.
-/

namespace RandomRepo.Xv6

def Pgdir.tabPage (pd : Pgdir) (i : Nat) : Multiset Nat :=
  match pd.pde i with
  | some t => {t.page}
  | none => 0

/-- An entry maps an allocated page, not a part of the kernel. -/
def Owned (v : Nat) (e : Pte) : Prop := v < kernPage ∨ e.u = true

instance (v : Nat) (e : Pte) : Decidable (Owned v e) := by
  unfold Owned
  infer_instance

def Pgdir.leafPage (pd : Pgdir) (v : Nat) : Multiset Nat :=
  match pd.lookup v with
  | some e => if Owned v e then {e.ppn} else 0
  | none => 0

def Pgdir.pages (pd : Pgdir) : Multiset Nat :=
  {pd.page} + ∑ i ∈ Finset.range npdentries, pd.tabPage i +
    ∑ v ∈ Finset.range vpages, pd.leafPage v

variable {L : Layout} {pd pd' : Pgdir} {m m' : Kmem} {va v ppn : Nat} {ok : Bool}
  {perm : Perm} {e : Pte}

theorem Pgdir.leafPage_none (h : pd.lookup v = none) : pd.leafPage v = 0 := by
  simp [Pgdir.leafPage, h]

theorem Pgdir.leafPage_owned (h : pd.lookup v = some e) (owned : Owned v e) :
    pd.leafPage v = {e.ppn} := by
  simp [Pgdir.leafPage, h, owned]

theorem Pgdir.leafPage_kernel (h : pd.lookup v = some e) (kernel : ¬ Owned v e) :
    pd.leafPage v = 0 := by
  simp [Pgdir.leafPage, h, kernel]

theorem Pgdir.leaf_mem_pages (hv : v < vpages) (h : pd.lookup v = some e)
    (owned : Owned v e) : e.ppn ∈ pd.pages := by
  refine Multiset.mem_add.mpr (.inr (Multiset.mem_sum.mpr ⟨v, Finset.mem_range.mpr hv, ?_⟩))
  rw [Pgdir.leafPage_owned h owned]
  exact Multiset.mem_singleton_self _

/-- Two entries never share a page in a directory without double pages. -/
theorem Pgdir.leaf_inj (nodup : pd.pages.Nodup) {w : Nat} {f : Pte}
    (hv : v < vpages) (hw : w < vpages) (atV : pd.lookup v = some e)
    (atW : pd.lookup w = some f) (ownedV : Owned v e) (ownedW : Owned w f)
    (shared : e.ppn = f.ppn) : v = w := by
  refine nodup_sum_range_apart (a := e.ppn) (Multiset.nodup_add.mp nodup).2.1 hv hw ?_ ?_
  · rw [Pgdir.leafPage_owned atV ownedV]
    exact Multiset.mem_singleton_self _
  · rw [Pgdir.leafPage_owned atW ownedW, shared]
    exact Multiset.mem_singleton_self _

/-- Changing one leaf entry exchanges the pages of that entry. -/
theorem Pgdir.pages_exchange (page : pd'.page = pd.page)
    (tabs : ∀ i, pd'.tabPage i = pd.tabPage i) (hv : v < vpages)
    (same : ∀ w, w ≠ v → pd'.lookup w = pd.lookup w) :
    pd.leafPage v + pd'.pages = pd'.leafPage v + pd.pages := by
  have leaves := sum_range_exchange (f := pd.leafPage) (g := pd'.leafPage) hv
    (fun w hw => by simp only [Pgdir.leafPage, same w hw])
  simp only [Pgdir.pages, page, tabs]
  rw [add_left_comm, leaves, add_left_comm]

theorem Pgdir.setPte_page (pd : Pgdir) (va : Nat) (x : Option Pte) :
    (pd.setPte va x).page = pd.page := rfl

theorem Pgdir.setPte_tabPage (pd : Pgdir) (va : Nat) (x : Option Pte) (i : Nat) :
    (pd.setPte va x).tabPage i = pd.tabPage i := by
  simp only [Pgdir.tabPage, Pgdir.setPte]
  by_cases hi : i = pdx va
  · subst hi
    rw [Function.update_self]
    cases pd.pde (pdx va) <;> rfl
  · rw [Function.update_of_ne hi]

theorem Pgdir.setPte_isSome (pd : Pgdir) (va : Nat) (x : Option Pte) (i : Nat) :
    ((pd.setPte va x).pde i).isSome = (pd.pde i).isSome := by
  simp only [Pgdir.setPte]
  by_cases hi : i = pdx va
  · subst hi
    rw [Function.update_self]
    cases pd.pde (pdx va) <;> rfl
  · rw [Function.update_of_ne hi]

theorem Pgdir.setPte_pages {x : Option Pte} (h : va < 4294967296)
    (table : (pd.pde (pdx va)).isSome) :
    pd.leafPage (vpn va) + (pd.setPte va x).pages =
      (pd.setPte va x).leafPage (vpn va) + pd.pages := by
  refine Pgdir.pages_exchange rfl (pd.setPte_tabPage va x) (vpn_lt h) fun w hw => ?_
  rw [Pgdir.lookup_setPte h table, if_neg hw]

/-! ## `walkpgdir` -/

/-- A new page table is empty. -/
theorem walkpgdir_lookup {alloc : Bool} (h : walkpgdir pd va alloc m = (ok, pd', m')) (v : Nat) :
    pd'.lookup v = pd.lookup v := by
  rcases walkpgdir_cases h with ⟨-, -, rfl, -⟩ | ⟨-, -, rfl, -⟩ | ⟨p, -, -, absent, -, rfl⟩
  · rfl
  · rfl
  · simp only [Pgdir.lookup]
    by_cases hv : v / 1024 = pdx va
    · rw [hv, Function.update_self, absent]
      rfl
    · rw [Function.update_of_ne hv]

theorem walkpgdir_page {alloc : Bool} (h : walkpgdir pd va alloc m = (ok, pd', m')) :
    pd'.page = pd.page := by
  rcases walkpgdir_cases h with ⟨-, -, rfl, -⟩ | ⟨-, -, rfl, -⟩ | ⟨p, -, -, -, -, rfl⟩ <;> rfl

theorem walkpgdir_data {alloc : Bool} (h : walkpgdir pd va alloc m = (ok, pd', m')) :
    m'.data = m.data := by
  rcases walkpgdir_cases h with
    ⟨-, -, -, rfl⟩ | ⟨-, -, -, ⟨-, rfl⟩ | ⟨-, page⟩⟩ | ⟨p, -, -, -, page, -⟩
  · rfl
  · rfl
  · exact kalloc_data page
  · exact kalloc_data page

/-- A non-null result points into a page table of the directory. -/
theorem walkpgdir_isSome {alloc : Bool} (h : walkpgdir pd va alloc m = (true, pd', m')) :
    (pd'.pde (pdx va)).isSome := by
  rcases walkpgdir_cases h with ⟨-, table, rfl, -⟩ | ⟨impossible, -⟩ | ⟨p, -, -, -, -, rfl⟩
  · exact table
  · cases impossible
  · dsimp only
    rw [Function.update_self]
    rfl

/-- Without `alloc` a null result says that there is no page table. -/
theorem walkpgdir_false {pd : Pgdir} {va : Nat} {m : Kmem} :
    walkpgdir pd va false m = ((pd.pde (pdx va)).isSome, pd, m) := by
  unfold walkpgdir
  cases pd.pde (pdx va) <;> rfl

theorem pdx_lt (va : Nat) : pdx va < npdentries := by
  rw [pdx_eq, npdentries_eq]
  exact Nat.mod_lt _ (by decide)

/-- A directory that has gained the pages `given`, which its caller held, and pages fresh from
the allocator. -/
structure Gains (L : Layout) (given : Multiset Nat) (pd : Pgdir) (m : Kmem) (pd' : Pgdir)
    (m' : Kmem) (fresh : Multiset Nat) : Prop where
  pages : pd'.pages = given + fresh + pd.pages
  moves : Moves L m 0 m' fresh

theorem Gains.moved {given fresh : Multiset Nat} (gains : Gains L given pd m pd' m' fresh) :
    Moves L m (given + pd.pages) m' pd'.pages := by
  refine (gains.moves.frame (given + pd.pages)).congr (zero_add _) ?_
  rw [gains.pages]
  abel

theorem Gains.trans {pd₁ : Pgdir} {m₁ : Kmem} {f₁ f₂ : Multiset Nat}
    (first : Gains L 0 pd m pd₁ m₁ f₁) (second : Gains L 0 pd₁ m₁ pd' m' f₂) :
    Gains L 0 pd m pd' m' (f₂ + f₁) := by
  refine ⟨?_, first.moves.trans ((second.moves.frame f₁).congr (zero_add _) rfl)⟩
  rw [second.pages, first.pages]
  abel

/-- The pages that were held before keep their contents. -/
theorem Gains.data {given fresh T R : Multiset Nat} (gains : Gains L given pd m pd' m' fresh)
    (owns : Owns L T m R) {q : Nat} (held : q ∈ R) : m'.data q = m.data q :=
  gains.moves.same (owns.congr (zero_add R).symm) held

/-- Pages only change hands. -/
theorem Gains.length {fresh T R : Multiset Nat} (gains : Gains L 0 pd m pd' m' fresh)
    (owns : Owns L T m (pd.pages + R)) :
    m'.freelist.length + pd'.pages.card = m.freelist.length + pd.pages.card := by
  have before := owns.length_add
  have after := (gains.moved.owns (owns.congr (by rw [zero_add]))).length_add
  rw [Multiset.card_add] at before after
  omega

theorem walkpgdir_gains {alloc : Bool} (h : walkpgdir pd va alloc m = (ok, pd', m')) :
    ∃ fresh, Gains L 0 pd m pd' m' fresh ∧
      (ok = true → fresh.card = if (pd.pde (pdx va)).isSome then 0 else 1) := by
  have lookup := walkpgdir_lookup h
  rcases walkpgdir_cases h with
    ⟨-, table, rfl, rfl⟩ | ⟨rfl, -, rfl, ⟨-, rfl⟩ | ⟨-, page⟩⟩ | ⟨p, -, -, absent, page, rfl⟩
  · refine ⟨0, ⟨by simp, .refl _ _ _⟩, fun _ => ?_⟩
    rw [if_pos table]
    rfl
  · exact ⟨0, ⟨by simp, .refl _ _ _⟩, fun impossible => (by cases impossible)⟩
  · exact ⟨0, ⟨by simp, kalloc_none_moves page⟩, fun impossible => (by cases impossible)⟩
  · refine ⟨{p}, ⟨?_, kalloc_some_moves page⟩, fun _ => by rw [absent]; rfl⟩
    -- the new page is the page of the new table; no other table and no leaf changes
    have tabs := sum_range_exchange (n := npdentries) (i := pdx va) (f := pd.tabPage)
      (g := Pgdir.tabPage { pd with pde := Function.update pd.pde (pdx va) (some ⟨p, fun _ => none⟩) })
      (pdx_lt va) (fun j hj => by simp only [Pgdir.tabPage, Function.update_of_ne hj])
    have before : pd.tabPage (pdx va) = 0 := by simp [Pgdir.tabPage, absent]
    rw [before, zero_add] at tabs
    simp only [Pgdir.pages, Pgdir.leafPage, lookup, tabs]
    have after : Pgdir.tabPage
        { pd with pde := Function.update pd.pde (pdx va) (some ⟨p, fun _ => none⟩) } (pdx va) =
        {p} := by
      simp [Pgdir.tabPage]
    rw [after]
    abel

end RandomRepo.Xv6

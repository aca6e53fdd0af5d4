import RandomRepo.Xv6.PgdirPages
import RandomRepo.Xv6.Vm

/-!
# `deallocuvm` and `freevm`

Below `kernbase` the loop of `deallocuvm` frees exactly the mapped pages of its
range: skipping the region of an absent page table skips no mapped page.  What
`freevm` does not give back are the user pages of the kernel half
(`Pgdir.stranded`), which its call of `deallocuvm` does not reach.
-/

namespace RandomRepo.Xv6

variable {L : Layout} {pd pd' : Pgdir} {m m' : Kmem} {T R : Multiset Nat}
  {a oldsz newsz v turns : Nat}

/-- `pd'` is `pd` without the leaf entries of the pages from `lo` up to `oldsz`. -/
structure Dealloc (pd : Pgdir) (lo oldsz : Nat) (pd' : Pgdir) : Prop where
  page : pd'.page = pd.page
  tabPage : ∀ i, pd'.tabPage i = pd.tabPage i
  isSome : ∀ i, (pd'.pde i).isSome = (pd.pde i).isSome
  lookup : ∀ v, pd'.lookup v = if lo ≤ v ∧ v * 4096 < oldsz then none else pd.lookup v

/-- The pages that left the directory are free again. -/
def Frees (L : Layout) (m : Kmem) (pd : Pgdir) (m' : Kmem) (pd' : Pgdir) : Prop :=
  ∃ freed, pd.pages = freed + pd'.pages ∧ Moves L m freed m' 0 ∧ m'.oom = m.oom

theorem Frees.moves (frees : Frees L m pd m' pd') : Moves L m pd.pages m' pd'.pages := by
  obtain ⟨freed, split, moves, -⟩ := frees
  rw [split]
  exact (moves.frame pd'.pages).congr rfl (zero_add _)

theorem Frees.length (frees : Frees L m pd m' pd') (owns : Owns L T m (pd.pages + R)) :
    m.freelist.length ≤ m'.freelist.length := by
  have before := owns.length_add
  have after := (frees.moves.owns owns).length_add
  obtain ⟨freed, split, -⟩ := frees
  rw [split] at before
  simp only [Multiset.card_add] at before after
  omega

theorem Frees.refl : Frees L m pd m pd :=
  ⟨0, (zero_add _).symm, .refl _ _ _, rfl⟩

theorem Frees.trans {pd₁ : Pgdir} {m₁ : Kmem} (first : Frees L m pd m₁ pd₁)
    (second : Frees L m₁ pd₁ m' pd') : Frees L m pd m' pd' := by
  obtain ⟨freed₁, split₁, moves₁, oom₁⟩ := first
  obtain ⟨freed₂, split₂, moves₂, oom₂⟩ := second
  refine ⟨freed₁ + freed₂, by rw [split₁, split₂, add_assoc], ?_, oom₂.trans oom₁⟩
  exact (moves₁.frame freed₂).trans (moves₂.congr (zero_add _).symm rfl)

theorem Pgdir.lookup_of_table_none {i : Nat} (absent : pd.pde i = none) (hv : v / 1024 = i) :
    pd.lookup v = none := by
  simp [Pgdir.lookup, hv, absent]

/-- Clearing the entry of a user page and freeing the page. -/
theorem kfree_leaf (ha : a < 4294967296) {e : Pte} (mapped : pd.lookup (vpn a) = some e)
    (owned : Owned (vpn a) e) (free : kfree L e.ppn m = .ok m') :
    Frees L m pd m' (pd.setPte a none) := by
  have table := Pgdir.table_of_lookup mapped
  rw [← pdx_vpn ha] at table
  have exchange := Pgdir.setPte_pages (x := none) ha table
  have cleared : (pd.setPte a none).lookup (vpn a) = none := by
    rw [Pgdir.lookup_setPte ha table, if_pos rfl]
  rw [Pgdir.leafPage_owned mapped owned, Pgdir.leafPage_none cleared, zero_add] at exchange
  refine ⟨{e.ppn}, exchange.symm, kfree_moves free, ?_⟩
  obtain ⟨-, rfl⟩ := kfree_eq_ok free
  rfl

/-- The next address after the region of an absent page table. -/
theorem dealloc_skip (ha : a < kernbase) :
    u32 (usub (pgaddr (pdx a + 1) 0 0) pgsize + pgsize) = (a / 4194304 + 1) * 4194304 := by
  rw [pgaddr_pd, pdx_eq]
  simp only [u32, usub, pgsize, kernbase] at *
  omega

/-- A turn at an address without a page table. -/
theorem deallocLoop_skip (bound : oldsz ≤ kernbase) (inside : a < oldsz)
    (absent : pd.pde (pdx a) = none) :
    deallocLoop L oldsz (turns + 1) a pd m =
      deallocLoop L oldsz turns ((a / 4194304 + 1) * 4194304) pd m := by
  rw [deallocLoop, if_pos inside, walkpgdir_false]
  simp only [absent, Option.isSome_none]
  rw [dealloc_skip (by omega)]

/-- A turn at an address with a page table. -/
theorem deallocLoop_page (bound : oldsz ≤ kernbase) (inside : a < oldsz)
    (table : (pd.pde (pdx a)).isSome = true) :
    deallocLoop L oldsz (turns + 1) a pd m =
      match pd.lookup (vpn a) with
      | none => deallocLoop L oldsz turns (a + pgsize) pd m
      | some e =>
        if e.ppn = 0 then .error (.panic .kfree)
        else kfree L e.ppn m >>= fun m =>
          deallocLoop L oldsz turns (a + pgsize) (pd.setPte a none) m := by
  have next : u32 (a + pgsize) = a + pgsize := by
    simp only [u32, pgsize, kernbase] at *
    omega
  have entry : pd.pte a = pd.lookup (vpn a) :=
    Pgdir.pte_eq_lookup _ (by simp only [kernbase] at bound; omega)
  rw [deallocLoop, if_pos inside, walkpgdir_false, table, ← entry]
  dsimp only
  cases pd.pte a with
  | none => exact congrArg (fun b => deallocLoop L oldsz turns b pd m) next
  | some e =>
    dsimp only
    rw [next]

theorem Owned.below (bound : oldsz ≤ kernbase) (inside : a < oldsz) (e : Pte) :
    Owned (vpn a) e := by
  left
  simp only [vpn, pgsize, kernPage, kernbase] at *
  omega

theorem deallocLoop_spec (bound : oldsz ≤ kernbase) (aligned : a % 4096 = 0)
    (h : deallocLoop L oldsz turns a pd m = .ok (pd', m')) :
    Dealloc pd (vpn a) oldsz pd' ∧ Frees L m pd m' pd' := by
  induction turns generalizing a pd m with
  | zero => cases h
  | succ turns ih =>
    by_cases inside : a < oldsz
    · have ha : a < 4294967296 := by simp only [kernbase] at bound; omega
      have nextAligned : (a + pgsize) % 4096 = 0 := by simp only [pgsize]; omega
      have nextVpn : vpn (a + pgsize) = vpn a + 1 := by simp only [vpn, pgsize]; omega
      have here : vpn a * 4096 < oldsz := by simp only [vpn, pgsize]; omega
      cases table : pd.pde (pdx a) with
      | none =>
        rw [deallocLoop_skip bound inside table] at h
        obtain ⟨dealloc, frees⟩ := ih (by omega) h
        refine ⟨⟨dealloc.page, dealloc.tabPage, dealloc.isSome, fun v => ?_⟩, frees⟩
        rw [dealloc.lookup]
        -- the pages skipped over belong to the absent table
        by_cases skipped : v / 1024 = pdx a
        · rw [Pgdir.lookup_of_table_none table skipped]
          simp
        · have reached : vpn ((a / 4194304 + 1) * 4194304) ≤ v ↔ vpn a ≤ v := by
            rw [pdx_eq] at skipped
            simp only [vpn, pgsize, kernbase] at *
            omega
          simp only [reached]
      | some t =>
        have tab : (pd.pde (pdx a)).isSome := by rw [table]; rfl
        rw [deallocLoop_page bound inside tab] at h
        cases mapped : pd.lookup (vpn a) with
        | none =>
          simp only [mapped] at h
          obtain ⟨dealloc, frees⟩ := ih nextAligned h
          refine ⟨⟨dealloc.page, dealloc.tabPage, dealloc.isSome, fun v => ?_⟩, frees⟩
          rw [dealloc.lookup, nextVpn]
          by_cases hv : v = vpn a
          · subst hv
            rw [if_neg (by omega), mapped, if_pos ⟨by omega, here⟩]
          · have same : vpn a + 1 ≤ v ↔ vpn a ≤ v := by omega
            simp only [same]
        | some e =>
          simp only [mapped] at h
          split at h
          · cases h
          · obtain ⟨m₁, free, rest⟩ := bind_ok_iff.mp h
            obtain ⟨dealloc, frees⟩ := ih nextAligned rest
            refine ⟨⟨dealloc.page, fun i => ?_, fun i => ?_, fun v => ?_⟩,
              (kfree_leaf ha mapped (.below bound inside e) free).trans frees⟩
            · rw [dealloc.tabPage, Pgdir.setPte_tabPage]
            · rw [dealloc.isSome, Pgdir.setPte_isSome]
            · rw [dealloc.lookup, nextVpn, Pgdir.lookup_setPte ha tab]
              by_cases hv : v = vpn a
              · subst hv
                rw [if_neg (by omega), if_pos rfl, if_pos ⟨by omega, here⟩]
              · have same : vpn a + 1 ≤ v ↔ vpn a ≤ v := by omega
                simp only [same, if_neg hv]
    · rw [deallocLoop, if_neg inside] at h
      cases h
      refine ⟨⟨rfl, fun _ => rfl, fun _ => rfl, fun v => ?_⟩, .refl⟩
      rw [if_neg]
      simp only [vpn, pgsize]
      omega

/-- No page a directory holds is page 0, which `kfree` rejects. -/
theorem Layout.InRam.ne_zero {p : Nat} (ram : L.InRam p) : p ≠ 0 := by
  rintro rfl
  have low := ram.1
  have gt := L.data_gt
  have le := L.data_le
  simp only [kva, p2v, u32, pgsize, kernbase, kernlink, extmem] at *
  omega

/-- Enough turns and the pages of a directory somebody holds: the loop ends. -/
theorem deallocLoop_total (turns : Nat) (bound : oldsz ≤ kernbase) (aligned : a % 4096 = 0)
    (enough : oldsz + 4096 ≤ a + turns * 4096) (some_ : 0 < turns)
    (owns : Owns L T m (pd.pages + R)) :
    ∃ pd' m', deallocLoop L oldsz turns a pd m = .ok (pd', m') := by
  induction turns generalizing a pd m with
  | zero => omega
  | succ turns ih =>
    by_cases inside : a < oldsz
    · have ha : a < 4294967296 := by simp only [kernbase] at bound; omega
      have nextAligned : (a + pgsize) % 4096 = 0 := by simp only [pgsize]; omega
      cases table : pd.pde (pdx a) with
      | none =>
        rw [deallocLoop_skip bound inside table]
        exact ih (by omega) (by omega) (by omega) owns
      | some t =>
        rw [deallocLoop_page bound inside (by rw [table]; rfl)]
        cases mapped : pd.lookup (vpn a) with
        | none => exact ih nextAligned (by simp only [pgsize]; omega) (by omega) owns
        | some e =>
          dsimp only
          have owned : Owned (vpn a) e := .below bound inside e
          have held : e.ppn ∈ pd.pages + R :=
            Multiset.mem_add.mpr (.inl (Pgdir.leaf_mem_pages (vpn_lt ha) mapped owned))
          rw [if_neg (owns.inRam held).ne_zero]
          obtain ⟨m₁, free⟩ := owns.kfree held
          rw [free]
          exact ih nextAligned (by simp only [pgsize]; omega) (by omega)
            ((kfree_leaf ha mapped owned free).moves.owns owns)
    · rw [deallocLoop, if_neg inside]
      exact ⟨_, _, rfl⟩

theorem pgroundup_aligned (sz : Nat) : pgroundup sz % 4096 = 0 := by
  simp only [pgroundup, pgsize]
  omega

/-- `deallocuvm` of a smaller size below `kernbase`. -/
theorem deallocuvm_spec {r : Nat} (bound : oldsz ≤ kernbase) (smaller : newsz < oldsz)
    (h : deallocuvm L pd oldsz newsz m = .ok (r, pd', m')) :
    r = newsz ∧ Dealloc pd (vpn (pgroundup newsz)) oldsz pd' ∧ Frees L m pd m' pd' := by
  rw [deallocuvm, if_neg (by omega)] at h
  obtain ⟨⟨pd₁, m₁⟩, loop, rest⟩ := bind_ok_iff.mp h
  cases rest
  exact ⟨rfl, deallocLoop_spec bound (pgroundup_aligned newsz) loop⟩

theorem deallocLoop_oom (h : deallocLoop L oldsz turns a pd m = .ok (pd', m')) :
    m'.oom = m.oom := by
  induction turns generalizing a pd m with
  | zero => cases h
  | succ turns ih =>
    rw [deallocLoop] at h
    split at h
    · rw [walkpgdir_false] at h
      cases table : (pd.pde (pdx a)).isSome with
      | false => rw [table] at h; exact ih h
      | true =>
        rw [table] at h
        dsimp only at h
        cases pte : pd.pte a with
        | none => rw [pte] at h; exact ih h
        | some e =>
          rw [pte] at h
          dsimp only at h
          split at h
          · cases h
          · obtain ⟨m₁, free, rest⟩ := bind_ok_iff.mp h
            exact (ih rest).trans (kfree_oom free)
    · cases h
      rfl

theorem deallocuvm_oom {r : Nat} (h : deallocuvm L pd oldsz newsz m = .ok (r, pd', m')) :
    m'.oom = m.oom := by
  rw [deallocuvm] at h
  split at h
  · cases h
    rfl
  · obtain ⟨⟨pd₁, m₁⟩, loop, rest⟩ := bind_ok_iff.mp h
    cases rest
    exact deallocLoop_oom loop

theorem deallocuvm_total (newsz : Nat) (bound : oldsz ≤ kernbase) (owns : Owns L T m (pd.pages + R)) :
    ∃ r pd' m', deallocuvm L pd oldsz newsz m = .ok (r, pd', m') := by
  rw [deallocuvm]
  by_cases smaller : oldsz ≤ newsz
  · exact ⟨_, _, _, if_pos smaller⟩
  · rw [if_neg smaller]
    obtain ⟨pd', m', loop⟩ := deallocLoop_total (vpages + 1) bound
      (pgroundup_aligned newsz) (by simp only [vpages_eq, kernbase] at *; omega)
      (Nat.succ_pos _) owns
    exact ⟨newsz, pd', m', by rw [loop]; rfl⟩

/-! ## `freevm` -/

theorem freeTables_moves {is : List Nat} (h : freeTables L pd is m = .ok m') :
    Moves L m (is.map pd.tabPage).sum m' 0 := by
  induction is generalizing m with
  | nil => cases h; exact .refl _ _ _
  | cons i is ih =>
    rw [freeTables] at h
    cases table : pd.pde i with
    | none =>
      rw [table] at h
      refine (ih h).congr ?_ rfl
      simp [Pgdir.tabPage, table]
    | some t =>
      rw [table] at h
      obtain ⟨m₁, free, rest⟩ := bind_ok_iff.mp h
      refine Moves.congr (((kfree_moves free).frame _).trans
        ((ih rest).congr (zero_add _).symm rfl)) ?_ rfl
      simp [Pgdir.tabPage, table]

theorem freeTables_total {is : List Nat} (owns : Owns L T m ((is.map pd.tabPage).sum + R)) :
    ∃ m', freeTables L pd is m = .ok m' := by
  induction is generalizing m with
  | nil => exact ⟨m, rfl⟩
  | cons i is ih =>
    rw [freeTables]
    cases table : pd.pde i with
    | none =>
      refine ih (owns.congr ?_)
      simp [Pgdir.tabPage, table]
    | some t =>
      have split : ((i :: is).map pd.tabPage).sum + R =
          {t.page} + ((is.map pd.tabPage).sum + R) := by
        simp [Pgdir.tabPage, table]
      have owns := owns.congr split
      obtain ⟨m₁, free⟩ := owns.kfree
        (Multiset.mem_add.mpr (.inl (Multiset.mem_singleton_self t.page)))
      dsimp only
      rw [free]
      exact ih (((kfree_moves free).owns owns).congr (zero_add _))

/-- User pages mapped in the kernel half. -/
def Pgdir.stranded (pd : Pgdir) : Multiset Nat :=
  ∑ v ∈ Finset.range vpages, if v < kernPage then 0 else pd.leafPage v

/-- What is left of a directory after its user half has been deallocated. -/
theorem Dealloc.pages_of_user_half (dealloc : Dealloc pd 0 kernbase pd') :
    pd'.pages = {pd'.page} + (((List.range npdentries).map pd'.tabPage).sum + pd.stranded) := by
  have leaves : ∀ v, pd'.leafPage v = if v < kernPage then 0 else pd.leafPage v := by
    intro v
    simp only [Pgdir.leafPage, dealloc.lookup]
    have half : (0 ≤ v ∧ v * 4096 < kernbase) ↔ v < kernPage := by
      simp only [kernbase, kernPage]
      omega
    simp only [half]
    by_cases low : v < kernPage <;> simp [low]
  rw [Pgdir.pages, Pgdir.stranded, sum_map_range, add_assoc]
  congr 2
  exact Finset.sum_congr rfl fun v _ => leaves v

theorem freevm_moves (h : freevm L pd m = .ok m') : Moves L m pd.pages m' pd.stranded := by
  obtain ⟨⟨r, pd₁, m₁⟩, dealloc, rest⟩ := bind_ok_iff.mp h
  obtain ⟨m₂, tables, free⟩ := bind_ok_iff.mp rest
  obtain ⟨-, cleared, frees⟩ := deallocuvm_spec (Nat.le_refl _) (by decide) dealloc
  have cleared : Dealloc pd 0 kernbase pd₁ := cleared
  refine frees.moves.trans ?_
  rw [cleared.pages_of_user_half]
  have dropped := ((freeTables_moves tables).frame ({pd₁.page} + pd.stranded)).congr
    (add_left_comm _ _ _) (zero_add _)
  have last := ((kfree_moves free).frame pd.stranded).congr rfl (zero_add _)
  exact dropped.trans last

theorem freevm_total (owns : Owns L T m (pd.pages + R)) : ∃ m', freevm L pd m = .ok m' := by
  obtain ⟨r, pd₁, m₁, dealloc⟩ := deallocuvm_total 0 (Nat.le_refl kernbase) owns
  obtain ⟨-, cleared, frees⟩ := deallocuvm_spec (Nat.le_refl _) (by decide) dealloc
  have cleared : Dealloc pd 0 kernbase pd₁ := cleared
  have split : pd₁.pages + R = ((List.range npdentries).map pd₁.tabPage).sum +
      ({pd₁.page} + pd.stranded + R) := by
    rw [cleared.pages_of_user_half, add_left_comm]
    simp only [add_assoc]
  have owns₁ := (frees.moves.owns owns).congr split
  obtain ⟨m₂, tables⟩ := freeTables_total owns₁
  have owns₂ := ((freeTables_moves tables).owns owns₁).congr (zero_add _)
  obtain ⟨m', free⟩ := owns₂.kfree (Multiset.mem_add.mpr (.inl
    (Multiset.mem_add.mpr (.inl (Multiset.mem_singleton_self pd₁.page)))))
  refine ⟨m', ?_⟩
  rw [freevm, dealloc]
  simp only [bind, Except.bind, tables, free]

/-- A directory without user pages in the kernel half gives all its pages back. -/
theorem Pgdir.stranded_eq_zero
    (clean : ∀ v e, kernPage ≤ v → pd.lookup v = some e → e.u = false) :
    pd.stranded = 0 := by
  refine Finset.sum_eq_zero fun v _ => ?_
  by_cases low : v < kernPage
  · rw [if_pos low]
  · rw [if_neg low]
    cases mapped : pd.lookup v with
    | none => exact Pgdir.leafPage_none mapped
    | some e =>
      refine Pgdir.leafPage_kernel mapped ?_
      rintro (user | flag)
      · exact low user
      · rw [clean v e (by omega) mapped] at flag
        cases flag

end RandomRepo.Xv6

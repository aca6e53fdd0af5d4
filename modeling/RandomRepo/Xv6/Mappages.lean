import RandomRepo.Xv6.PgdirPages

/-!
# What `mappages` does

One turn of the loop either finds its page mapped and panics, or runs out of
pages for a page table, or installs its entry (`mapPage_cases`).  A run of the
loop is described entry by entry (`MapLoop`): outside its range nothing changes,
inside it an entry is the requested one or the old one, and a run that returns 0
has installed all of them.
-/

namespace RandomRepo.Xv6

variable {L : Layout} {pd pd' : Pgdir} {m m' : Kmem} {a va v ppn n : Nat} {ok : Bool}
  {perm : Perm}

/-- The entry `mappages` writes. -/
def Perm.entry (perm : Perm) (ppn : Nat) : Pte := ⟨ppn, perm.w, perm.u⟩

theorem mapPage_cases (ha : a < 4294967296) (h : mapPage pd a ppn perm m = .ok (ok, pd', m')) :
    (ok = false ∧ pd' = pd ∧ pd.pde (pdx a) = none ∧ kalloc m = (none, m')) ∨
      (ok = true ∧ pd.lookup (vpn a) = none ∧
        ∃ pd₁, walkpgdir pd a true m = (true, pd₁, m') ∧
          pd' = pd₁.setPte a (some (perm.entry ppn))) := by
  unfold mapPage at h
  rcases walk : walkpgdir pd a true m with ⟨_ | _, pd₁, m₁⟩
  · simp only [walk] at h
    cases h
    rcases walkpgdir_cases walk with
      ⟨impossible, -⟩ | ⟨-, absent, rfl, ⟨impossible, -⟩ | ⟨-, page⟩⟩ | ⟨p, impossible, -⟩
    · cases impossible
    · cases impossible
    · exact .inl ⟨rfl, rfl, absent, page⟩
    · cases impossible
  · simp only [walk] at h
    split at h
    · cases h
    · rename_i free
      cases h
      refine .inr ⟨rfl, ?_, pd₁, rfl, rfl⟩
      rw [Pgdir.pte_eq_lookup _ ha, walkpgdir_lookup walk] at free
      simpa using free

/-- `mapPage` panics exactly on a page that is mapped already. -/
theorem mapPage_total (ppn : Nat) (perm : Perm) (m : Kmem) (ha : a < 4294967296)
    (free : pd.lookup (vpn a) = none) :
    ∃ ok pd' m', mapPage pd a ppn perm m = .ok (ok, pd', m') := by
  unfold mapPage
  rcases walk : walkpgdir pd a true m with ⟨_ | _, pd₁, m₁⟩
  · exact ⟨_, _, _, rfl⟩
  · dsimp only
    rw [Pgdir.pte_eq_lookup _ ha, walkpgdir_lookup walk, free]
    exact ⟨_, _, _, rfl⟩

theorem mapPage_remap (ha : a < 4294967296) {e : Pte} (mapped : pd.lookup (vpn a) = some e) :
    mapPage pd a ppn perm m = .error (.panic .remap) := by
  have pte : pd.pte a = some e := (Pgdir.pte_eq_lookup _ ha).trans mapped
  have table := Pgdir.table_of_lookup mapped
  rw [← pdx_vpn ha] at table
  have walk : walkpgdir pd a true m = (true, pd, m) := by
    unfold walkpgdir
    cases found : pd.pde (pdx a) with
    | none => rw [found] at table; cases table
    | some t => rfl
  simp [mapPage, walk, pte]

theorem mapPage_lookup (ha : a < 4294967296) (h : mapPage pd a ppn perm m = .ok (true, pd', m'))
    (v : Nat) :
    pd'.lookup v = if v = vpn a then some (perm.entry ppn) else pd.lookup v := by
  rcases mapPage_cases ha h with ⟨impossible, -⟩ | ⟨-, -, pd₁, walk, rfl⟩
  · cases impossible
  · rw [Pgdir.lookup_setPte ha (walkpgdir_isSome walk), walkpgdir_lookup walk]

theorem mapPage_page (ha : a < 4294967296) (h : mapPage pd a ppn perm m = .ok (ok, pd', m')) :
    pd'.page = pd.page := by
  rcases mapPage_cases ha h with ⟨-, rfl, -⟩ | ⟨-, -, pd₁, walk, rfl⟩
  · rfl
  · exact (Pgdir.setPte_page _ _ _).trans (walkpgdir_page walk)

theorem mapPage_data (ha : a < 4294967296) (h : mapPage pd a ppn perm m = .ok (ok, pd', m')) :
    m'.data = m.data := by
  rcases mapPage_cases ha h with ⟨-, -, -, page⟩ | ⟨-, -, pd₁, walk, -⟩
  · exact kalloc_data page
  · exact walkpgdir_data walk

theorem mapPage_oom (h : mapPage pd a ppn perm m = .ok (true, pd', m')) : m'.oom = m.oom := by
  unfold mapPage at h
  rcases walk : walkpgdir pd a true m with ⟨_ | _, pd₁, m₁⟩
  · simp only [walk] at h
    cases h
  · simp only [walk] at h
    split at h
    · cases h
    · cases h
      rcases walkpgdir_cases walk with ⟨-, -, -, rfl⟩ | ⟨impossible, -⟩ | ⟨p, -, -, -, page, -⟩
      · rfl
      · cases impossible
      · exact kalloc_some_oom page

theorem mapLoop_oom (h : mapLoop perm n a ppn pd m = .ok (true, pd', m')) : m'.oom = m.oom := by
  induction n generalizing a ppn pd m with
  | zero => exact mapPage_oom h
  | succ n ih =>
    obtain ⟨⟨first, pd₁, m₁⟩, turn, rest⟩ := bind_ok_iff.mp h
    cases first with
    | false => cases rest
    | true => exact (ih rest).trans (mapPage_oom turn)

/-- A turn adds at most the page table of its address. -/
theorem mapPage_isSome (ha : a < 4294967296) (h : mapPage pd a ppn perm m = .ok (ok, pd', m'))
    (i : Nat) : (pd'.pde i).isSome ↔ (pd.pde i).isSome ∨ (ok = true ∧ i = pdx a) := by
  rcases mapPage_cases ha h with ⟨rfl, rfl, -⟩ | ⟨rfl, -, pd₁, walk, rfl⟩
  · simp
  · rw [Pgdir.setPte_isSome]
    rcases walkpgdir_cases walk with ⟨-, table, rfl, -⟩ | ⟨impossible, -⟩ | ⟨p, -, -, -, -, rfl⟩
    · constructor
      · exact .inl
      · rintro (present | ⟨-, rfl⟩)
        · exact present
        · exact table
    · cases impossible
    · dsimp only
      by_cases hi : i = pdx a
      · subst hi
        simp
      · rw [Function.update_of_ne hi]
        simp [hi]

theorem mapPage_fail_moves (ha : a < 4294967296)
    (h : mapPage pd a ppn perm m = .ok (false, pd', m')) :
    pd' = pd ∧ m.freelist = [] ∧ Moves L m 0 m' 0 := by
  rcases mapPage_cases ha h with ⟨-, rfl, -, page⟩ | ⟨impossible, -⟩
  · refine ⟨rfl, ?_, kalloc_none_moves page⟩
    rcases kalloc_cases page with ⟨free, -⟩ | ⟨p, rest, -, impossible, -⟩
    · exact free
    · cases impossible
  · cases impossible

/-- A successful turn hands the page of its entry to the directory, unless the
entry is one of the kernel's own mappings. -/
theorem mapPage_gains (ha : a < 4294967296) (h : mapPage pd a ppn perm m = .ok (true, pd', m')) :
    ∃ fresh, Gains L (if Owned (vpn a) (perm.entry ppn) then {ppn} else 0) pd m pd' m' fresh ∧
      fresh.card = if (pd.pde (pdx a)).isSome then 0 else 1 := by
  have lookup := mapPage_lookup ha h (vpn a)
  rw [if_pos rfl] at lookup
  rcases mapPage_cases ha h with ⟨impossible, -⟩ | ⟨-, free, pd₁, walk, rfl⟩
  · cases impossible
  · obtain ⟨fresh, gains, card⟩ := walkpgdir_gains (L := L) walk
    refine ⟨fresh, ⟨?_, gains.moves⟩, card rfl⟩
    have exchange := Pgdir.setPte_pages (x := some (perm.entry ppn)) ha (walkpgdir_isSome walk)
    rw [Pgdir.leafPage_none ((walkpgdir_lookup walk _).trans free), zero_add] at exchange
    have leaf : (pd₁.setPte a (some (perm.entry ppn))).leafPage (vpn a) =
        if Owned (vpn a) (perm.entry ppn) then {ppn} else 0 := by
      simp only [Pgdir.leafPage, lookup]
      rfl
    rw [exchange, leaf, gains.pages, zero_add, add_assoc]

/-! ## Mapping one page -/

/-- `mappages` of one page is one turn of its loop. -/
theorem mappages_one (ha : a < 4294967296) (aligned : a % 4096 = 0) :
    mappages pd a pgsize ppn perm m = mapPage pd a ppn perm m := by
  have down : pgrounddown a = a := by simp only [pgrounddown, pgsize]; omega
  have last : pgrounddown (usub (u32 (a + pgsize)) 1) = a := by
    simp only [pgrounddown, usub, u32, pgsize]
    omega
  have steps : usub a a / pgsize = 0 := by
    simp only [usub, u32, pgsize]
    omega
  simp only [mappages, down, last, steps, mapLoop]

/-! ## The loop -/

/-- What a run of the loop from `a` over `n + 1` pages did to the directory. -/
structure MapLoop (pd : Pgdir) (a n ppn : Nat) (perm : Perm) (ok : Bool) (pd' : Pgdir)
    (m' : Kmem) : Prop where
  page : pd'.page = pd.page
  isSome : ∀ i, (pd'.pde i).isSome →
    (pd.pde i).isSome ∨ (vpn a / 1024 ≤ i ∧ i ≤ (vpn a + n) / 1024)
  fail : ok = false → m'.freelist = [] ∧
    ∃ i, vpn a / 1024 ≤ i ∧ i ≤ (vpn a + n) / 1024 ∧ pd'.pde i = none
  entry : ∀ v, pd'.lookup v = pd.lookup v ∨
    (vpn a ≤ v ∧ v ≤ vpn a + n ∧ pd'.lookup v = some (perm.entry (ppn + (v - vpn a))))
  all : ok = true → ∀ v, vpn a ≤ v → v ≤ vpn a + n →
    pd'.lookup v = some (perm.entry (ppn + (v - vpn a)))

theorem vpn_add_pgsize (a : Nat) : vpn (a + pgsize) = vpn a + 1 := by
  simp only [vpn, pgsize]
  omega

theorem mapLoop_step_args (room : a + (n + 1) * 4096 < 4294967296) (fits : ppn + (n + 1) < 1048576) :
    u32 (a + pgsize) = a + pgsize ∧ u32 ((ppn + 1) * pgsize) / pgsize = ppn + 1 := by
  simp only [u32, pgsize]
  omega

/-- The turn that fails is the last one. -/
theorem mapPage_fail (ha : a < 4294967296) (h : mapPage pd a ppn perm m = .ok (false, pd', m')) :
    MapLoop pd a n ppn perm false pd' m' := by
  rcases mapPage_cases ha h with ⟨-, rfl, absent, page⟩ | ⟨impossible, -⟩
  · refine ⟨rfl, fun _ => .inl, fun _ => ⟨?_, vpn a / 1024, Nat.le_refl _, ?_, ?_⟩,
      fun _ => .inl rfl, fun h => (by cases h)⟩
    · rcases kalloc_cases page with ⟨free, -, rfl⟩ | ⟨p, rest, -, impossible, -⟩
      · exact free
      · cases impossible
    · exact Nat.div_le_div_right (Nat.le_add_right _ _)
    · rw [← pdx_vpn ha]
      exact absent
  · cases impossible

theorem mapLoop_spec (room : a + n * 4096 < 4294967296) (fits : ppn + n < 1048576)
    (h : mapLoop perm n a ppn pd m = .ok (ok, pd', m')) :
    MapLoop pd a n ppn perm ok pd' m' ∧ m'.data = m.data := by
  induction n generalizing a ppn pd m with
  | zero =>
    have ha : a < 4294967296 := by omega
    cases ok with
    | false => exact ⟨mapPage_fail ha h, mapPage_data ha h⟩
    | true =>
      have lookup := mapPage_lookup ha h
      refine ⟨⟨mapPage_page ha h, fun i present => ?_, fun h => (by cases h), fun v => ?_,
        fun _ v low high => ?_⟩, mapPage_data ha h⟩
      · rcases (mapPage_isSome ha h i).mp present with old | ⟨-, new⟩
        · exact .inl old
        · rw [pdx_vpn ha] at new
          exact .inr (by omega)
      · by_cases hv : v = vpn a
        · refine .inr ⟨by omega, by omega, ?_⟩
          rw [lookup, if_pos hv, hv, Nat.sub_self, Nat.add_zero]
        · exact .inl ((lookup v).trans (if_neg hv))
      · have hv : v = vpn a := by omega
        rw [lookup, if_pos hv, hv, Nat.sub_self, Nat.add_zero]
  | succ n ih =>
    have ha : a < 4294967296 := by omega
    obtain ⟨⟨first, pd₁, m₁⟩, turn, rest⟩ := bind_ok_iff.mp h
    cases first with
    | false =>
      cases rest
      exact ⟨mapPage_fail ha turn, mapPage_data ha turn⟩
    | true =>
      obtain ⟨nextA, nextP⟩ := mapLoop_step_args room fits
      dsimp only at rest
      rw [if_pos rfl, nextA, nextP] at rest
      obtain ⟨loop, data⟩ := ih (by simp only [pgsize]; omega) (by omega) rest
      have lookup := mapPage_lookup ha turn
      obtain ⟨page, isSome, fail, entry, all⟩ := loop
      simp only [vpn_add_pgsize] at isSome fail entry all
      refine ⟨⟨page.trans (mapPage_page ha turn), fun i present => ?_, fun hok => ?_,
        fun v => ?_, fun hok v low high => ?_⟩, data.trans (mapPage_data ha turn)⟩
      · rcases isSome i present with old | ⟨low, high⟩
        · rcases (mapPage_isSome ha turn i).mp old with older | ⟨-, new⟩
          · exact .inl older
          · rw [pdx_vpn ha] at new
            exact .inr (by omega)
        · exact .inr (by omega)
      · obtain ⟨empty, i, low, high, absent⟩ := fail hok
        exact ⟨empty, i, by omega, by omega, absent⟩
      · rcases entry v with same | ⟨low, high, new⟩
        · by_cases hv : v = vpn a
          · refine .inr ⟨by omega, by omega, ?_⟩
            rw [same, lookup, if_pos hv, hv, Nat.sub_self, Nat.add_zero]
          · exact .inl (same.trans ((lookup v).trans (if_neg hv)))
        · have shift : ppn + 1 + (v - (vpn a + 1)) = ppn + (v - vpn a) := by omega
          exact .inr ⟨by omega, by omega, new.trans (by rw [shift])⟩
      · by_cases hv : v = vpn a
        · -- the first page keeps its entry through the rest of the loop
          rcases entry v with same | ⟨low', -⟩
          · rw [same, lookup, if_pos hv, hv, Nat.sub_self, Nat.add_zero]
          · omega
        · have shift : ppn + 1 + (v - (vpn a + 1)) = ppn + (v - vpn a) := by omega
          rw [all hok v (by omega) (by omega), shift]

/-- The kernel's own mappings move no pages but those of new page tables. -/
theorem mapLoop_moves (room : a + n * 4096 < 4294967296) (kernel : kernPage ≤ vpn a)
    (user : perm.u = false) (fits : ppn + n < 1048576)
    (h : mapLoop perm n a ppn pd m = .ok (ok, pd', m')) : Moves L m pd.pages m' pd'.pages := by
  have turnMoves : ∀ {a ppn : Nat} {pd pd' : Pgdir} {m m' : Kmem} {ok : Bool}, a < 4294967296 →
      kernPage ≤ vpn a → mapPage pd a ppn perm m = .ok (ok, pd', m') →
      Moves L m pd.pages m' pd'.pages := by
    intro a ppn pd pd' m m' ok ha kernel turn
    cases ok with
    | false =>
      obtain ⟨rfl, -, moves⟩ := mapPage_fail_moves (L := L) ha turn
      exact (moves.frame pd'.pages).congr (zero_add _) (zero_add _)
    | true =>
      have notOwned : ¬ Owned (vpn a) (perm.entry ppn) := by
        rintro (low | flag)
        · omega
        · simp [Perm.entry, user] at flag
      obtain ⟨fresh, gains, -⟩ := mapPage_gains (L := L) ha turn
      have moves := gains.moved
      rwa [if_neg notOwned, zero_add] at moves
  induction n generalizing a ppn pd m with
  | zero => exact turnMoves (by omega) kernel h
  | succ n ih =>
    obtain ⟨⟨first, pd₁, m₁⟩, turn, rest⟩ := bind_ok_iff.mp h
    have moves := turnMoves (by omega) kernel turn
    cases first with
    | false => cases rest; exact moves
    | true =>
      obtain ⟨nextA, nextP⟩ := mapLoop_step_args room fits
      dsimp only at rest
      rw [if_pos rfl, nextA, nextP] at rest
      refine moves.trans (ih (by simp only [pgsize]; omega) ?_ (by omega) rest)
      rw [vpn_add_pgsize]
      omega

/-- The loop does not panic over pages that are not mapped. -/
theorem mapLoop_total (perm : Perm) (m : Kmem) (room : a + n * 4096 < 4294967296)
    (fits : ppn + n < 1048576)
    (free : ∀ v, vpn a ≤ v → v ≤ vpn a + n → pd.lookup v = none) :
    ∃ ok pd' m', mapLoop perm n a ppn pd m = .ok (ok, pd', m') := by
  induction n generalizing a ppn pd m with
  | zero => exact mapPage_total ppn perm m (by omega) (free _ (by omega) (by omega))
  | succ n ih =>
    obtain ⟨first, pd₁, m₁, turn⟩ := mapPage_total ppn perm m
      (by omega : a < 4294967296) (free _ (by omega) (by omega))
    simp only [mapLoop, turn, bind, Except.bind]
    cases first with
    | false => exact ⟨_, _, _, rfl⟩
    | true =>
      obtain ⟨nextA, nextP⟩ := mapLoop_step_args room fits
      rw [if_pos rfl, nextA, nextP]
      refine ih m₁ (by simp only [pgsize]; omega) (by omega) fun v low high => ?_
      rw [vpn_add_pgsize] at low high
      rw [mapPage_lookup (by omega) turn, if_neg (by omega)]
      exact free v (by omega) (by omega)

end RandomRepo.Xv6

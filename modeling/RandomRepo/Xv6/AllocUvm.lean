import RandomRepo.Xv6.Dealloc
import RandomRepo.Xv6.Mappages

/-!
# Growing an address space

`allocuvm` maps a zeroed page at every page address of its range, or gives back
what it took and reports 0.  `page_fault_handler` is one turn of the same loop,
at any page address and without a look at the size of the process.
-/

namespace RandomRepo.Xv6

variable {L : Layout} {pd pd' pd₁ : Pgdir} {m m₁ m₂ m' : Kmem} {T R : Multiset Nat}
  {a p v oldsz newsz : Nat} {ok : Bool} {perm : Perm}

/-! ## Mapping a page fresh from the allocator -/

/-- The page is the directory's, with what its new owner wrote into it. -/
theorem mapPage_new (page : kalloc m = (some p, m₁)) (fill : Moves L m₁ {p} m₂ {p})
    (ha : a < 4294967296) (owned : Owned (vpn a) (perm.entry p))
    (turn : mapPage pd a p perm m₂ = .ok (true, pd', m')) :
    ∃ fresh, Gains L 0 pd m pd' m' fresh ∧
      fresh.card = 1 + if (pd.pde (pdx a)).isSome then 0 else 1 := by
  obtain ⟨tab, gains, card⟩ := mapPage_gains (L := L) ha turn
  rw [if_pos owned] at gains
  refine ⟨{p} + tab, ⟨by rw [gains.pages, zero_add], ?_⟩, ?_⟩
  · have mapped := (gains.moves.frame {p}).congr (zero_add _) (add_comm tab {p})
    exact ((kalloc_some_moves page).trans fill).trans mapped
  · rw [Multiset.card_add, card, Multiset.card_singleton]

/-- Without memory for a page table nothing is mapped, and the page is still the caller's. -/
theorem mapPage_new_fail (page : kalloc m = (some p, m₁)) (fill : Moves L m₁ {p} m₂ {p})
    (ha : a < 4294967296) (turn : mapPage pd a p perm m₂ = .ok (false, pd', m')) :
    pd' = pd ∧ pd.pde (pdx a) = none ∧ m₂.freelist = [] ∧ m'.oom = true ∧ Moves L m 0 m' {p} := by
  rcases mapPage_cases ha turn with ⟨-, rfl, absent, none_⟩ | ⟨impossible, -⟩
  · obtain ⟨empty, oom⟩ := kalloc_none_oom none_
    refine ⟨rfl, absent, empty, oom, ((kalloc_some_moves page).trans fill).trans ?_⟩
    exact ((kalloc_none_moves none_).frame {p}).congr (zero_add _) (zero_add _)
  · cases impossible

theorem owned_user (v p : Nat) : Owned v (permUser.entry p) := .inr rfl

/-! ## The loop of `allocuvm` -/

/-- `pd'` is `pd` with user pages at all page numbers from `lo` up to `newsz`, none of which
was mapped. -/
structure NewPages (pd : Pgdir) (lo newsz : Nat) (pd' : Pgdir) : Prop where
  other : ∀ v, ¬ (lo ≤ v ∧ v * 4096 < newsz) → pd'.lookup v = pd.lookup v
  unmapped : ∀ v, lo ≤ v → v * 4096 < newsz → pd.lookup v = none
  entry : ∀ v, lo ≤ v → v * 4096 < newsz → ∃ p, pd'.lookup v = some (permUser.entry p)

theorem NewPages.refl (h : newsz ≤ a) (aligned : a % 4096 = 0) :
    NewPages pd (vpn a) newsz pd := by
  have none_ : ∀ v, vpn a ≤ v → ¬ v * 4096 < newsz := by
    intro v low high
    simp only [vpn, pgsize] at low
    omega
  exact ⟨fun _ _ => rfl, fun v low high => absurd high (none_ v low),
    fun v low high => absurd high (none_ v low)⟩

/-- One more page in front. -/
theorem NewPages.cons (inside : a < newsz) (aligned : a % 4096 = 0)
    (unmapped : pd.lookup (vpn a) = none)
    (lookup : ∀ v, pd₁.lookup v = if v = vpn a then some (permUser.entry p) else pd.lookup v)
    (rest : NewPages pd₁ (vpn (a + pgsize)) newsz pd') : NewPages pd (vpn a) newsz pd' := by
  rw [vpn_add_pgsize] at rest
  have here : vpn a * 4096 < newsz := by
    simp only [vpn, pgsize]
    omega
  refine ⟨fun v outside => ?_, fun v low high => ?_, fun v low high => ?_⟩
  · rw [rest.other v (by omega), lookup, if_neg]
    rintro rfl
    exact outside ⟨Nat.le_refl _, here⟩
  · by_cases first : v = vpn a
    · rw [first]; exact unmapped
    · have later := rest.unmapped v (by omega) high
      rwa [lookup, if_neg first] at later
  · by_cases first : v = vpn a
    · refine ⟨p, ?_⟩
      rw [rest.other v (by omega), lookup, if_pos first]
    · exact rest.entry v (by omega) high

/-- The user pages from `lo` up to `newsz` are all zero. -/
def Zeroed (pd : Pgdir) (m : Kmem) (lo newsz : Nat) : Prop :=
  ∀ v e, lo ≤ v → v * 4096 < newsz → pd.lookup v = some e → m.data e.ppn = fun _ => 0

/-- What `allocuvm` leaves behind when it runs out of memory. -/
structure Undone (L : Layout) (pd : Pgdir) (m : Kmem) (lo newsz : Nat) (pd' : Pgdir)
    (m' : Kmem) : Prop where
  oom : m'.oom = true
  lookup : ∀ v, pd'.lookup v = if lo ≤ v ∧ v * 4096 < newsz then none else pd.lookup v
  moves : Moves L m pd.pages m' pd'.pages

/-- A turn that maps its page. -/
theorem allocLoop_turn (L : Layout) (aligned : a % 4096 = 0) (ha : a < kernbase)
    (page : kalloc m = (some p, m₁))
    (turn : mappages pd a pgsize p permUser (m₁.memset p 0) = .ok (true, pd₁, m₂)) :
    mapPage pd a p permUser (m₁.memset p 0) = .ok (true, pd₁, m₂) ∧
      pd.lookup (vpn a) = none ∧
      (∀ v, pd₁.lookup v = if v = vpn a then some (permUser.entry p) else pd.lookup v) ∧
      (a + pgsize) % 4096 = 0 ∧ ∃ fresh, Gains L 0 pd m pd₁ m₂ fresh := by
  have kern : kernbase = 2147483648 := rfl
  rw [mappages_one (by omega) aligned] at turn
  obtain ⟨fresh, gains, -⟩ :=
    mapPage_new page (memset_moves (L := L) 0) (by omega) (owned_user _ _) turn
  refine ⟨turn, ?_, mapPage_lookup (by omega) turn, ?_, fresh, gains⟩
  · rcases mapPage_cases (by omega) turn with ⟨impossible, -⟩ | ⟨-, free, -⟩
    · cases impossible
    · exact free
  · simp only [pgsize]
    omega

theorem allocLoop_spec {a r : Nat} {pd : Pgdir} {m : Kmem} (aligned : a % 4096 = 0)
    (bound : newsz ≤ kernbase) (start : oldsz ≤ a) (range : pgroundup oldsz ≤ a)
    (h : allocLoop L oldsz newsz a pd m = .ok (r, pd', m')) :
    (r = newsz ∧ NewPages pd (vpn a) newsz pd' ∧ (∃ fresh, Gains L 0 pd m pd' m' fresh) ∧
        ∀ T R, Owns L T m (pd.pages + R) → Zeroed pd' m' (vpn a) newsz) ∨
      (r = 0 ∧ a < newsz ∧ Undone L pd m (vpn (pgroundup oldsz)) newsz pd' m') := by
  have kern : kernbase = 2147483648 := rfl
  rcases allocLoop_cases h with
    ⟨outside, rfl, rfl, rfl⟩ | ⟨inside, rfl, m₁, s, page, dealloc⟩ |
      ⟨inside, rfl, p, m₁, pd₁, m₂, s, m₃, page, turn, dealloc, free⟩ |
      ⟨inside, p, m₁, pd₁, m₂, page, turn, rest⟩
  · refine .inl ⟨rfl, .refl outside aligned, ⟨0, by simp, .refl _ _ _⟩, ?_⟩
    intro T R owns v e low high
    simp only [vpn, pgsize] at low
    omega
  · obtain ⟨-, cleared, frees⟩ := deallocuvm_spec bound (by omega) dealloc
    refine .inr ⟨rfl, inside, (deallocuvm_oom dealloc).trans (kalloc_none_oom page).2,
      cleared.lookup, ?_⟩
    exact ((kalloc_none_moves page).frame pd.pages).congr (zero_add _) (zero_add _) |>.trans
      frees.moves
  · rw [mappages_one (by omega) aligned] at turn
    obtain ⟨rfl, -, -, oom, held⟩ := mapPage_new_fail page (memset_moves (L := L) 0) (by omega) turn
    obtain ⟨-, cleared, frees⟩ := deallocuvm_spec bound (by omega) dealloc
    refine .inr ⟨rfl, inside, ?_, cleared.lookup, ?_⟩
    · exact (kfree_oom free).trans ((deallocuvm_oom dealloc).trans oom)
    · have took := (held.frame pd₁.pages).congr (zero_add _) (add_comm _ _)
      have gave := ((kfree_moves free).frame pd'.pages).congr (add_comm _ _) (zero_add _)
      exact (took.trans (frees.moves.frame {p})).trans gave
  · obtain ⟨turn, unmapped, lookup, next, fresh, gains⟩ :=
      allocLoop_turn L aligned (by omega) page turn
    rcases allocLoop_spec next bound (by omega) (by omega) rest with
      ⟨rfl, pages, ⟨fresh', gains'⟩, zeroed⟩ | ⟨rfl, -, undone⟩
    · refine .inl ⟨rfl, .cons inside aligned unmapped lookup pages, ⟨_, gains.trans gains'⟩, ?_⟩
      intro T R owns v e low high mapped
      have owns₁ : Owns L T m₂ (pd₁.pages + R) :=
        gains.moved.owns (owns.congr (by rw [zero_add]))
      by_cases here : v = vpn a
      · -- the first page keeps its zeros while the others are mapped
        have first : pd₁.lookup v = some (permUser.entry p) := (lookup v).trans (if_pos here)
        rw [pages.other v (by rw [vpn_add_pgsize]; omega), first] at mapped
        cases mapped
        have held := Pgdir.leaf_mem_pages (by rw [here]; exact vpn_lt (by omega)) first
          (owned_user v p)
        rw [gains'.data owns₁ (Multiset.mem_add.mpr (.inl held)), mapPage_data (by omega) turn]
        exact Function.update_self p _ _
      · exact zeroed T R owns₁ v e (by rw [vpn_add_pgsize]; omega) high mapped
    · refine .inr ⟨rfl, inside, undone.oom, fun v => ?_, ?_⟩
      · rw [undone.lookup, lookup]
        by_cases here : v = vpn a
        · rw [if_pos (by rw [here]; simp only [vpn, pgsize]; omega),
            if_pos (by rw [here]; simp only [vpn, pgsize]; omega)]
        · rw [if_neg here]
      · have moved := gains.moved
        rw [zero_add] at moved
        exact moved.trans undone.moves
  termination_by newsz - a
  decreasing_by simp only [pgsize]; omega

theorem allocLoop_total {a : Nat} {pd : Pgdir} {m : Kmem} (aligned : a % 4096 = 0)
    (bound : newsz ≤ kernbase) (start : oldsz ≤ a)
    (unmapped : ∀ v, vpn a ≤ v → v * 4096 < newsz → pd.lookup v = none)
    (owns : Owns L T m (pd.pages + R)) :
    ∃ r pd' m', allocLoop L oldsz newsz a pd m = .ok (r, pd', m') := by
  have kern : kernbase = 2147483648 := rfl
  by_cases inside : a < newsz
  · have here : vpn a * 4096 < newsz := by
      simp only [vpn, pgsize]
      omega
    rcases page : kalloc m with ⟨_ | p, m₁⟩
    · have owns₁ := (kalloc_none_moves page).owns (owns.congr (zero_add _).symm)
      obtain ⟨r, pd', m', dealloc⟩ :=
        deallocuvm_total oldsz bound (owns₁.congr (zero_add _))
      refine ⟨0, pd', m', ?_⟩
      rw [allocLoop, if_pos inside, page]
      exact bind_ok_iff.mpr ⟨_, dealloc, rfl⟩
    · have fill : Moves L m₁ {p} (m₁.memset p 0) {p} := memset_moves 0
      obtain ⟨ok, pd₁, m₂, turn⟩ := mapPage_total p permUser (m₁.memset p 0)
        (by omega : a < 4294967296) (unmapped _ (Nat.le_refl _) here)
      have turn' := (mappages_one (by omega) aligned).trans turn
      cases ok with
      | true =>
        obtain ⟨fresh, gains, -⟩ := mapPage_new page fill (by omega) (owned_user _ _) turn
        have owns₁ : Owns L T m₂ (pd₁.pages + R) :=
          gains.moved.owns (owns.congr (by rw [zero_add]))
        have next : (a + pgsize) % 4096 = 0 := by simp only [pgsize]; omega
        rw [allocLoop_next inside page turn']
        refine allocLoop_total next bound (by omega) (fun v low high => ?_) owns₁
        rw [vpn_add_pgsize] at low
        rw [mapPage_lookup (by omega) turn, if_neg (by omega)]
        exact unmapped v (by omega) high
      | false =>
        obtain ⟨rfl, -, -, -, held⟩ := mapPage_new_fail page fill (by omega) turn
        have owns₁ := (held.owns (owns.congr (zero_add _).symm)).congr (add_left_comm _ _ _)
        obtain ⟨r, pd', m₃, dealloc⟩ := deallocuvm_total oldsz bound owns₁
        obtain ⟨-, -, frees⟩ := deallocuvm_spec bound (by omega) dealloc
        obtain ⟨m', free⟩ := (frees.moves.owns owns₁).kfree (Multiset.mem_add.mpr
          (.inr (Multiset.mem_add.mpr (.inl (Multiset.mem_singleton_self p)))))
        refine ⟨0, pd', m', ?_⟩
        rw [allocLoop, if_pos inside, page]
        exact bind_ok_iff.mpr ⟨_, turn', bind_ok_iff.mpr ⟨_, dealloc,
          bind_ok_iff.mpr ⟨m', free, rfl⟩⟩⟩
  · rw [allocLoop, if_neg inside]
    exact ⟨_, _, _, rfl⟩
  termination_by newsz - a
  decreasing_by simp only [pgsize]; omega

/-- A new page takes two pages at most, and memory is not exhausted by it. -/
theorem mapPage_new_room (page : kalloc m = (some p, m₁)) (fill : Moves L m₁ {p} m₂ {p})
    (ha : a < 4294967296) (owned : Owned (vpn a) (perm.entry p)) (same : m₂.oom = m₁.oom)
    (turn : mapPage pd a p perm m₂ = .ok (true, pd', m')) (owns : Owns L T m (pd.pages + R)) :
    m'.oom = m.oom ∧ m.freelist.length ≤ m'.freelist.length + 2 := by
  obtain ⟨fresh, gains, card⟩ := mapPage_new page fill ha owned turn
  refine ⟨(mapPage_oom turn).trans (same.trans (kalloc_some_oom page)), ?_⟩
  have count := gains.length owns
  have grown := congrArg Multiset.card gains.pages
  rw [zero_add, Multiset.card_add, card] at grown
  split_ifs at grown <;> omega

/-- With two pages for each new one the loop does not run out of memory. -/
theorem allocLoop_room {a r : Nat} {pd : Pgdir} {m : Kmem} (aligned : a % 4096 = 0)
    (bound : newsz ≤ kernbase) (owns : Owns L T m (pd.pages + R))
    (h : allocLoop L oldsz newsz a pd m = .ok (r, pd', m')) :
    Spends (2 * (npages newsz - vpn a)) m m' := by
  intro room
  have kern : kernbase = 2147483648 := rfl
  have more : a < newsz → vpn a < npages newsz := by
    intro inside
    simp only [vpn, pgsize, npages]
    omega
  rcases allocLoop_cases h with
    ⟨outside, rfl, rfl, rfl⟩ | ⟨inside, rfl, m₁, s, page, dealloc⟩ |
      ⟨inside, rfl, p, m₁, pd₁, m₂, s, m₃, page, turn, dealloc, free⟩ |
      ⟨inside, p, m₁, pd₁, m₂, page, turn, rest⟩
  · exact ⟨rfl, by omega⟩
  · have := more inside
    rw [(kalloc_none_oom page).1, List.length_nil] at room
    omega
  · have := more inside
    rw [mappages_one (by omega) aligned] at turn
    obtain ⟨-, -, empty, -⟩ := mapPage_new_fail page (memset_moves (L := L) 0) (by omega) turn
    have empty : m₁.freelist.length = 0 := List.length_eq_zero_iff.mpr empty
    have := kalloc_length page
    omega
  · have := more inside
    have step := vpn_add_pgsize a
    obtain ⟨turn, -, -, next, fresh, gains⟩ := allocLoop_turn L aligned (by omega) page turn
    obtain ⟨oom, left⟩ := mapPage_new_room page (memset_moves (L := L) 0) (by omega)
      (owned_user _ _) rfl turn owns
    obtain ⟨oom', left'⟩ := allocLoop_room next bound
      (gains.moved.owns (owns.congr (by rw [zero_add]))) rest (by omega)
    exact ⟨oom'.trans oom, by omega⟩
  termination_by newsz - a
  decreasing_by simp only [pgsize]; omega

/-! ## `allocuvm` -/

/-- The ways `allocuvm` returns. -/
inductive Allocuvm (L : Layout) (pd : Pgdir) (oldsz newsz : Nat) (m : Kmem) :
    Nat → Pgdir → Kmem → Prop
  | tooBig (big : kernbase ≤ newsz) : Allocuvm L pd oldsz newsz m 0 pd m
  | smaller (fits : newsz < kernbase) (less : newsz < oldsz) :
      Allocuvm L pd oldsz newsz m oldsz pd m
  | grown {pd' : Pgdir} {m' : Kmem} (fits : newsz < kernbase) (more : oldsz ≤ newsz)
      (pages : NewPages pd (npages oldsz) newsz pd')
      (gains : ∃ fresh, Gains L 0 pd m pd' m' fresh)
      (zeroed : ∀ T R, Owns L T m (pd.pages + R) → Zeroed pd' m' (npages oldsz) newsz) :
      Allocuvm L pd oldsz newsz m newsz pd' m'
  | outOfMemory {pd' : Pgdir} {m' : Kmem} (fits : newsz < kernbase) (more : oldsz < newsz)
      (undone : Undone L pd m (npages oldsz) newsz pd' m') :
      Allocuvm L pd oldsz newsz m 0 pd' m'

theorem le_pgroundup {sz : Nat} (h : sz ≤ kernbase) : sz ≤ pgroundup sz := by
  simp only [kernbase] at h
  rw [pgroundup_of_le (by omega)]
  omega

theorem allocuvm_spec {r : Nat} (h : allocuvm L pd oldsz newsz m = .ok (r, pd', m')) :
    Allocuvm L pd oldsz newsz m r pd' m' := by
  have kern : kernbase = 2147483648 := rfl
  rw [allocuvm] at h
  by_cases big : kernbase ≤ newsz
  · rw [if_pos big] at h
    cases h
    exact .tooBig big
  · rw [if_neg big] at h
    by_cases less : newsz < oldsz
    · rw [if_pos less] at h
      cases h
      exact .smaller (by omega) less
    · rw [if_neg less] at h
      have page : vpn (pgroundup oldsz) = npages oldsz := vpn_pgroundup (by omega)
      have start : oldsz ≤ pgroundup oldsz := le_pgroundup (by omega)
      have spec := allocLoop_spec (pgroundup_aligned oldsz) (by omega) start (Nat.le_refl _) h
      rw [page] at spec
      rcases spec with ⟨rfl, pages, gains, zeroed⟩ | ⟨rfl, inside, undone⟩
      · exact .grown (by omega) (by omega) pages gains zeroed
      · exact .outOfMemory (by omega) (by omega) undone

theorem allocuvm_room {r : Nat} (owns : Owns L T m (pd.pages + R))
    (h : allocuvm L pd oldsz newsz m = .ok (r, pd', m')) :
    Spends (2 * (npages newsz - npages oldsz)) m m' := by
  have kern : kernbase = 2147483648 := rfl
  intro room
  rw [allocuvm] at h
  split_ifs at h with big less
  · cases h
    exact ⟨rfl, by omega⟩
  · cases h
    exact ⟨rfl, by omega⟩
  · have page : vpn (pgroundup oldsz) = npages oldsz := vpn_pgroundup (by omega)
    rw [← page] at room ⊢
    exact allocLoop_room (pgroundup_aligned oldsz) (by omega) owns h room

theorem Allocuvm.moves {r : Nat} (alloc : Allocuvm L pd oldsz newsz m r pd' m') :
    Moves L m pd.pages m' pd'.pages := by
  cases alloc with
  | tooBig => exact .refl _ _ _
  | smaller => exact .refl _ _ _
  | grown _ _ _ gains _ =>
    obtain ⟨fresh, gains⟩ := gains
    have moved := gains.moved
    rwa [zero_add] at moved
  | outOfMemory _ _ undone => exact undone.moves

/-- Over pages that are not mapped `allocuvm` does not panic. -/
theorem allocuvm_total
    (unmapped : ∀ v, npages oldsz ≤ v → v * 4096 < newsz → pd.lookup v = none)
    (owns : Owns L T m (pd.pages + R)) :
    ∃ r pd' m', allocuvm L pd oldsz newsz m = .ok (r, pd', m') := by
  have kern : kernbase = 2147483648 := rfl
  rw [allocuvm]
  by_cases big : kernbase ≤ newsz
  · exact ⟨_, _, _, if_pos big⟩
  · rw [if_neg big]
    by_cases less : newsz < oldsz
    · exact ⟨_, _, _, if_pos less⟩
    · rw [if_neg less]
      refine allocLoop_total (pgroundup_aligned oldsz) (by omega) (le_pgroundup (by omega))
        (fun v low high => unmapped v ?_ high) owns
      rwa [vpn_pgroundup (by omega)] at low

/-- With enough memory it grows. -/
theorem allocuvm_grows
    (unmapped : ∀ v, npages oldsz ≤ v → v * 4096 < newsz → pd.lookup v = none)
    (owns : Owns L T m (pd.pages + R)) (fine : m.oom = false) (fits : newsz < kernbase)
    (more : oldsz ≤ newsz) (room : 2 * (npages newsz - npages oldsz) ≤ m.freelist.length) :
    ∃ pd' m', allocuvm L pd oldsz newsz m = .ok (newsz, pd', m') ∧
      NewPages pd (npages oldsz) newsz pd' ∧ Owns L T m' (pd'.pages + R) ∧ m'.oom = false ∧
      m.freelist.length ≤ m'.freelist.length + 2 * (npages newsz - npages oldsz) := by
  obtain ⟨r, pd', m', alloc⟩ := allocuvm_total unmapped owns
  obtain ⟨oom, left⟩ := allocuvm_room owns alloc room
  have spec := allocuvm_spec alloc
  have owns' := spec.moves.owns owns
  cases spec with
  | tooBig big => omega
  | smaller _ less => omega
  | grown _ _ pages => exact ⟨pd', m', alloc, pages, owns', oom.trans fine, left⟩
  | outOfMemory _ _ undone =>
    rw [undone.oom, fine] at oom
    cases oom

/-! ## `page_fault_handler` -/

/-- The ways the handler returns. -/
inductive Fault (L : Layout) (pd : Pgdir) (a : Nat) (m : Kmem) : Bool → Pgdir → Kmem → Prop
  | mapped {pd' : Pgdir} {m' : Kmem} {p : Nat} (absent : pd.lookup (vpn a) = none)
      (lookup : ∀ v, pd'.lookup v =
        if v = vpn a then some (permUser.entry p) else pd.lookup v)
      (gains : ∃ fresh, Gains L 0 pd m pd' m' fresh ∧ fresh.card ≤ 2)
      (zero : m'.data p = fun _ => 0) : Fault L pd a m true pd' m'
  | outOfMemory {m' : Kmem} (oom : m'.oom = true) (moves : Moves L m 0 m' 0)
      (few : m.freelist.length ≤ 1) : Fault L pd a m false pd m'

theorem pageFaultHandler_spec (ha : a < 4294967296) (aligned : a % 4096 = 0)
    (h : pageFaultHandler L pd a m = .ok (ok, pd', m')) : Fault L pd a m ok pd' m' := by
  rcases pageFaultHandler_cases h with
    ⟨rfl, rfl, page⟩ | ⟨rfl, p, m₁, m₂, page, turn, free⟩ | ⟨rfl, p, m₁, page, turn⟩
  · exact .outOfMemory (kalloc_none_oom page).2 (kalloc_none_moves page)
      (by simp [(kalloc_none_oom page).1])
  · rw [mappages_one ha aligned] at turn
    obtain ⟨rfl, -, empty, oom, held⟩ := mapPage_new_fail page (memset_moves (L := L) 0) ha turn
    refine .outOfMemory ((kfree_oom free).trans oom) (held.trans (kfree_moves free)) ?_
    rcases kalloc_cases page with ⟨-, impossible, -⟩ | ⟨q, rest, list, -, rfl⟩
    · cases impossible
    · have last : rest = [] := empty
      rw [list, last]
      exact Nat.le_refl 1
  · rw [mappages_one ha aligned] at turn
    obtain ⟨fresh, gains, card⟩ :=
      mapPage_new page (memset_moves (L := L) 0) ha (owned_user _ _) turn
    rcases mapPage_cases ha turn with ⟨impossible, -⟩ | ⟨-, absent, -⟩
    · cases impossible
    · have few : fresh.card ≤ 2 := by split_ifs at card <;> omega
      refine .mapped absent (mapPage_lookup ha turn) ⟨fresh, gains, few⟩ ?_
      rw [mapPage_data ha turn]
      exact Function.update_self p _ _

theorem Fault.moves (fault : Fault L pd a m ok pd' m') : Moves L m pd.pages m' pd'.pages := by
  cases fault with
  | mapped _ _ gains _ =>
    obtain ⟨fresh, gains, -⟩ := gains
    have moved := gains.moved
    rwa [zero_add] at moved
  | outOfMemory _ moves => exact (moves.frame pd.pages).congr (zero_add _) (zero_add _)

theorem pageFaultHandler_room (ha : a < 4294967296) (aligned : a % 4096 = 0)
    (owns : Owns L T m (pd.pages + R)) (h : pageFaultHandler L pd a m = .ok (ok, pd', m')) :
    Spends 2 m m' := by
  intro room
  rcases pageFaultHandler_cases h with
    ⟨rfl, rfl, page⟩ | ⟨rfl, p, m₁, m₂, page, turn, free⟩ | ⟨rfl, p, m₁, page, turn⟩
  · rw [(kalloc_none_oom page).1, List.length_nil] at room
    omega
  · rw [mappages_one ha aligned] at turn
    obtain ⟨-, -, empty, -⟩ := mapPage_new_fail page (memset_moves (L := L) 0) ha turn
    have empty : m₁.freelist.length = 0 := List.length_eq_zero_iff.mpr empty
    have := kalloc_length page
    omega
  · rw [mappages_one ha aligned] at turn
    exact mapPage_new_room page (memset_moves (L := L) 0) ha (owned_user _ _) rfl turn owns

/-- A failed `kalloc` is not forgotten. -/
theorem pageFaultHandler_oom (ha : a < 4294967296) (aligned : a % 4096 = 0)
    (h : pageFaultHandler L pd a m = .ok (ok, pd', m')) (failed : m.oom = true) :
    m'.oom = true := by
  rcases pageFaultHandler_cases h with
    ⟨-, -, page⟩ | ⟨-, p, m₁, m₂, page, turn, free⟩ | ⟨-, p, m₁, page, turn⟩
  · exact (kalloc_none_oom page).2
  · rw [mappages_one ha aligned] at turn
    obtain ⟨-, -, -, oom, -⟩ := mapPage_new_fail page (memset_moves (L := L) 0) ha turn
    exact (kfree_oom free).trans oom
  · rw [mappages_one ha aligned] at turn
    exact (mapPage_oom turn).trans ((kalloc_some_oom page).trans failed)

/-- The handler returns unless it finds a page to map and the entry already present; then
`mappages` panics. -/
theorem pageFaultHandler_total (ha : a < 4294967296) (aligned : a % 4096 = 0)
    (ram : ∀ p ∈ m.freelist, L.InRam p) (harmless : pd.lookup (vpn a) = none ∨ m.freelist = []) :
    ∃ ok pd' m', pageFaultHandler L pd a m = .ok (ok, pd', m') := by
  unfold pageFaultHandler
  rcases page : kalloc m with ⟨_ | p, m₁⟩
  · exact ⟨_, _, _, rfl⟩
  · rcases kalloc_cases page with ⟨-, impossible, -⟩ | ⟨q, rest, free, hq, rfl⟩
    · cases impossible
    · cases hq
      have absent : pd.lookup (vpn a) = none := by
        rcases harmless with absent | empty
        · exact absent
        · rw [free] at empty; cases empty
      obtain ⟨ok, pd₁, m₂, turn⟩ := mapPage_total p permUser
        (Kmem.memset { m with freelist := rest } p 0) ha absent
      have turn' := (mappages_one ha aligned).trans turn
      cases ok with
      | true => exact ⟨true, pd₁, m₂, bind_ok_iff.mpr ⟨_, turn', rfl⟩⟩
      | false =>
        have inRam : L.InRam p := ram p (by rw [free]; exact List.mem_cons_self)
        exact ⟨false, pd₁, _, bind_ok_iff.mpr ⟨_, turn', bind_ok_iff.mpr ⟨_, kfree_ok inRam, rfl⟩⟩⟩

theorem pageFaultHandler_remap (ha : a < 4294967296) (aligned : a % 4096 = 0) {e : Pte}
    (mapped : pd.lookup (vpn a) = some e) (some_ : m.freelist ≠ []) :
    pageFaultHandler L pd a m = .error (.panic .remap) := by
  unfold pageFaultHandler
  rcases page : kalloc m with ⟨_ | p, m₁⟩
  · exact absurd (kalloc_none_oom page).1 some_
  · exact bind_error_iff.mpr (.inl ((mappages_one ha aligned).trans (mapPage_remap ha mapped)))

end RandomRepo.Xv6

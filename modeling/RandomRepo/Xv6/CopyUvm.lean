import RandomRepo.Xv6.AllocUvm
import RandomRepo.Xv6.Setupkvm

/-!
# Copying an address space

`copyuvm` needs every page below the size to be present.  After `j` turns its
copy holds `copyPages j` pages: the 65 of `setupkvm`, `j` user pages and a page
table for every 1024 of them.  So it stops at the first page that is absent if
memory lasts that long, and otherwise returns: 0 and every page given back, or
a directory that maps a copy of each page.
-/

namespace RandomRepo.Xv6

variable {L : Layout} {src d d' : Pgdir} {m m' : Kmem} {T R : Multiset Nat}
  {M : Nat → PageData} {j n sz turns : Nat}

/-- Pages of a copy of the first `j` pages. -/
def copyPages (j : Nat) : Nat := 65 + j + (j + 1023) / 1024

/-- The copy after `j` turns of the loop. -/
structure Copied (L : Layout) (src : Pgdir) (j : Nat) (d : Pgdir) : Prop where
  kernel : ∀ v, j ≤ v → d.lookup v = kernelEntry L v
  copy : ∀ v, v < j → ∃ e p, src.lookup v = some e ∧ d.lookup v = some (e.perm.entry p)
  table : ∀ i, (d.pde i).isSome ↔ KernTable i ∨ i * 1024 < j
  card : d.pages.card = copyPages j

/-- The first `n` pages of `d` hold what those of `src` hold in `M`. -/
def CopyOf (src : Pgdir) (M : Nat → PageData) (d : Pgdir) (m : Kmem) (n : Nat) : Prop :=
  ∀ v e f, v < n → src.lookup v = some e → d.lookup v = some f → m.data f.ppn = M e.ppn

theorem kernelEntry_user {v : Nat} (h : v < kernPage) : kernelEntry L v = none := by
  have kp : kernPage = 524288 := rfl
  rw [kernelEntry, if_neg (by omega), if_neg (by omega)]

theorem kernelEntry_u {v : Nat} {e : Pte} (h : kernelEntry L v = some e) : e.u = false := by
  unfold kernelEntry at h
  split_ifs at h <;> (rw [← Option.some.inj h])

/-- The entries of the kernel own nothing. -/
theorem kernelEntry_not_owned {v : Nat} {e : Pte} (h : kernelEntry L v = some e) : ¬ Owned v e := by
  rintro (user | flag)
  · rw [kernelEntry_user user] at h
    cases h
  · rw [kernelEntry_u h] at flag
    cases flag

theorem KernelHalf.copied (half : KernelHalf L d) : Copied L src 0 d where
  kernel v _ := half.lookup v
  copy v hv := absurd hv (Nat.not_lt_zero v)
  table i := by simp [half.isSome_iff]
  card := half.card_pages

theorem Copied.stranded (copied : Copied L src j d) (user : j ≤ kernPage) : d.stranded = 0 := by
  refine Pgdir.stranded_eq_zero fun v e high mapped => ?_
  rw [copied.kernel v (by omega)] at mapped
  exact kernelEntry_u mapped

theorem vpn_page (j : Nat) : vpn (j * 4096) = j :=
  Nat.mul_div_cancel j (by decide)

theorem pdx_page (h : j < kernPage) : pdx (j * 4096) = j / 1024 := by
  have kp : kernPage = 524288 := rfl
  rw [pdx_vpn (by omega), vpn_page]

/-- One more page. -/
theorem Copied.next {e : Pte} {p : Nat} {m₁ m₂ : Kmem} (copied : Copied L src j d)
    (user : j < kernPage) (mapped : src.lookup j = some e) (page : kalloc m = (some p, m₁))
    (fill : Moves L m₁ {p} m₂ {p})
    (turn : mapPage d (j * 4096) p e.perm m₂ = .ok (true, d', m')) :
    Copied L src (j + 1) d' ∧ ∃ fresh, Gains L 0 d m d' m' fresh := by
  have kp : kernPage = 524288 := rfl
  have ha : j * 4096 < 4294967296 := by omega
  have lookup := mapPage_lookup ha turn
  rw [vpn_page] at lookup
  obtain ⟨fresh, gains, card⟩ := mapPage_new page fill ha (.inl (by rw [vpn_page]; exact user)) turn
  refine ⟨⟨fun v hv => ?_, fun v hv => ?_, fun i => ?_, ?_⟩, fresh, gains⟩
  · rw [lookup, if_neg (by omega)]
    exact copied.kernel v (by omega)
  · by_cases here : v = j
    · exact ⟨e, p, by rw [here]; exact mapped, by rw [lookup, if_pos here]⟩
    · rw [lookup, if_neg here]
      exact copied.copy v (by omega)
  · rw [mapPage_isSome ha turn, copied.table, pdx_page user]
    simp only [eq_self, true_and, KernTable]
    omega
  · have table : (d.pde (pdx (j * 4096))).isSome ↔ j % 1024 ≠ 0 := by
      rw [pdx_page user, copied.table]
      unfold KernTable
      omega
    rw [gains.pages, zero_add, Multiset.card_add, card, copied.card]
    simp only [copyPages, table]
    split_ifs <;> omega

/-- The new page is a copy, and so are the old ones still. -/
theorem CopyOf.next {e : Pte} {p : Nat} {fresh : Multiset Nat} {m₁ : Kmem}
    (copy : CopyOf src M d m j) (user : j < kernPage) (mapped : src.lookup j = some e)
    (data : m₁.data = m.data) (owns : Owns L T m (d.pages + R)) (same : m.data e.ppn = M e.ppn)
    (gains : Gains L 0 d m d' m' fresh)
    (turn : mapPage d (j * 4096) p e.perm (m₁.copyPage p e.ppn) = .ok (true, d', m')) :
    CopyOf src M d' m' (j + 1) := by
  have kp : kernPage = 524288 := rfl
  have ha : j * 4096 < 4294967296 := by omega
  have lookup := mapPage_lookup ha turn
  rw [vpn_page] at lookup
  intro v e' f hv atSrc atD
  rw [lookup] at atD
  by_cases here : v = j
  · rw [if_pos here] at atD
    rw [here, mapped] at atSrc
    cases atSrc
    cases atD
    rw [mapPage_data ha turn, ← same, ← data]
    exact Function.update_self p _ _
  · rw [if_neg here] at atD
    have inD : f.ppn ∈ d.pages :=
      Pgdir.leaf_mem_pages (by rw [vpages_eq]; omega) atD (.inl (by omega))
    rw [gains.data owns (Multiset.mem_add.mpr (.inl inD))]
    exact copy v e' f (by omega) atSrc atD

/-! ## The loop -/

/-- The ways the loop of `copyuvm` returns, from page `j` on. -/
inductive Copy (L : Layout) (src : Pgdir) (j n : Nat) (d : Pgdir) (m : Kmem) :
    Option Pgdir → Kmem → Prop
  | done {d' : Pgdir} {m' : Kmem} (copied : Copied L src n d')
      (gains : ∃ fresh, Gains L 0 d m d' m' fresh)
      (copy : ∀ T R M, Owns L T m (d.pages + R) → (∀ q ∈ R, m.data q = M q) →
        (∀ v e, v < n → src.lookup v = some e → e.ppn ∈ R) → CopyOf src M d m j →
        CopyOf src M d' m' n) :
      Copy L src j n d m (some d') m'
  | outOfMemory {m' : Kmem} {k : Nat} (before : k < n) (moves : Moves L m d.pages m' 0)
      (present : ∀ v, v ≤ k → (src.lookup v).isSome)
      (few : ∀ T R, Owns L T m (d.pages + R) →
        m.freelist.length + d.pages.card < copyPages (k + 1)) :
      Copy L src j n d m none m'

theorem Copied.present (copied : Copied L src j d) {v : Nat} (hv : v < j) :
    (src.lookup v).isSome := by
  obtain ⟨e, p, mapped, -⟩ := copied.copy v hv
  rw [mapped]
  rfl

theorem copyLoop_spec {r : Option Pgdir} (bound : sz ≤ kernbase) (hj : j ≤ npages sz)
    (copied : Copied L src j d) (h : copyLoop L src sz turns (j * 4096) d m = .ok (r, m')) :
    Copy L src j (npages sz) d m r m' := by
  have kern : kernbase = 2147483648 := rfl
  have kp : kernPage = 524288 := rfl
  induction turns generalizing j d m with
  | zero => cases h
  | succ turns ih =>
    rcases copyLoop_cases h with ⟨beyond, rfl, rfl⟩ | ⟨e, inside, pte, turn⟩
    · have all : j = npages sz := by
        unfold npages at hj ⊢
        omega
      subst all
      exact .done copied ⟨0, by simp, .refl _ _ _⟩ fun _ _ _ _ _ _ copy => copy
    · have hn : j < npages sz := lt_npages.mpr inside
      have user : j < kernPage := by unfold npages at hn; omega
      have ha : j * 4096 < 4294967296 := by omega
      rw [Pgdir.pte_eq_lookup _ ha, vpn_page] at pte
      have present : ∀ v, v ≤ j → (src.lookup v).isSome := by
        intro v hv
        rcases Nat.lt_or_eq_of_le hv with before | rfl
        · exact copied.present before
        · rw [pte]; rfl
      have stranded := copied.stranded (Nat.le_of_lt user)
      rcases turn with ⟨rfl, m₁, page, free⟩ | ⟨rfl, p, m₁, d₁, m₂, m₃, page, turn, free, freed⟩ |
        ⟨p, m₁, d₁, m₂, page, turn, rest⟩
      · obtain ⟨empty, -⟩ := kalloc_none_oom page
        refine .outOfMemory hn ?_ present (fun T R owns => ?_)
        · have gave := freevm_moves free
          rw [stranded] at gave
          exact ((kalloc_none_moves page).frame d.pages).congr (zero_add _) (zero_add _)
            |>.trans gave
        · rw [empty, copied.card, List.length_nil]
          unfold copyPages
          omega
      · rw [mappages_one ha (by omega)] at turn
        obtain ⟨rfl, absent, empty, -, held⟩ :=
          mapPage_new_fail page (copyPage_moves (L := L) e.ppn) ha turn
        refine .outOfMemory hn ?_ present (fun T R owns => ?_)
        · have gave := freevm_moves freed
          rw [stranded] at gave
          have back := (held.trans (kfree_moves free)).frame d₁.pages
          exact (back.congr (zero_add _) (zero_add _)).trans gave
        · have len := kalloc_length page
          have fresh : ¬ (d₁.pde (pdx (j * 4096))).isSome := by simp [absent]
          rw [pdx_page user, copied.table] at fresh
          have none_ : m₁.freelist = [] := empty
          rw [none_, List.length_nil] at len
          rw [len, copied.card]
          unfold copyPages
          omega
      · rw [mappages_one ha (by omega)] at turn
        obtain ⟨copied₁, fresh, gains⟩ :=
          copied.next user pte page (copyPage_moves (L := L) e.ppn) turn
        have next : u32 (j * 4096 + pgsize) = (j + 1) * 4096 := by
          simp only [u32, pgsize]
          omega
        rw [next] at rest
        have owns₁ : ∀ {T R}, Owns L T m (d.pages + R) → Owns L T m₂ (d₁.pages + R) :=
          fun owns => gains.moved.owns (owns.congr (by rw [zero_add]))
        cases ih hn copied₁ rest with
        | done copied' gains' copy =>
          obtain ⟨fresh', gains'⟩ := gains'
          refine .done copied' ⟨_, gains.trans gains'⟩ fun T R M owns same held before => ?_
          refine copy T R M (owns₁ owns) (fun q hq => ?_) held ?_
          · rw [gains.data owns (Multiset.mem_add.mpr (.inr hq))]
            exact same q hq
          · exact before.next user pte (kalloc_data page) owns
              (same _ (held j e hn pte)) gains turn
        | outOfMemory before moves present few =>
          refine .outOfMemory before ?_ present (fun T R owns => ?_)
          · have moved := gains.moved
            rw [zero_add] at moved
            exact moved.trans moves
          · have few := few T R (owns₁ owns)
            rwa [gains.length owns] at few

/-- The copy returns, or it panics at a page that is absent, for which `room` pages would have
been enough. -/
inductive CopyEnds (src : Pgdir) (sz room : Nat) (result : Except Halt (Option Pgdir × Kmem)) : Prop
  | returns {r : Option Pgdir} {m' : Kmem} (ok : result = .ok (r, m'))
  | panics {h : Nat} (inside : h < npages sz) (hole : src.lookup h = none)
      (lasts : copyPages h ≤ room)
      (panics : result = .error (.panic .copyuvmPte) ∨ result = .error (.panic .copyuvmPresent))

theorem copyLoop_ends (src : Pgdir) (turns : Nat) (bound : sz ≤ kernbase) (hj : j ≤ npages sz)
    (copied : Copied L src j d) (enough : npages sz < turns + j)
    (owns : Owns L T m (d.pages + R)) :
    CopyEnds src sz (m.freelist.length + d.pages.card)
      (copyLoop L src sz turns (j * 4096) d m) := by
  have kern : kernbase = 2147483648 := rfl
  have kp : kernPage = 524288 := rfl
  induction turns generalizing j d m with
  | zero => omega
  | succ turns ih =>
    by_cases inside : j * 4096 < sz
    · have hn : j < npages sz := lt_npages.mpr inside
      have user : j < kernPage := by unfold npages at hn; omega
      have ha : j * 4096 < 4294967296 := by omega
      cases mapped : src.lookup j with
      | none =>
        refine .panics hn mapped (by rw [copied.card]; omega) ?_
        rw [copyLoop, if_pos inside, walkpgdir_false]
        cases (src.pde (pdx (j * 4096))).isSome with
        | false => exact .inl rfl
        | true =>
          dsimp only
          rw [Pgdir.pte_eq_lookup _ ha, vpn_page, mapped]
          exact .inr rfl
      | some e =>
        have table := Pgdir.table_of_lookup mapped
        have pte : src.pte (j * 4096) = some e := by
          rw [Pgdir.pte_eq_lookup _ ha, vpn_page, mapped]
        have walk : walkpgdir src (j * 4096) false m = (true, src, m) := by
          rw [walkpgdir_false, pdx_page user, table]
        rw [copyLoop, if_pos inside, walk]
        dsimp only
        rw [pte]
        dsimp only
        rcases page : kalloc m with ⟨_ | p, m₁⟩
        · have owns₁ := (kalloc_none_moves page).owns (owns.congr (zero_add _).symm)
          obtain ⟨m', free⟩ := freevm_total (owns₁.congr (zero_add _))
          exact .returns (bind_ok_iff.mpr ⟨m', free, rfl⟩)
        · have fill : Moves L m₁ {p} (m₁.copyPage p e.ppn) {p} := copyPage_moves e.ppn
          have unmapped : d.lookup (vpn (j * 4096)) = none := by
            rw [vpn_page, copied.kernel j (Nat.le_refl j), kernelEntry_user user]
          obtain ⟨ok, d₁, m₂, turn⟩ :=
            mapPage_total p e.perm (m₁.copyPage p e.ppn) ha unmapped
          have turn' := (mappages_one ha (by omega)).trans turn
          dsimp only
          rw [turn', ok_bind]
          dsimp only
          cases ok with
          | true =>
            rw [if_pos rfl]
            obtain ⟨copied₁, fresh, gains⟩ := copied.next user mapped page fill turn
            have next : u32 (j * 4096 + pgsize) = (j + 1) * 4096 := by
              simp only [u32, pgsize]
              omega
            rw [next, ← gains.length owns]
            exact ih hn copied₁ (by omega) (gains.moved.owns (owns.congr (by rw [zero_add])))
          | false =>
            rw [if_neg Bool.false_ne_true]
            obtain ⟨rfl, -, -, -, held⟩ := mapPage_new_fail page fill ha turn
            have owns₁ := held.owns (owns.congr (zero_add _).symm)
            obtain ⟨m₃, free⟩ := owns₁.kfree (Multiset.mem_add.mpr
              (.inl (Multiset.mem_singleton_self p)))
            have owns₂ := ((kfree_moves free).owns owns₁).congr (zero_add _)
            obtain ⟨m', freed⟩ := freevm_total owns₂
            exact .returns (bind_ok_iff.mpr ⟨m₃, free, bind_ok_iff.mpr ⟨m', freed, rfl⟩⟩)
    · rw [copyLoop, if_neg inside]
      exact .returns rfl

/-! ## `copyuvm` -/

/-- The ways `copyuvm` returns. -/
inductive Copyuvm (L : Layout) (src : Pgdir) (n : Nat) (m : Kmem) : Option Pgdir → Kmem → Prop
  | done {d : Pgdir} {m' : Kmem} (copied : Copied L src n d) (moves : Moves L m 0 m' d.pages)
      (copy : ∀ T R, Owns L T m R → (∀ v e, v < n → src.lookup v = some e → e.ppn ∈ R) →
        CopyOf src m.data d m' n) :
      Copyuvm L src n m (some d) m'
  | outOfMemory {m' : Kmem} {k : Nat} (moves : Moves L m 0 m' 0) (within : k ≤ n)
      (present : ∀ v, v < k → (src.lookup v).isSome)
      (few : ∀ T R, Owns L T m R → m.freelist.length < copyPages k) :
      Copyuvm L src n m none m'

theorem copyuvm_spec {r : Option Pgdir} (bound : sz ≤ kernbase)
    (h : copyuvm L src sz m = .ok (r, m')) : Copyuvm L src (npages sz) m r m' := by
  obtain ⟨⟨d, m₁⟩, setup, rest⟩ := bind_ok_iff.mp h
  cases d with
  | none =>
    cases rest
    obtain ⟨moves, few⟩ := setupkvm_none setup
    refine .outOfMemory moves (Nat.zero_le _) (fun v hv => absurd hv (Nat.not_lt_zero v))
      (fun T R owns => ?_)
    have := few T R owns
    unfold copyPages
    omega
  | some d =>
    obtain ⟨half, moves, data, -⟩ := setupkvm_some setup
    have rest : copyLoop L src sz (vpages + 1) (0 * 4096) d m₁ = .ok (r, m') := by
      rw [Nat.zero_mul]; exact rest
    have owns₁ : ∀ {T R}, Owns L T m R → Owns L T m₁ (d.pages + R) :=
      fun owns => moves.owns (owns.congr (zero_add _).symm)
    cases copyLoop_spec bound (Nat.zero_le _) half.copied rest with
    | done copied gains copy =>
      obtain ⟨fresh, gains⟩ := gains
      have moved := gains.moved
      rw [zero_add] at moved
      refine .done copied (moves.trans moved) fun T R owns held => ?_
      exact copy T R m.data (owns₁ owns) (fun q _ => by rw [data]) held
        fun v _ _ hv => absurd hv (Nat.not_lt_zero v)
    | outOfMemory before moves' present few =>
      refine .outOfMemory (moves.trans moves') before
        (fun v hv => present v (Nat.le_of_lt_succ hv)) (fun T R owns => ?_)
      have few := few T R (owns₁ owns)
      have after := (owns₁ owns).length_add
      have start := owns.length_add
      rw [Multiset.card_add] at after
      show m.freelist.length < copyPages (_ + 1)
      omega

theorem copyuvm_ends (src : Pgdir) (bound : sz ≤ kernbase) (owns : Owns L T m R) :
    CopyEnds src sz m.freelist.length (copyuvm L src sz m) := by
  obtain ⟨d, m₁, setup⟩ := setupkvm_total owns
  rw [copyuvm, setup, ok_bind]
  cases d with
  | none => exact .returns rfl
  | some d =>
    obtain ⟨half, moves, -⟩ := setupkvm_some setup
    have owns₁ := moves.owns (owns.congr (zero_add _).symm)
    have total : m₁.freelist.length + d.pages.card = m.freelist.length := by
      have after := owns₁.length_add
      have start := owns.length_add
      rw [Multiset.card_add] at after
      omega
    have loop := copyLoop_ends src (vpages + 1) bound (Nat.zero_le _) half.copied
      (by rw [vpages_eq]; unfold npages; simp only [kernbase] at bound; omega) owns₁
    rwa [Nat.zero_mul, total] at loop

end RandomRepo.Xv6

import RandomRepo.Xv6.Boot

/-!
# `copyout` byte by byte

`copyout` goes through the addresses from `va` on, around the end of the address
space if need be, a page at a time.  It stops at the first page that user code may
not touch, provided there is a page table to look at: `uva2ka` does not test what
`walkpgdir` returns.
-/

namespace RandomRepo.Xv6

variable {L : Layout} {pd pd' : Pgdir} {m m' : Kmem} {T R : Multiset Nat} {va a b : Nat} {ok : Bool}
  {buf : List UInt8} {null : Kmem → Except Halt Unit}

/-- The page of the address is there for user code. -/
def Pgdir.Accessible (pd : Pgdir) (a : Nat) : Prop :=
  ∃ e, pd.lookup (vpn a) = some e ∧ e.u = true

/-- There is a page table for the address. -/
def Pgdir.Tabled (pd : Pgdir) (a : Nat) : Prop := (pd.pde (pdx a)).isSome

/-- Page and offset of the byte at an address. -/
def Pgdir.place (pd : Pgdir) (a : Nat) : Option (Nat × Nat) :=
  (pd.lookup (vpn a)).map fun e => (e.ppn, a % pgsize)

/-- No two pages of user code are one page of memory. -/
def Pgdir.Apart (pd : Pgdir) : Prop :=
  ∀ v w e f, v < vpages → w < vpages → pd.lookup v = some e → pd.lookup w = some f →
    e.u = true → f.u = true → e.ppn = f.ppn → v = w

theorem Pgdir.Accessible.tabled (accessible : pd.Accessible a) (ha : a < 4294967296) :
    pd.Tabled a := by
  obtain ⟨e, mapped, -⟩ := accessible
  rw [Pgdir.Tabled, pdx_vpn ha]
  exact Pgdir.table_of_lookup mapped

theorem Owns.nodup (owns : Owns L T m (pd.pages + R)) : pd.pages.Nodup :=
  (Multiset.nodup_add.mp owns.ledger.held_nodup).1

theorem Pgdir.Apart.of_nodup (nodup : pd.pages.Nodup) : pd.Apart :=
  fun _ _ _ _ hv hw atV atW userV userW shared =>
    Pgdir.leaf_inj nodup hv hw atV atW (.inr userV) (.inr userW) shared

/-- Different addresses of user code are different bytes. -/
theorem Pgdir.Apart.place_inj (apart : pd.Apart) (ha : a < 4294967296) (hb : b < 4294967296)
    (atA : pd.Accessible a) (atB : pd.Accessible b) (same : pd.place a = pd.place b) : a = b := by
  obtain ⟨e, mappedA, userA⟩ := atA
  obtain ⟨f, mappedB, userB⟩ := atB
  rw [Pgdir.place, Pgdir.place, mappedA, mappedB, Option.map_some, Option.map_some,
    Option.some.injEq, Prod.mk.injEq] at same
  have page := apart _ _ e f (vpn_lt ha) (vpn_lt hb) mappedA mappedB userA userB same.1
  have offset := same.2
  simp only [vpn, pgsize] at page offset
  omega

/-! ## One turn of the loop -/

/-- How many bytes the next turn copies. -/
def chunk (va len : Nat) : Nat := min (pgsize - (va - pgrounddown va)) len

theorem chunk_pos (va : Nat) {len : Nat} (some_ : 0 < len) : 0 < chunk va len := by
  simp only [chunk, pgrounddown, pgsize]
  omega

theorem chunk_le (va len : Nat) : chunk va len ≤ len := Nat.min_le_right _ _

/-- The bytes of a turn lie in one page. -/
theorem chunk_page {len i : Nat} (hva : va < 4294967296) (hi : i < chunk va len) :
    u32 (va + i) = va + i ∧ vpn (va + i) = vpn va ∧ (va + i) % pgsize = va % pgsize + i := by
  simp only [chunk, pgrounddown, pgsize] at hi
  simp only [u32, vpn, pgsize]
  omega

/-- The next turn goes on where this one ends. -/
theorem chunk_next (va len j : Nat) (more : chunk va len < len) :
    u32 (u32 (pgrounddown va + pgsize) + j) = u32 (va + (chunk va len + j)) := by
  have size : chunk va len = pgsize - (va - pgrounddown va) := by
    simp only [chunk] at more ⊢
    omega
  rw [size]
  simp only [u32, pgrounddown, pgsize]
  omega

/-- What `uva2ka` finds for the page of `va`. -/
theorem uva2ka_cases (pd : Pgdir) (m : Kmem) (hva : va < 4294967296) :
    (¬ pd.Tabled va ∧ uva2ka null pd (pgrounddown va) m = (null m).map fun _ => none) ∨
      (pd.Tabled va ∧ ¬ pd.Accessible va ∧ uva2ka null pd (pgrounddown va) m = .ok none) ∨
      ∃ e, pd.lookup (vpn va) = some e ∧ e.u = true ∧
        uva2ka null pd (pgrounddown va) m = .ok (some e.ppn) := by
  have down : pgrounddown va < 4294967296 := pgrounddown_lt hva
  rw [uva2ka, walkpgdir_false, pdx_pgrounddown]
  cases table : (pd.pde (pdx va)).isSome with
  | false => exact .inl ⟨by rw [Pgdir.Tabled, table]; exact Bool.false_ne_true, rfl⟩
  | true =>
    dsimp only
    rw [Pgdir.pte_eq_lookup _ down, vpn_pgrounddown]
    cases mapped : pd.lookup (vpn va) with
    | none =>
      refine .inr (.inl ⟨table, ?_, rfl⟩)
      rintro ⟨e, there, -⟩
      rw [mapped] at there
      cases there
    | some e =>
      cases user : e.u with
      | true => exact .inr (.inr ⟨e, rfl, user, by dsimp only; rw [user]; rfl⟩)
      | false =>
        refine .inr (.inl ⟨table, ?_, by dsimp only; rw [user]; rfl⟩)
        rintro ⟨f, there, allowed⟩
        rw [mapped] at there
        cases there
        rw [user] at allowed
        cases allowed

/-- A turn of `copyout`. -/
theorem copyout_turn (pd : Pgdir) (m : Kmem) (hva : va < 4294967296) (some_ : 0 < buf.length) :
    (¬ pd.Tabled va ∧ copyoutWith null pd va buf m = (null m).map fun _ => (false, m)) ∨
      (pd.Tabled va ∧ ¬ pd.Accessible va ∧ copyoutWith null pd va buf m = .ok (false, m)) ∨
      ∃ e, pd.lookup (vpn va) = some e ∧ e.u = true ∧ copyoutWith null pd va buf m =
        copyoutWith null pd (u32 (pgrounddown va + pgsize)) (buf.drop (chunk va buf.length))
          (m.write e.ppn (va % pgsize) (buf.take (chunk va buf.length))) := by
  rw [copyoutWith, if_pos some_]
  dsimp only
  rcases uva2ka_cases pd m hva with
    ⟨absent, found⟩ | ⟨table, closed, found⟩ | ⟨e, mapped, user, found⟩
  · exact .inl ⟨absent, by rw [found]; cases null m <;> rfl⟩
  · exact .inr (.inl ⟨table, closed, by rw [found]; rfl⟩)
  · refine .inr (.inr ⟨e, mapped, user, ?_⟩)
    rw [found, ok_bind, ← sub_pgrounddown]
    rfl

/-! ## The whole loop -/

/-- The first `k` bytes of `buf` are in place and no other byte has changed. -/
structure Written (pd : Pgdir) (va : Nat) (buf : List UInt8) (m m' : Kmem) (k : Nat) : Prop where
  bytes : ∀ i, i < k → ∀ q o, pd.place (u32 (va + i)) = some (q, o) → m'.data q o = buf.getD i 0
  frame : ∀ q o, (∀ i, i < k → pd.place (u32 (va + i)) ≠ some (q, o)) → m'.data q o = m.data q o
  freelist : m'.freelist = m.freelist
  oom : m'.oom = m.oom
  twice : m'.twice = m.twice

theorem Written.refl : Written pd va buf m m 0 :=
  ⟨fun _ none_ => absurd none_ (Nat.not_lt_zero _), fun _ _ _ => rfl, rfl, rfl, rfl⟩

/-- The bytes of one turn. -/
theorem Written.chunk {e : Pte} (m : Kmem) (buf : List UInt8) (hva : va < 4294967296)
    (mapped : pd.lookup (vpn va) = some e) :
    Written pd va buf m (m.write e.ppn (va % pgsize) (buf.take (chunk va buf.length)))
      (chunk va buf.length) := by
  have length : (buf.take (Xv6.chunk va buf.length)).length = Xv6.chunk va buf.length := by
    rw [List.length_take, Nat.min_eq_left (chunk_le va _)]
  have place : ∀ i, i < Xv6.chunk va buf.length →
      pd.place (u32 (va + i)) = some (e.ppn, va % pgsize + i) := by
    intro i hi
    obtain ⟨here, page, offset⟩ := chunk_page hva hi
    rw [here, Pgdir.place, page, mapped, offset]
    rfl
  refine ⟨fun i hi q o there => ?_, fun q o apart => ?_, rfl, rfl, rfl⟩
  · rw [place i hi] at there
    cases there
    rw [Kmem.write_inside (by rwa [length])]
    simp only [List.getD_eq_getElem?_getD, List.getElem?_take, if_pos hi]
  · refine Kmem.write_outside fun page inside => ?_
    rw [length] at inside
    refine apart (o - va % pgsize) (by omega) ?_
    rw [place _ (by omega), page, Nat.add_sub_cancel' inside.1]

/-- A turn and the turns after it. -/
theorem Written.append {m₁ : Kmem} {n k : Nat} (apart : pd.Apart)
    (distinct : n + k ≤ 4294967296) (first : Written pd va buf m m₁ n)
    (accessible : ∀ i, i < n + k → pd.Accessible (u32 (va + i)))
    (next : ∀ j, j < k → u32 (b + j) = u32 (va + (n + j)))
    (rest : Written pd b (buf.drop n) m₁ m' k) : Written pd va buf m m' (n + k) := by
  refine ⟨fun i hi q o there => ?_, fun q o others => ?_, rest.freelist.trans first.freelist,
    rest.oom.trans first.oom, rest.twice.trans first.twice⟩
  · by_cases early : i < n
    · -- the later turns do not come back to this byte
      rw [rest.frame q o, first.bytes i early q o there]
      intro j hj again
      rw [next j hj] at again
      have same := apart.place_inj (u32_lt _) (u32_lt _) (accessible i hi)
        (accessible (n + j) (by omega)) (there.trans again.symm)
      simp only [u32] at same
      omega
    · obtain ⟨j, rfl⟩ := Nat.exists_eq_add_of_le (Nat.not_lt.mp early)
      rw [rest.bytes j (by omega) q o (by rw [next j (by omega)]; exact there)]
      simp only [List.getD_eq_getElem?_getD, List.getElem?_drop]
  · rw [rest.frame q o, first.frame q o]
    · exact fun i hi => others i (by omega)
    · intro j hj
      rw [next j hj]
      exact others (n + j) (by omega)

/-- The bytes up to the `k`-th are accessible and copied.  There is no `k`-th, or it is not
accessible, though it has a page table or the null pointer was read through. -/
structure CopiedTo (null : Kmem → Except Halt Unit) (pd : Pgdir) (va : Nat) (buf : List UInt8)
    (m : Kmem) (ok : Bool) (m' : Kmem) (k : Nat) : Prop where
  inside : k ≤ buf.length
  accessible : ∀ i, i < k → pd.Accessible (u32 (va + i))
  written : Written pd va buf m m' k
  whole : ok = true → k = buf.length
  stops : ok = false → k < buf.length ∧
    (pd.Tabled (u32 (va + k)) ∨ ∃ m, null m = .ok ()) ∧ ¬ pd.Accessible (u32 (va + k))

theorem copyout_spec {va : Nat} {buf : List UInt8} {m : Kmem} (apart : pd.Apart)
    (hva : va < 4294967296) (len : buf.length < 4294967296)
    (h : copyoutWith null pd va buf m = .ok (ok, m')) :
    ∃ k, CopiedTo null pd va buf m ok m' k := by
  have here : u32 (va + 0) = va := u32_of_lt hva
  have refused : 0 < buf.length → (pd.Tabled va ∨ ∃ m, null m = .ok ()) → ¬ pd.Accessible va →
      CopiedTo null pd va buf m false m 0 := fun some_ table closed =>
    ⟨Nat.zero_le _, fun i none_ => absurd none_ (Nat.not_lt_zero _), .refl,
      fun impossible => absurd impossible Bool.false_ne_true,
      fun _ => ⟨some_, by rw [here]; exact table, by rw [here]; exact closed⟩⟩
  by_cases some_ : 0 < buf.length
  · rcases copyout_turn pd m hva some_ with
      ⟨absent, stop⟩ | ⟨table, closed, stop⟩ | ⟨e, mapped, user, turn⟩
    · rw [stop] at h
      cases read : null m with
      | error e =>
        rw [read] at h
        cases h
      | ok =>
        rw [read] at h
        cases h
        exact ⟨0, refused some_ (.inr ⟨_, read⟩) fun allowed => absent (allowed.tabled hva)⟩
    · rw [stop] at h
      cases h
      exact ⟨0, refused some_ (.inl table) closed⟩
    · rw [turn] at h
      have progress := chunk_pos va some_
      have bound := chunk_le va buf.length
      have less : (buf.drop (chunk va buf.length)).length = buf.length - chunk va buf.length :=
        List.length_drop
      obtain ⟨k, rest⟩ := copyout_spec apart (u32_lt _) (by omega) h
      have more := rest.inside
      have next : ∀ j, chunk va buf.length + j < buf.length →
          u32 (u32 (pgrounddown va + pgsize) + j) = u32 (va + (chunk va buf.length + j)) :=
        fun j hj => chunk_next va buf.length j (by omega)
      have accessible : ∀ i, i < chunk va buf.length + k → pd.Accessible (u32 (va + i)) := by
        intro i hi
        by_cases early : i < chunk va buf.length
        · obtain ⟨here, page, -⟩ := chunk_page hva early
          rw [here, Pgdir.Accessible, page]
          exact ⟨e, mapped, user⟩
        · obtain ⟨j, rfl⟩ := Nat.exists_eq_add_of_le (Nat.not_lt.mp early)
          rw [← next j (by omega)]
          exact rest.accessible j (by omega)
      refine ⟨chunk va buf.length + k, by omega, accessible, ?_, fun done => ?_, fun stop => ?_⟩
      · exact (Written.chunk m buf hva mapped).append apart (by omega) accessible
          (fun j hj => next j (by omega)) rest.written
      · have := rest.whole done
        omega
      · obtain ⟨short, table, closed⟩ := rest.stops stop
        rw [next k (by omega)] at table closed
        exact ⟨by omega, table, closed⟩
  · rw [copyoutWith, if_neg some_] at h
    cases h
    exact ⟨0, Nat.zero_le _, fun i none_ => absurd none_ (Nat.not_lt_zero _), .refl,
      fun _ => by omega, fun impossible => absurd impossible.symm Bool.false_ne_true⟩
  termination_by buf.length
  decreasing_by omega

/-- Up to the first address that is not accessible, that one included, there are page tables. -/
def Walkable (pd : Pgdir) (va len : Nat) : Prop :=
  ∀ i, i < len → (∀ j, j < i → pd.Accessible (u32 (va + j))) → pd.Tabled (u32 (va + i))

theorem copyout_total {va : Nat} {buf : List UInt8} {m : Kmem} (hva : va < 4294967296)
    (walkable : Walkable pd va buf.length ∨ ∀ m, null m = .ok ()) :
    ∃ r, copyoutWith null pd va buf m = .ok r := by
  by_cases some_ : 0 < buf.length
  · rcases copyout_turn pd m hva some_ with
      ⟨absent, stop⟩ | ⟨-, -, stop⟩ | ⟨e, mapped, user, turn⟩
    · rcases walkable with walkable | harmless
      · have table := walkable 0 some_ fun j none_ => absurd none_ (Nat.not_lt_zero _)
        rw [Nat.add_zero, u32_of_lt hva] at table
        exact absurd table absent
      · rw [stop, harmless]
        exact ⟨_, rfl⟩
    · exact ⟨_, stop⟩
    · rw [turn]
      have progress := chunk_pos va some_
      have less : (buf.drop (chunk va buf.length)).length = buf.length - chunk va buf.length :=
        List.length_drop
      refine copyout_total (u32_lt _) (walkable.imp_left fun walkable i hi before => ?_)
      rw [chunk_next va buf.length _ (by omega)]
      refine walkable _ (by omega) fun j hj => ?_
      by_cases early : j < chunk va buf.length
      · obtain ⟨here, page, -⟩ := chunk_page hva early
        rw [here, Pgdir.Accessible, page]
        exact ⟨e, mapped, user⟩
      · obtain ⟨j', rfl⟩ := Nat.exists_eq_add_of_le (Nat.not_lt.mp early)
        have later := before j' (by omega)
        rwa [chunk_next va buf.length _ (by omega)] at later
  · rw [copyoutWith, if_neg some_]
    exact ⟨_, rfl⟩
  termination_by buf.length
  decreasing_by omega

/-! ## Page tables of the kernel -/

/-- The page tables that `setupkvm`, `allocuvm` and `clearpteu` make, in a memory in which each page
has one owner.  Between the calls pages are filled and other pages of the kernel change hands. -/
inductive Produced (L : Layout) (T : Multiset Nat) : Pgdir → Kmem → Multiset Nat → Prop
  | setupkvm {m m' : Kmem} {pd : Pgdir} {R : Multiset Nat} (owns : Owns L T m R)
      (setup : setupkvm L m = .ok (some pd, m')) : Produced L T pd m' R
  | allocuvm {m m' : Kmem} {pd pd' : Pgdir} {R : Multiset Nat} {oldsz newsz r : Nat}
      (before : Produced L T pd m R) (alloc : allocuvm L pd oldsz newsz m = .ok (r, pd', m')) :
      Produced L T pd' m' R
  | clearpteu {m m' : Kmem} {pd pd' : Pgdir} {R : Multiset Nat} {uva : Nat}
      (before : Produced L T pd m R) (huva : uva < 4294967296)
      (clear : clearpteu pd uva m = .ok (pd', m')) : Produced L T pd' m' R
  | others {m m' : Kmem} {pd : Pgdir} {R R' : Multiset Nat} (before : Produced L T pd m R)
      (owns : Owns L T m' (pd.pages + R')) : Produced L T pd m' R'

/-- No entry of the kernel half is for user code. -/
def Pgdir.Closed (pd : Pgdir) : Prop :=
  ∀ v e, kernPage ≤ v → pd.lookup v = some e → e.u = false

theorem Allocuvm.lookup_high {oldsz newsz r v : Nat} (alloc : Allocuvm L pd oldsz newsz m r pd' m')
    (high : kernPage ≤ v) : pd'.lookup v = pd.lookup v := by
  have kern : kernbase = 2147483648 := rfl
  have kp : kernPage = 524288 := rfl
  cases alloc with
  | tooBig => rfl
  | smaller => rfl
  | grown fits _ pages _ _ => exact pages.other v (by omega)
  | outOfMemory fits _ undone => rw [undone.lookup, if_neg (by omega)]

theorem Produced.spec (produced : Produced L T pd m R) :
    pd.Closed ∧ Owns L T m (pd.pages + R) := by
  induction produced with
  | setupkvm owns setup =>
    obtain ⟨half, moves, -⟩ := setupkvm_some setup
    refine ⟨fun v e _ mapped => (half.part.entry v e mapped).2.2, ?_⟩
    exact moves.owns (owns.congr (zero_add _).symm)
  | allocuvm before alloc ih =>
    obtain ⟨closed, owns⟩ := ih
    have result := allocuvm_spec alloc
    refine ⟨fun v e high mapped => ?_, result.moves.owns owns⟩
    rw [result.lookup_high high] at mapped
    exact closed v e high mapped
  | clearpteu before huva clear ih =>
    obtain ⟨closed, owns⟩ := ih
    obtain ⟨pages, rfl, lookup⟩ := clearpteu_spec huva (fun e high => closed _ e high) clear
    refine ⟨fun v e high mapped => ?_, by rw [pages]; exact owns⟩
    rw [lookup] at mapped
    split_ifs at mapped with here
    · obtain ⟨f, -, rfl⟩ := Option.map_eq_some_iff.mp mapped
      rfl
    · exact closed v e high mapped
  | others before owns ih => exact ⟨ih.1, owns⟩

/-- `copyout` returns without following a null pointer.  It returns 0 exactly if user code may touch
every page on the way, and then the bytes of the buffer are where they belong; otherwise it has
copied those before the first page that user code may not touch.  Nothing else has changed. -/
def CopyoutSafe (pd : Pgdir) (va : Nat) (buf : List UInt8) (m : Kmem) : Prop :=
  ∃ ok m' k, copyout pd va buf m = .ok (ok, m') ∧
    (ok = true ↔ ∀ i, i < buf.length → pd.Accessible (u32 (va + i))) ∧
    (ok = true → k = buf.length) ∧
    (ok = false → k < buf.length ∧ ¬ pd.Accessible (u32 (va + k))) ∧
    (∀ i, i < k → pd.Accessible (u32 (va + i))) ∧ Written pd va buf m m' k

/-- **Copying out.**  For a page table of the kernel, every address and every buffer: `copyout` is
safe if and only if there are page tables up to the first page that user code may not touch. -/
theorem copyout_safe (produced : Produced L T pd m R) (hva : va < 4294967296)
    (len : buf.length < 4294967296) :
    CopyoutSafe pd va buf m ↔ Walkable pd va buf.length := by
  have apart := Pgdir.Apart.of_nodup produced.spec.2.nodup
  constructor
  · rintro ⟨ok, m', -, run, -⟩ i hi before
    obtain ⟨k, copied⟩ := copyout_spec apart hva len run
    have inside := copied.inside
    by_cases early : i < k
    · exact (copied.accessible i early).tabled (u32_lt _)
    cases ok with
    | true =>
      have := copied.whole rfl
      omega
    | false =>
      obtain ⟨-, table, closed⟩ := copied.stops rfl
      by_cases here : i = k
      · rw [here]
        exact table.resolve_right fun ⟨_, impossible⟩ => by cases impossible
      · exact absurd (before k (by omega)) closed
  · intro walkable
    obtain ⟨⟨ok, m'⟩, run⟩ := copyout_total (m := m) hva (.inl walkable)
    obtain ⟨k, copied⟩ := copyout_spec apart hva len run
    refine ⟨ok, m', k, run, ⟨fun done i hi => ?_, fun all => ?_⟩, copied.whole, fun stop => ?_,
      copied.accessible, copied.written⟩
    · exact copied.accessible i (by rw [copied.whole done]; exact hi)
    · by_contra stop
      obtain ⟨short, -, closed⟩ := copied.stops (Bool.eq_false_iff.mpr stop)
      exact closed (all k short)
    · obtain ⟨short, -, closed⟩ := copied.stops stop
      exact ⟨short, closed⟩

/-- The page table that the kernel makes for itself at boot. -/
theorem produced_kernel : ∃ T pd m R, Produced kernelSym T pd m R ∧ KernelHalf kernelSym pd ∧
    m.oom = false ∧ 4 ≤ m.freelist.length := by
  obtain ⟨m, -, owns, fine⟩ := kinit1_owns kernelSym fun _ _ => 0
  have count := owns.length_add
  rw [Multiset.coe_card, List.length_range', Multiset.card_zero] at count
  have first : kernelSym.firstPage ≤ 300 := by decide
  obtain ⟨pd, m', setup, half, -, left, oom⟩ := setupkvm_room owns (by omega)
  exact ⟨_, pd, m', 0, .setupkvm owns setup, half, oom.trans fine, by omega⟩

/-- With two user pages in it the kernel's page table is refused at `kernbase`, where there is no
`PTE_U`, and takes four bytes across the border of the pages. -/
theorem copyout_safe_two_pages : ∃ T pd m R, Produced kernelSym T pd m R ∧
    CopyoutSafe pd kernbase [1] m ∧ ∃ m', copyout pd 4094 [1, 2, 3, 4] m = .ok (true, m') ∧
      Written pd 4094 [1, 2, 3, 4] m m' 4 := by
  have kp : kernPage = 524288 := rfl
  obtain ⟨T, pd, m, R, produced, half, fine, room⟩ := produced_kernel
  obtain ⟨pd', m', alloc, pages, -⟩ := allocuvm_grows (fun v _ high => by
    rw [half.lookup]
    exact kernelEntry_user (by omega)) produced.spec.2 fine (show 8192 < kernbase by decide)
    (Nat.zero_le _) room
  have grown : Produced kernelSym T pd' m' R := .allocuvm produced alloc
  have accessible : ∀ i, i < 4 → pd'.Accessible (u32 (4094 + i)) := by
    intro i inside
    obtain ⟨p, entry⟩ := pages.entry (vpn (4094 + i)) (Nat.zero_le _)
      (by simp only [vpn, pgsize]; omega)
    rw [u32_of_lt (by omega)]
    exact ⟨_, entry, rfl⟩
  obtain ⟨ok, m₁, k, run, all, whole, -, -, written⟩ := (copyout_safe grown
    (show 4094 < 4294967296 by decide) (show [1, 2, 3, 4].length < 4294967296 by decide)).mpr
    fun i inside _ => (accessible i inside).tabled (u32_lt _)
  obtain rfl := all.mpr accessible
  obtain rfl := whole rfl
  refine ⟨T, pd', m', R, grown, (copyout_safe grown (by decide) (by decide)).mpr ?_, m₁, run,
    written⟩
  intro i first _
  obtain rfl : i = 0 := Nat.lt_one_iff.mp first
  have same : pd'.lookup 524288 = kernelEntry kernelSym 524288 := by
    rw [pages.other _ (by omega), half.lookup]
  exact Pgdir.table_of_lookup same

/-- The middle of the user half has no page table: one byte to there follows a null pointer. -/
theorem copyout_null : ∃ T pd m R, Produced kernelSym T pd m R ∧
    copyout pd 0x40000000 [1] m = .error .null := by
  obtain ⟨T, pd, m, R, produced, half, -⟩ := produced_kernel
  refine ⟨T, pd, m, R, produced, ?_⟩
  have low : 0x40000000 < 4294967296 := by decide
  have one : 0 < [(1 : UInt8)].length := by decide
  rcases @copyout_turn _ _ (fun _ => .error .null) pd m low one with
    ⟨-, stop⟩ | ⟨table, -⟩ | ⟨e, mapped, -⟩
  · exact stop
  · exact absurd ((half.isSome_iff _).mp table) (by decide)
  · exact absurd ((half.isSome_iff _).mp (Pgdir.table_of_lookup mapped)) (by decide)

end RandomRepo.Xv6

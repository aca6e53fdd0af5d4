import RandomRepo.Xv6.PageFault

/-!
# Address spaces

What a process is for its own code: a size and the pages below it.  `Backs` says
that a process of the kernel stands for an address space.  A kernel that reserves
pages lazily may leave out pages that are still as new; everything else it holds
page for page.
-/

namespace RandomRepo.Xv6

/-- A page as user code sees it. -/
structure UserPage where
  u : Bool
  w : Bool
  bytes : PageData

/-- A page nobody has written to. -/
def freshPage : UserPage := ⟨true, true, fun _ => 0⟩

structure AddrSpace where
  sz : Nat
  page : Nat → UserPage

namespace AddrSpace

/-- Change the size; pages that come in are new. -/
def resize (A : AddrSpace) (sz : Nat) : AddrSpace :=
  ⟨sz, fun v => if npages A.sz ≤ v then freshPage else A.page v⟩

def read (A : AddrSpace) (a : Nat) : UInt8 := (A.page (vpn a)).bytes (a % pgsize)

def write (A : AddrSpace) (a : Nat) (b : UInt8) : AddrSpace :=
  { A with page := fun v => if v = vpn a then
      { A.page v with bytes := fun o => if o = a % pgsize then b else (A.page v).bytes o }
    else A.page v }

end AddrSpace

/-- The page that user code finds at page number `v`. -/
def Pgdir.userPage (pd : Pgdir) (m : Kmem) (v : Nat) : Option UserPage :=
  (pd.lookup v).map fun e => ⟨e.u, e.w, m.data e.ppn⟩

/-- The page at `v` is there as the address space has it, or, if the kernel is lazy, not yet. -/
def Stands (lazily : Bool) (A : AddrSpace) (pd : Pgdir) (m : Kmem) (v : Nat) : Prop :=
  pd.userPage m v = some (A.page v) ∨
    lazily = true ∧ pd.lookup v = none ∧ A.page v = freshPage

/-- The directory holds the pages of the address space, and no other user page. -/
structure Holds (L : Layout) (lazily : Bool) (A : AddrSpace) (pd : Pgdir) (m : Kmem) : Prop where
  owns : ∃ T R, Owns L T m (pd.pages + R)
  above : ∀ v, npages A.sz ≤ v → v < kernPage → pd.lookup v = none
  stands : ∀ v, v < npages A.sz → Stands lazily A pd m v

/-- The process stands for the address space. -/
structure Backs (L : Layout) (lazily : Bool) (A : AddrSpace) (p : Proc) (m : Kmem) : Prop where
  size : p.sz = A.sz
  bound : A.sz < kernbase
  whole : p.Whole
  pages : ∃ pd, p.pgdir = some pd ∧ Holds L lazily A pd m

variable {L : Layout} {lazily : Bool} {A : AddrSpace} {p p' : Proc} {m m' : Kmem} {pd pd' : Pgdir}
  {T R : Multiset Nat} {v a : Nat}

/-! ## Growing and shrinking -/

theorem Stands.congr (stands : Stands lazily A pd m v) (lookup : pd'.lookup v = pd.lookup v)
    (data : ∀ e, pd.lookup v = some e → m'.data e.ppn = m.data e.ppn) :
    Stands lazily A pd' m' v := by
  rcases stands with present | ⟨late, absent, fresh⟩
  · refine .inl ?_
    rw [← present, Pgdir.userPage, Pgdir.userPage, lookup]
    cases mapped : pd.lookup v with
    | none => rfl
    | some e => rw [Option.map_some, Option.map_some, data e mapped]
  · exact .inr ⟨late, by rw [lookup, absent], fresh⟩

theorem Stands.resize {sz : Nat} (stands : Stands lazily A pd m v) (old : v < npages A.sz) :
    Stands lazily (A.resize sz) pd m v := by
  have same : (A.resize sz).page v = A.page v := if_neg (Nat.not_le.mpr old)
  unfold Stands
  rw [same]
  exact stands

/-- What the pages of the user half hold stays when others come in. -/
theorem Gains.same {fresh : Multiset Nat} {e : Pte} (gains : Gains L 0 pd m pd' m' fresh)
    (owns : Owns L T m (pd.pages + R)) (user : v < kernPage) (mapped : pd.lookup v = some e) :
    m'.data e.ppn = m.data e.ppn := by
  have small : v < vpages := by rw [vpages_eq]; simp only [kernPage] at user; omega
  have held := Pgdir.leaf_mem_pages small mapped (.inl user)
  exact gains.moves.same (owns.congr (zero_add _).symm) (Multiset.mem_add.mpr (.inl held))

/-- What the pages that stay hold is kept when others go. -/
theorem Frees.same {e : Pte} (frees : Frees L m pd m' pd') (owns : Owns L T m (pd.pages + R))
    (user : v < kernPage) (mapped : pd'.lookup v = some e) : m'.data e.ppn = m.data e.ppn := by
  obtain ⟨freed, split, moves, -⟩ := frees
  have small : v < vpages := by rw [vpages_eq]; simp only [kernPage] at user; omega
  have held := Pgdir.leaf_mem_pages small mapped (.inl user)
  refine moves.same (owns.congr ?_) (Multiset.mem_add.mpr (.inl (b := _ ∈ R) held))
  rw [split, add_assoc]

theorem Holds.grown {newsz : Nat} (holds : Holds L lazily A pd m) (more : A.sz ≤ newsz)
    (fits : newsz < kernbase) (pages : NewPages pd (npages A.sz) newsz pd')
    (gains : ∃ fresh, Gains L 0 pd m pd' m' fresh)
    (zeroed : ∀ T R, Owns L T m (pd.pages + R) → Zeroed pd' m' (npages A.sz) newsz) :
    Holds L lazily (A.resize newsz) pd' m' := by
  have inside := npages_le_kernPage (Nat.le_of_lt fits)
  obtain ⟨T, R, owns⟩ := holds.owns
  obtain ⟨fresh, gains⟩ := gains
  refine ⟨⟨T, R, gains.moved.owns (owns.congr (by rw [zero_add]))⟩, fun v low high => ?_,
    fun v hv => ?_⟩
  · have low : ¬ v < npages newsz := Nat.not_lt.mpr low
    rw [lt_npages] at low
    rw [pages.other v (fun both => low both.2)]
    refine holds.above v ?_ high
    by_contra less
    have := lt_npages.mp (Nat.not_le.mp less)
    omega
  · have hv : v < npages newsz := hv
    by_cases old : v < npages A.sz
    · have user : v < kernPage := by omega
      refine (holds.stands v old).congr (pages.other v (by omega)) (fun e mapped => ?_) |>.resize old
      exact gains.same owns user mapped
    · have low : npages A.sz ≤ v := Nat.le_of_not_lt old
      obtain ⟨q, mapped⟩ := pages.entry v low (lt_npages.mp hv)
      have zero := zeroed T R owns v _ low (lt_npages.mp hv) mapped
      refine .inl ?_
      rw [Pgdir.userPage, mapped, AddrSpace.resize]
      dsimp only
      rw [if_pos low, Option.map_some, zero]
      rfl

theorem Holds.shrunk {newsz : Nat} (holds : Holds L lazily A pd m) (less : newsz < A.sz)
    (bound : A.sz < kernbase) (cleared : Dealloc pd (npages newsz) A.sz pd')
    (frees : Frees L m pd m' pd') : Holds L lazily (A.resize newsz) pd' m' := by
  have inside := npages_le_kernPage (Nat.le_of_lt (less.trans bound))
  obtain ⟨T, R, owns⟩ := holds.owns
  refine ⟨⟨T, R, frees.moves.owns owns⟩, fun v low high => ?_, fun v hv => ?_⟩
  · rw [cleared.lookup]
    split_ifs with gone
    · rfl
    · have low : npages newsz ≤ v := low
      refine holds.above v ?_ high
      by_contra small
      have := lt_npages.mp (Nat.not_le.mp small)
      omega
  · have hv : v < npages newsz := hv
    have old : v < npages A.sz := by
      have := lt_npages.mp hv
      exact lt_npages.mpr (by omega)
    have kept : pd'.lookup v = pd.lookup v := by
      rw [cleared.lookup, if_neg (by omega)]
    refine (holds.stands v old).congr kept (fun e mapped => ?_) |>.resize old
    exact frees.same owns (by omega) (kept.trans mapped)

/-- `growproc` resizes the address space, unless memory is exhausted. -/
theorem Backs.growproc (n : Int) (newsz : Nat) (backs : Backs L lazily A p m)
    (sum : (newsz : Int) = A.sz + n) (positive : 0 < newsz) (fits : newsz < kernbase) :
    ∃ ok p' m', Xv6.growproc L n p m = .ok (ok, p', m') ∧
      Spends (2 * (npages newsz - npages A.sz)) m m' ∧
      (m'.oom = false → ok = true ∧ Backs L lazily (A.resize newsz) p' m') := by
  have kern : kernbase = 2147483648 := rfl
  have size := backs.size
  have bound := backs.bound
  obtain ⟨pd, had, holds⟩ := backs.pages
  obtain ⟨T, R, owns⟩ := holds.owns
  obtain ⟨⟨ok, p', m'⟩, grow⟩ := growproc_total n backs.whole (by omega) had owns
    (by rw [size]; exact holds.above)
  have target : uaddInt p.sz n = newsz := by
    rw [size]
    unfold uaddInt
    omega
  rcases growproc_cases grow with ⟨zero, rfl, rfl, rfl⟩ | ⟨zero, pd₀, pd', r, had', ok_, rfl, sized⟩
  · have same : newsz = A.sz := by omega
    subst same
    exact ⟨true, p', m', grow, fun _ => ⟨rfl, by omega⟩, fun _ => ⟨rfl, size, bound, backs.whole, pd,
      had, holds.owns, holds.above, fun v hv => (holds.stands v hv).resize hv⟩⟩
  · rw [had] at had'
    cases had'
    rw [target, size] at sized
    refine ⟨ok, _, m', grow, ?_, fun room => ?_⟩
    · split_ifs at sized with up
      · exact allocuvm_room owns sized
      · obtain ⟨-, -, frees⟩ := deallocuvm_spec (Nat.le_of_lt bound) (by omega) sized
        have := frees.length owns
        obtain ⟨-, -, -, oom⟩ := frees
        exact fun _ => ⟨oom, by omega⟩
    by_cases up : 0 < n
    · rw [if_pos up] at sized
      cases allocuvm_spec sized with
      | tooBig big => omega
      | smaller _ less => omega
      | outOfMemory _ _ undone =>
        rw [undone.oom] at room
        cases room
      | grown _ more pages gains zeroed =>
        rw [if_neg (by omega)]
        exact ⟨ok_.mpr (by omega), rfl, fits, ⟨backs.whole.1, rfl⟩, pd', rfl,
          holds.grown more fits pages gains zeroed⟩
    · rw [if_neg up] at sized
      obtain ⟨rfl, cleared, frees⟩ := deallocuvm_spec (Nat.le_of_lt bound) (by omega) sized
      rw [vpn_pgroundup (by omega)] at cleared
      rw [if_neg (by omega)]
      exact ⟨ok_.mpr (by omega), rfl, fits, ⟨backs.whole.1, rfl⟩, pd', rfl,
        holds.shrunk (by omega) bound cleared frees⟩

/-- A lazy kernel reserves whole pages by changing the size alone. -/
theorem Backs.reserve {size : Int} {newsz : Nat} (backs : Backs L true A p m)
    (sum : (newsz : Int) = A.sz + size) (valid : 0 ≤ size ∧ size % 4096 = 0)
    (fits : newsz < kernbase) : Backs L true (A.resize newsz) (mmap size p).2 m := by
  have kern : kernbase = 2147483648 := rfl
  have old := backs.size
  obtain ⟨pd, had, holds⟩ := backs.pages
  have grows : npages A.sz ≤ npages newsz := by unfold npages; omega
  refine ⟨?_, fits, backs.whole, pd, had, holds.owns, fun v low high => ?_, fun v hv => ?_⟩
  · show uaddInt p.sz size = newsz
    rw [old]
    unfold uaddInt
    omega
  · exact holds.above v (Nat.le_trans grows low) high
  · by_cases below : v < npages A.sz
    · exact (holds.stands v below).resize below
    · have inside := npages_le_kernPage (Nat.le_of_lt fits)
      have hv : v < npages newsz := hv
      refine .inr ⟨rfl, holds.above v (by omega) (by omega), if_pos (by omega)⟩

/-! ## Loads and stores -/

theorem Kmem.write_data (m : Kmem) (q o : Nat) (b : UInt8) (r : Nat) :
    (m.write q o [b]).data r = if r = q then fun x => if x = o then b else m.data q x
      else m.data r := by
  by_cases here : r = q
  · subst here
    rw [if_pos rfl]
    funext x
    simp only [Kmem.write, Function.update_self, List.length_singleton]
    by_cases at_ : x = o
    · subst at_
      simp
    · rw [if_neg at_, if_neg (by omega)]
  · rw [if_neg here]
    simp [Kmem.write, here]

theorem Holds.write {e : Pte} (holds : Holds L lazily A pd m) (bound : A.sz < kernbase)
    (inside : vpn a < npages A.sz) (mapped : pd.lookup (vpn a) = some e) (b : UInt8) :
    Holds L lazily (A.write a b) pd (m.write e.ppn (a % pgsize) [b]) := by
  have kp : kernPage = 524288 := rfl
  have users := npages_le_kernPage (Nat.le_of_lt bound)
  obtain ⟨T, R, owns⟩ := holds.owns
  have held : e.ppn ∈ pd.pages :=
    Pgdir.leaf_mem_pages (by rw [vpages_eq]; omega) mapped (.inl (by omega))
  refine ⟨⟨T, R, ?_⟩, holds.above, fun v hv => ?_⟩
  · exact ⟨owns.ledger, owns.ram, owns.once⟩
  · have hv : v < npages A.sz := hv
    by_cases here : v = vpn a
    · subst here
      rcases holds.stands (vpn a) hv with present | ⟨-, absent, -⟩
      · refine .inl ?_
        rw [Pgdir.userPage, mapped, Option.map_some] at present
        have same := Option.some.inj present
        rw [Pgdir.userPage, mapped, Option.map_some, Kmem.write_data, if_pos rfl]
        simp only [AddrSpace.write, if_pos, ← same]
      · rw [absent] at mapped
        cases mapped
    · have page : (A.write a b).page v = A.page v := if_neg here
      have kept : Stands lazily A pd (m.write e.ppn (a % pgsize) [b]) v := by
        refine (holds.stands v hv).congr rfl fun f other => ?_
        rw [Kmem.write_data, if_neg]
        intro shared
        have nodup := (Multiset.nodup_add.mp owns.ledger.held_nodup).1
        exact here (Pgdir.leaf_inj nodup (by rw [vpages_eq]; omega) (by rw [vpages_eq]; omega) other
          mapped (.inl (by omega)) (.inl (by omega)) shared)
      unfold Stands
      rw [page]
      exact kept

/-- The handler brings in the page that is not there yet. -/
theorem Holds.fault {q : Nat} {fresh : Multiset Nat} (holds : Holds L lazily A pd m)
    (bound : A.sz < kernbase) (inside : vpn a < npages A.sz) (absent : pd.lookup (vpn a) = none)
    (lookup : ∀ v, pd'.lookup v =
      if v = vpn a then some (permUser.entry q) else pd.lookup v)
    (gains : Gains L 0 pd m pd' m' fresh) (zero : m'.data q = fun _ => 0) :
    Holds L lazily A pd' m' := by
  have users := npages_le_kernPage (Nat.le_of_lt bound)
  obtain ⟨T, R, owns⟩ := holds.owns
  refine ⟨⟨T, R, gains.moved.owns (owns.congr (by rw [zero_add]))⟩, fun v low high => ?_,
    fun v hv => ?_⟩
  · rw [lookup, if_neg (by omega)]
    exact holds.above v low high
  · by_cases here : v = vpn a
    · subst here
      rcases holds.stands (vpn a) hv with present | ⟨-, -, fresh⟩
      · rw [Pgdir.userPage, absent] at present
        cases present
      · refine .inl ?_
        rw [Pgdir.userPage, lookup, if_pos rfl, fresh, Option.map_some]
        simp only [Perm.entry, zero]
        rfl
    · refine (holds.stands v hv).congr (by rw [lookup, if_neg here]) fun e mapped => ?_
      exact gains.same owns (by omega) mapped

/-- A load or a store together with its repetition after a page fault; `none` if it faults
again. -/
def execute (L : Layout) (acc : Access) (a : Nat) (p : Proc) (m : Kmem) :
    Except Halt (Option UInt8 × Proc × Kmem) := do
  let (o, p, m) ← access L acc a p m
  match o with
  | .value b => .ok (some b, p, m)
  | .fault _ => do
    let (o, p, m) ← access L acc a p m
    match o with
    | .value b => .ok (some b, p, m)
    | .fault _ => .ok (none, p, m)

/-- What an access yields and does. -/
def AddrSpace.perform (A : AddrSpace) (a : Nat) : Access → UInt8 × AddrSpace
  | .load => (A.read a, A)
  | .store b => (b, A.write a b)

theorem Holds.userPte (acc : Access) (holds : Holds L lazily A pd m) (ha : a < 4294967296)
    (inside : vpn a < npages A.sz) (user : (A.page (vpn a)).u = true)
    (writable : (A.page (vpn a)).w = true) :
    (∃ e, pd.lookup (vpn a) = some e ∧ pd.userPte a acc.write = some e ∧
        A.page (vpn a) = ⟨e.u, e.w, m.data e.ppn⟩) ∨
      (lazily = true ∧ pd.lookup (vpn a) = none ∧ pd.userPte a acc.write = none) := by
  rcases holds.stands (vpn a) inside with present | ⟨late, absent, -⟩
  · obtain ⟨e, mapped, same⟩ := Option.map_eq_some_iff.mp present
    rw [← same] at user writable
    refine .inl ⟨e, mapped, ?_, same.symm⟩
    rw [Pgdir.userPte, Pgdir.pte_eq_lookup _ ha, mapped, Option.filter_some_pos]
    simp only [Bool.and_eq_true, Bool.or_eq_true]
    exact ⟨user, .inr writable⟩
  · refine .inr ⟨late, absent, ?_⟩
    rw [Pgdir.userPte, Pgdir.pte_eq_lookup _ ha, absent]
    rfl

/-- An access to a page that is there. -/
theorem Backs.hit {acc : Access} {e : Pte} (backs : Backs L lazily A p m) (had : p.pgdir = some pd)
    (holds : Holds L lazily A pd m) (inside : vpn a < npages A.sz)
    (mapped : pd.lookup (vpn a) = some e) (allowed : pd.userPte a acc.write = some e)
    (same : A.page (vpn a) = ⟨e.u, e.w, m.data e.ppn⟩) :
    ∃ m', access L acc a p m = .ok (.value (A.perform a acc).1, p, m') ∧
      m'.oom = m.oom ∧ m'.freelist = m.freelist ∧ Backs L lazily (A.perform a acc).2 p m' := by
  have dir : p.dir = .ok pd := by rw [Proc.dir, had]
  cases acc with
  | load =>
    refine ⟨m, ?_, rfl, rfl, backs⟩
    rw [access, dir, ok_bind, allowed]
    simp only [AddrSpace.perform, AddrSpace.read, same]
  | store b =>
    refine ⟨m.write e.ppn (a % pgsize) [b], ?_, rfl, rfl, backs.size, backs.bound, backs.whole,
      pd, had, holds.write backs.bound inside mapped b⟩
    rw [access, dir, ok_bind, allowed]
    rfl

/-- A page fault at a page of the address space that is not there: the page comes in, or memory is
exhausted and nothing changes. -/
theorem Backs.miss {acc : Access} (backs : Backs L lazily A p m) (had : p.pgdir = some pd)
    (holds : Holds L lazily A pd m) (ha : a < 4294967296) (inside : vpn a < npages A.sz)
    (absent : pd.lookup (vpn a) = none) (trapped : pd.userPte a acc.write = none) :
    ∃ ok p' m', access L acc a p m = .ok (.fault ok, p', m') ∧ Spends 2 m m' ∧
      ((Backs L lazily A p' m' ∧ ∃ pd', p'.pgdir = some pd' ∧ (pd'.lookup (vpn a)).isSome) ∨
        (m'.oom = true ∧ m.freelist.length ≤ 1 ∧ p' = p ∧ ∃ T R, Owns L T m' (pd.pages + R))) := by
  obtain ⟨T, R, owns⟩ := holds.owns
  obtain ⟨ok, pd', m', handled, fault⟩ := trapPgflt_total backs.whole
    (fun _ member => owns.free_inRam member) ha had (.inl absent)
  refine ⟨ok, _, m', by rw [access_trapped had trapped, handled]; rfl, ?_, ?_⟩
  · exact pageFaultHandler_room (pgrounddown_lt ha) (pgrounddown_aligned a) owns fault
  · have result := pageFaultHandler_spec (pgrounddown_lt ha) (pgrounddown_aligned a) fault
    cases result with
    | mapped _ lookup gains zero =>
      obtain ⟨fresh, gains, -⟩ := gains
      rw [vpn_pgrounddown] at lookup
      refine .inl ⟨⟨backs.size, backs.bound, ⟨backs.whole.1, rfl⟩, pd', rfl,
        holds.fault backs.bound inside absent lookup gains zero⟩, pd', rfl, ?_⟩
      rw [lookup, if_pos rfl]
      rfl
    | outOfMemory oom moves few =>
      refine .inr ⟨oom, few, by rw [← had], T, R, ?_⟩
      have owns' := moves.owns (owns.congr (zero_add _).symm)
      exact owns'.congr (zero_add _)

/-- A user access does what it does to the address space, unless memory is exhausted. -/
theorem Backs.execute (acc : Access) (backs : Backs L lazily A p m) (inside : a < A.sz)
    (user : (A.page (vpn a)).u = true) (writable : (A.page (vpn a)).w = true) :
    ∃ r p' m', Xv6.execute L acc a p m = .ok (r, p', m') ∧ Spends 2 m m' ∧
      (m'.oom = false → r = some (A.perform a acc).1 ∧ Backs L lazily (A.perform a acc).2 p' m') := by
  have bound := backs.bound
  have ha : a < 4294967296 := by simp only [kernbase] at bound; omega
  have below : vpn a < npages A.sz := by simp only [vpn, pgsize, npages]; omega
  obtain ⟨pd, had, holds⟩ := backs.pages
  rcases holds.userPte acc ha below user writable with
    ⟨e, mapped, allowed, same⟩ | ⟨-, absent, trapped⟩
  · obtain ⟨m', hit, oom, free, after⟩ := backs.hit had holds below mapped allowed same
    refine ⟨_, p, m', ?_, fun _ => ⟨oom, by rw [free]; omega⟩, fun _ => ⟨rfl, after⟩⟩
    rw [Xv6.execute, hit]
    rfl
  · obtain ⟨ok, p₁, m₁, first, spends, ⟨backs₁, pd₁, had₁, there⟩ | ⟨oom, few, rfl, T, R, owns⟩⟩ :=
      backs.miss had holds ha below absent trapped
    · -- the repetition finds the page
      obtain ⟨pd₂, had₂, holds₂⟩ := backs₁.pages
      rw [had₁] at had₂
      cases had₂
      rcases holds₂.userPte acc ha below user writable with
        ⟨e, mapped, allowed, same⟩ | ⟨-, absent₁, -⟩
      · obtain ⟨m', hit, oom, free, after⟩ := backs₁.hit had₁ holds₂ below mapped allowed same
        refine ⟨_, p₁, m', ?_, fun room => ?_, fun _ => ⟨rfl, after⟩⟩
        · rw [Xv6.execute, first, ok_bind]
          dsimp only
          rw [hit]
          rfl
        · rw [oom, free]
          exact spends room
      · rw [absent₁] at there
        cases there
    · obtain ⟨ok', pd', m', again, fault⟩ := trapPgflt_total backs.whole
        (fun _ member => owns.free_inRam member) ha had (.inl absent)
      refine ⟨none, { p₁ with pgdir := some pd' }, m', ?_, fun room => absurd room (by omega),
        fun room => ?_⟩
      · rw [Xv6.execute, first, ok_bind]
        dsimp only
        rw [access_trapped had trapped, again]
        rfl
      · rw [pageFaultHandler_oom (pgrounddown_lt ha) (pgrounddown_aligned a) fault oom] at room
        cases room

end RandomRepo.Xv6

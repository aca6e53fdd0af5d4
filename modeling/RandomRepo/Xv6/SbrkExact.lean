import RandomRepo.Xv6.AddrSpace

/-!
# What `growproc` leaves behind

`growproc` has resized the process exactly, or it has changed nothing that the process
can see.  Both fail when the new size is not positive, since 0 is the error result of
`deallocuvm` as well as a size and `sz + n` is computed without a sign, and when
pages above the size are mapped already.
-/

namespace RandomRepo.Xv6

variable {L : Layout} {p : Proc} {m m' : Kmem} {pd pd' : Pgdir} {T R : Multiset Nat}
  {v a sz oldsz newsz : Nat} {n : Int}

/-! ## How much memory growing takes -/

/-- The pages that `allocuvm` asks for from address `a` on: one for each page of the process and
one for each page table, where `has` says which tables there are. -/
def growDemand (newsz a : Nat) (has : Nat → Bool) : Nat :=
  if a < newsz then
    1 + (if has (pdx a) then 0 else 1) + growDemand newsz (a + pgsize) (Function.update has (pdx a) true)
  else 0
  termination_by newsz - a
  decreasing_by simp only [pgsize]; omega

/-- Whether the directory has a page table at entry `i`. -/
def Pgdir.hasTable (pd : Pgdir) (i : Nat) : Bool := (pd.pde i).isSome

/-- `allocuvm` fails if and only if there are fewer pages than it asks for. -/
theorem allocLoop_growDemand {a r : Nat} {pd : Pgdir} {m : Kmem} (aligned : a % 4096 = 0)
    (bound : newsz ≤ kernbase) (positive : 0 < newsz)
    (h : allocLoop L oldsz newsz a pd m = .ok (r, pd', m')) :
    r = 0 ↔ m.freelist.length < growDemand newsz a pd.hasTable := by
  have kern : kernbase = 2147483648 := rfl
  rcases allocLoop_cases h with
    ⟨outside, rfl, rfl, rfl⟩ | ⟨inside, rfl, m₁, s, page, -⟩ |
      ⟨inside, rfl, p, m₁, pd₁, m₂, s, m₃, page, turn, -, -⟩ |
      ⟨inside, p, m₁, pd₁, m₂, page, turn, rest⟩
  · rw [growDemand, if_neg (by omega)]
    omega
  · rw [growDemand, if_pos inside, (kalloc_none_oom page).1]
    simp only [List.length_nil, true_iff]
    omega
  · rw [mappages_one (by omega) aligned] at turn
    rcases mapPage_cases (by omega) turn with ⟨-, -, absent, none_⟩ | ⟨impossible, -⟩
    · have length := kalloc_length page
      have empty : m₁.freelist = [] := (kalloc_none_oom none_).1
      have missing : pd.hasTable (pdx a) = false := by rw [Pgdir.hasTable, absent]; rfl
      rw [growDemand, if_pos inside, missing, length, empty]
      simp only [List.length_nil, Bool.false_eq_true, if_false, true_iff]
      omega
    · cases impossible
  · obtain ⟨turn, -, -, next, -⟩ := allocLoop_turn L aligned (by omega) page turn
    have length := kalloc_length page
    have tables : pd₁.hasTable = Function.update pd.hasTable (pdx a) true := by
      funext i
      have some := mapPage_isSome (by omega) turn i
      unfold Pgdir.hasTable
      by_cases here : i = pdx a
      · rw [here, Function.update_self]
        rw [here] at some
        exact some.mpr (.inr ⟨rfl, rfl⟩)
      · rw [Function.update_of_ne here, Bool.eq_iff_iff, some]
        exact or_iff_left fun both => here both.2
    have left := allocLoop_growDemand next bound positive rest
    rw [left, tables]
    conv_rhs => rw [growDemand, if_pos inside]
    rcases mapPage_cases (by omega) turn with ⟨impossible, -⟩ | ⟨-, -, pd₂, walk, -⟩
    · cases impossible
    rcases walkpgdir_cases walk with ⟨-, present, -, same⟩ | ⟨impossible, -⟩ | ⟨q, -, -, absent, table, -⟩
    · have there : pd.hasTable (pdx a) = true := present
      have same : m₂.freelist = m₁.freelist := by rw [same]; rfl
      rw [there, length, same]
      simp only [if_true]
      omega
    · cases impossible
    · have missing : pd.hasTable (pdx a) = false := by rw [Pgdir.hasTable, absent]; rfl
      have second : (m₁.memset p 0).freelist.length = m₂.freelist.length + 1 := kalloc_length table
      have same : (m₁.memset p 0).freelist = m₁.freelist := rfl
      rw [missing, length, ← same, second]
      simp only [Bool.false_eq_true, if_false]
      omega
  termination_by newsz - a
  decreasing_by simp only [pgsize]; omega

/-- The pages that stay mapped keep their contents, whether the growth succeeds or not. -/
theorem allocLoop_kept {a r : Nat} {pd : Pgdir} {m : Kmem} {R : Multiset Nat} {e : Pte}
    (aligned : a % 4096 = 0) (bound : newsz ≤ kernbase) (start : oldsz ≤ a)
    (h : allocLoop L oldsz newsz a pd m = .ok (r, pd', m')) (owns : Owns L T m (pd.pages + R))
    (user : v < kernPage) (before : pd.lookup v = some e) (after : pd'.lookup v = some e) :
    m'.data e.ppn = m.data e.ppn := by
  have kern : kernbase = 2147483648 := rfl
  have small : v < vpages := by rw [vpages_eq]; simp only [kernPage] at user; omega
  have held : e.ppn ∈ pd.pages := Pgdir.leaf_mem_pages small before (.inl user)
  rcases allocLoop_cases h with
    ⟨outside, rfl, rfl, rfl⟩ | ⟨inside, rfl, m₁, s, page, dealloc⟩ |
      ⟨inside, rfl, p, m₁, pd₁, m₂, s, m₃, page, turn, dealloc, free⟩ |
      ⟨inside, p, m₁, pd₁, m₂, page, turn, rest⟩
  · rfl
  · obtain ⟨-, -, frees⟩ := deallocuvm_spec bound (by omega) dealloc
    have moved := (kalloc_none_moves (L := L) page).frame pd.pages
    have owns₁ : Owns L T m₁ (pd.pages + R) :=
      (moved.congr (zero_add _) (zero_add _)).owns owns
    rw [frees.same owns₁ user after]
    exact (kalloc_none_moves page).same (owns.congr (zero_add _).symm)
      (Multiset.mem_add.mpr (.inl held))
  · rw [mappages_one (by omega) aligned] at turn
    obtain ⟨rfl, -, -, -, took⟩ := mapPage_new_fail page (memset_moves (L := L) 0) (by omega) turn
    obtain ⟨-, -, frees⟩ := deallocuvm_spec bound (by omega) dealloc
    have owns₀ : Owns L T m (0 + (pd₁.pages + R)) := owns.congr (zero_add _).symm
    have owns₂ : Owns L T m₂ (pd₁.pages + ({p} + R)) := by
      refine (took.owns owns₀).congr ?_
      rw [add_left_comm]
    have owns₃ : Owns L T m₃ ({p} + (pd'.pages + R)) := by
      refine (frees.moves.owns owns₂).congr ?_
      rw [add_left_comm]
    have held' : e.ppn ∈ pd'.pages := Pgdir.leaf_mem_pages small after (.inl user)
    rw [(kfree_moves free).same owns₃ (Multiset.mem_add.mpr (.inl held')),
      frees.same owns₂ user after, took.same owns₀ (Multiset.mem_add.mpr (.inl held))]
  · obtain ⟨turn, unmapped, lookup, next, fresh, gains⟩ :=
      allocLoop_turn L aligned (by omega) page turn
    have owns₁ : Owns L T m₂ (pd₁.pages + R) := gains.moved.owns (owns.congr (by rw [zero_add]))
    have other : v ≠ vpn a := by
      rintro rfl
      rw [unmapped] at before
      cases before
    have middle : pd₁.lookup v = some e := by
      rw [lookup, if_neg other]
      exact before
    rw [allocLoop_kept next bound (by omega) rest owns₁ user middle after]
    exact gains.same owns user before
  termination_by newsz - a
  decreasing_by simp only [pgsize]; omega

theorem allocuvm_growDemand {r : Nat} (fits : newsz < kernbase) (more : oldsz < newsz)
    (h : allocuvm L pd oldsz newsz m = .ok (r, pd', m')) :
    r = 0 ↔ m.freelist.length < growDemand newsz (pgroundup oldsz) pd.hasTable := by
  rw [allocuvm, if_neg (by omega), if_neg (by omega)] at h
  exact allocLoop_growDemand (pgroundup_aligned oldsz) (by omega) (by omega) h

theorem allocuvm_kept {r : Nat} {e : Pte} (fits : newsz < kernbase) (more : oldsz < newsz)
    (h : allocuvm L pd oldsz newsz m = .ok (r, pd', m')) (owns : Owns L T m (pd.pages + R))
    (user : v < kernPage) (before : pd.lookup v = some e) (after : pd'.lookup v = some e) :
    m'.data e.ppn = m.data e.ppn := by
  rw [allocuvm, if_neg (by omega), if_neg (by omega)] at h
  exact allocLoop_kept (pgroundup_aligned oldsz) (by omega) (le_pgroundup (by omega)) h owns user
    before after

/-! ## The law -/

/-- A process with all its pages, and possibly with user pages above its size. -/
structure Sized (L : Layout) (p : Proc) (pd : Pgdir) (m : Kmem) : Prop where
  positive : 0 < p.sz
  bound : p.sz < kernbase
  whole : p.Whole
  had : p.pgdir = some pd
  owns : ∃ T R, Owns L T m (pd.pages + R)
  mapped : ∀ v, v < npages p.sz → (pd.lookup v).isSome

/-- The user pages are those of the new size.  Those that were there before are as they were, the
others are new. -/
structure Resized (pd pd' : Pgdir) (m m' : Kmem) (sz newsz : Nat) : Prop where
  mapped : ∀ v, v < kernPage → ((pd'.lookup v).isSome ↔ v < npages newsz)
  retained : ∀ v, v < npages sz → v < npages newsz → pd'.userPage m' v = pd.userPage m v
  fresh : ∀ v, npages sz ≤ v → v < npages newsz → pd'.userPage m' v = some freshPage

/-- All user pages are as they were. -/
def Unchanged (pd pd' : Pgdir) (m m' : Kmem) : Prop :=
  ∀ v, v < kernPage → pd'.userPage m' v = pd.userPage m v

/-- `growproc` returns; on 0 the process has the size `sz + n`, on -1 it is as it was. -/
def GrowExact (L : Layout) (n : Int) (p : Proc) (pd : Pgdir) (m : Kmem) : Prop :=
  ∃ ok p' pd' m', growproc L n p m = .ok (ok, p', m') ∧ p'.pgdir = some pd' ∧
    ((ok = true ∧ (p'.sz : Int) = p.sz + n ∧ Resized pd pd' m m' p.sz p'.sz) ∨
      (ok = false ∧ p'.sz = p.sz ∧ Unchanged pd pd' m m'))

/-- No user page is mapped above the size. -/
def NoStray (pd : Pgdir) (sz : Nat) : Prop :=
  ∀ v, npages sz ≤ v → v < kernPage → pd.lookup v = none

/-- The new size is positive and nothing is mapped above the old one; or `growproc` fails, the new
size being too large, or memory too short and no page of the growth mapped. -/
def GrowSafe (n : Int) (p : Proc) (pd : Pgdir) (m : Kmem) : Prop :=
  (0 < p.sz + n ∧ NoStray pd p.sz) ∨
  (0 < n ∧ (kernbase : Int) ≤ p.sz + n) ∨
  (0 < n ∧ p.sz + n < (kernbase : Int) ∧
    (∀ v, npages p.sz ≤ v → (v : Int) * 4096 < p.sz + n → pd.lookup v = none) ∧
    m.freelist.length < growDemand (p.sz + n).toNat (pgroundup p.sz) pd.hasTable)

theorem Pgdir.userPage_isSome : (pd.userPage m v).isSome = (pd.lookup v).isSome := by
  rw [Pgdir.userPage, Option.isSome_map]

theorem Pgdir.userPage_congr (lookup : pd'.lookup v = pd.lookup v)
    (data : ∀ e, pd.lookup v = some e → m'.data e.ppn = m.data e.ppn) :
    pd'.userPage m' v = pd.userPage m v := by
  rw [Pgdir.userPage, Pgdir.userPage, lookup]
  cases mapped : pd.lookup v with
  | none => rfl
  | some e => rw [Option.map_some, Option.map_some, data e mapped]

theorem Resized.noStray (resized : Resized pd pd' m m' sz newsz) : NoStray pd' newsz := by
  intro v above user
  have none_ := (resized.mapped v user).not.mpr (Nat.not_lt.mpr above)
  simpa using none_

/-- An eager process that holds its address space has been resized exactly. -/
theorem Resized.of_holds {A : AddrSpace}
    (before : ∀ v, v < npages A.sz → pd.userPage m v = some (A.page v))
    (after : Holds L false (A.resize newsz) pd' m') : Resized pd pd' m m' A.sz newsz := by
  have present : ∀ v, v < npages newsz →
      pd'.userPage m' v = some ((A.resize newsz).page v) := by
    intro v inside
    rcases after.stands v inside with there | ⟨impossible, -⟩
    · exact there
    · cases impossible
  refine ⟨fun v user => ⟨fun mapped => ?_, fun inside => ?_⟩, fun v old inside => ?_,
    fun v above inside => ?_⟩
  · by_contra outside
    rw [after.above v (Nat.le_of_not_lt outside) user] at mapped
    cases mapped
  · rw [← Pgdir.userPage_isSome (m := m'), present v inside]
    rfl
  · rw [present v inside, before v old, AddrSpace.resize]
    dsimp only
    rw [if_neg (by omega)]
  · rw [present v inside, AddrSpace.resize]
    dsimp only
    rw [if_pos above]

namespace Sized

/-- What the process is for its own code. -/
def space (p : Proc) (pd : Pgdir) (m : Kmem) : AddrSpace :=
  ⟨p.sz, fun v => (pd.userPage m v).getD freshPage⟩

theorem space_page (sized : Sized L p pd m) (inside : v < npages p.sz) :
    pd.userPage m v = some ((space p pd m).page v) := by
  have there := sized.mapped v inside
  rw [← Pgdir.userPage_isSome (m := m)] at there
  obtain ⟨page, here⟩ := Option.isSome_iff_exists.mp there
  rw [space]
  dsimp only
  rw [here, Option.getD_some]

theorem holds (sized : Sized L p pd m) (clear : NoStray pd p.sz) :
    Holds L false (space p pd m) pd m :=
  ⟨sized.owns, clear, fun _ inside => .inl (sized.space_page inside)⟩

/-- `growproc` does what `allocuvm` and `deallocuvm` do. -/
theorem growExact_iff (sized : Sized L p pd m) (nonzero : n ≠ 0) :
    GrowExact L n p pd m ↔ ∃ r pd' m',
      (if 0 < n then allocuvm L pd p.sz (uaddInt p.sz n) m
        else deallocuvm L pd p.sz (uaddInt p.sz n) m) = .ok (r, pd', m') ∧
      ((r ≠ 0 ∧ (r : Int) = p.sz + n ∧ Resized pd pd' m m' p.sz r) ∨
        (r = 0 ∧ Unchanged pd pd' m m')) := by
  constructor
  · rintro ⟨ok, p', pd', m', grow, had', outcome⟩
    rcases growproc_cases grow with ⟨zero, -⟩ | ⟨-, pd₀, pd₁, r, had, ok_, rfl, resize⟩
    · exact absurd zero nonzero
    rw [sized.had] at had
    cases had
    cases had'
    refine ⟨r, pd', m', resize, ?_⟩
    rcases outcome with ⟨rfl, size, resized⟩ | ⟨rfl, -, same⟩
    · have success : r ≠ 0 := ok_.mp rfl
      dsimp only at size resized
      rw [if_neg success] at size resized
      exact .inl ⟨success, size, resized⟩
    · have failure : r = 0 := by
        by_contra success
        cases ok_.mpr success
      exact .inr ⟨failure, same⟩
  · rintro ⟨r, pd', m', resize, outcome⟩
    have dir : p.dir = .ok pd := by rw [Proc.dir, sized.had]
    rcases outcome with ⟨success, size, resized⟩ | ⟨rfl, same⟩
    · have stays : Proc.Whole { p with pgdir := some pd', sz := r } := ⟨sized.whole.1, rfl⟩
      refine ⟨true, { p with pgdir := some pd', sz := r }, pd', m', ?_, rfl,
        .inl ⟨rfl, size, resized⟩⟩
      rw [growproc, if_neg nonzero, dir, ok_bind]
      dsimp only
      rw [resize, ok_bind]
      dsimp only
      rw [if_neg success, switchuvm_ok stays]
      rfl
    · refine ⟨false, { p with pgdir := some pd' }, pd', m', ?_, rfl, .inr ⟨rfl, rfl, same⟩⟩
      rw [growproc, if_neg nonzero, dir, ok_bind]
      dsimp only
      rw [resize, ok_bind]
      rfl

theorem exact_zero (sized : Sized L p pd m) : GrowExact L 0 p pd m ↔ GrowSafe 0 p pd m := by
  have positive := sized.positive
  have same : growproc L 0 p m = .ok (true, p, m) := by
    rw [growproc, if_pos rfl, switchuvm_ok sized.whole]
    rfl
  constructor
  · rintro ⟨ok, p', pd', m', grow, had', outcome⟩
    rw [same] at grow
    cases grow
    rw [sized.had] at had'
    cases had'
    rcases outcome with ⟨-, -, resized⟩ | ⟨impossible, -⟩
    · exact .inl ⟨by omega, resized.noStray⟩
    · cases impossible
  · rintro (⟨-, clear⟩ | ⟨impossible, -⟩ | ⟨impossible, -⟩)
    · refine ⟨true, p, pd, m, same, sized.had, .inl ⟨rfl, by omega, fun v user => ⟨fun there => ?_,
        sized.mapped v⟩, fun _ _ _ => rfl, fun v above inside => by omega⟩⟩
      by_contra outside
      rw [clear v (Nat.le_of_not_lt outside) user] at there
      cases there
    · omega
    · omega

/-- Growing. -/
theorem exact_up (sized : Sized L p pd m) (isInt : IsInt n) (up : 0 < n) :
    GrowExact L n p pd m ↔ GrowSafe n p pd m := by
  have kern : kernbase = 2147483648 := rfl
  have kp : kernPage = 524288 := rfl
  have bound := sized.bound
  obtain ⟨-, high⟩ := isInt
  obtain ⟨newsz, sum⟩ : ∃ newsz : Nat, (newsz : Int) = p.sz + n := ⟨(p.sz + n).toNat, by omega⟩
  have target : uaddInt p.sz n = newsz := by unfold uaddInt; omega
  have whole : (p.sz + n).toNat = newsz := by omega
  obtain ⟨T, R, owns⟩ := sized.owns
  rw [sized.growExact_iff (by omega), if_pos up, target]
  unfold GrowSafe
  rw [whole, ← sum]
  constructor
  · rintro ⟨r, pd', m', alloc, outcome⟩
    rcases allocuvm_spec alloc with big | ⟨-, less⟩ | ⟨fits, more, pages, -, -⟩ | ⟨fits, more, undone⟩
    · exact .inr (.inl ⟨up, by omega⟩)
    · omega
    · rcases outcome with ⟨-, -, resized⟩ | ⟨impossible, -⟩
      · refine .inl ⟨by omega, fun v above user => ?_⟩
        by_cases inside : v * 4096 < newsz
        · exact pages.unmapped v above inside
        · rw [← pages.other v (fun both => inside both.2)]
          exact resized.noStray v (Nat.le_of_not_lt (mt lt_npages.mp inside)) user
      · omega
    · rcases outcome with ⟨impossible, -⟩ | ⟨-, same⟩
      · exact absurd rfl impossible
      · refine .inr (.inr ⟨up, by omega, fun v above inside => ?_,
          (allocuvm_growDemand fits more alloc).mp rfl⟩)
        have inside : v * 4096 < newsz := by omega
        have gone : pd'.lookup v = none := by rw [undone.lookup, if_pos ⟨above, inside⟩]
        have kept := same v (by omega)
        rw [Pgdir.userPage, Pgdir.userPage, gone] at kept
        exact Option.map_eq_none_iff.mp kept.symm
  · -- over pages that are not mapped `allocuvm` returns, with one of the two outcomes
    have returns : newsz < kernbase →
        (∀ v, npages p.sz ≤ v → v * 4096 < newsz → pd.lookup v = none) →
        ∃ r pd' m', allocuvm L pd p.sz newsz m = .ok (r, pd', m') ∧
          ((r = 0 ∧ Unchanged pd pd' m m') ∨ (r = newsz ∧ (NoStray pd p.sz →
            Resized pd pd' m m' p.sz newsz))) := by
      intro fits unmapped
      obtain ⟨r, pd', m', alloc⟩ := allocuvm_total unmapped owns
      refine ⟨r, pd', m', alloc, ?_⟩
      rcases allocuvm_spec alloc with big | ⟨-, less⟩ | ⟨-, more, pages, gains, zeroed⟩ |
        ⟨-, more, undone⟩
      · omega
      · omega
      · refine .inr ⟨rfl, fun clear => ?_⟩
        exact .of_holds (fun v inside => sized.space_page inside)
          ((sized.holds clear).grown more fits pages gains zeroed)
      · refine .inl ⟨rfl, fun v user => ?_⟩
        have lookup : pd'.lookup v = pd.lookup v := by
          rw [undone.lookup]
          split_ifs with gone
          · exact (unmapped v gone.1 gone.2).symm
          · rfl
        refine Pgdir.userPage_congr lookup fun e mapped => ?_
        exact allocuvm_kept fits more alloc owns user mapped (lookup.trans mapped)
    rintro (⟨-, clear⟩ | ⟨-, big⟩ | ⟨-, fits, unmapped, short⟩)
    · by_cases fits : newsz < kernbase
      · obtain ⟨r, pd', m', alloc, ⟨rfl, same⟩ | ⟨rfl, resized⟩⟩ :=
          returns fits fun v above inside => clear v above (by omega)
        · exact ⟨0, pd', m', alloc, .inr ⟨rfl, same⟩⟩
        · exact ⟨r, pd', m', alloc, .inl ⟨by omega, rfl, resized clear⟩⟩
      · refine ⟨0, pd, m, ?_, .inr ⟨rfl, fun _ _ => rfl⟩⟩
        rw [allocuvm, if_pos (by omega)]
    · refine ⟨0, pd, m, ?_, .inr ⟨rfl, fun _ _ => rfl⟩⟩
      rw [allocuvm, if_pos (by omega)]
    · obtain ⟨r, pd', m', alloc, ⟨rfl, same⟩ | ⟨rfl, -⟩⟩ :=
        returns (by omega) fun v above inside => unmapped v above (by omega)
      · exact ⟨0, pd', m', alloc, .inr ⟨rfl, same⟩⟩
      · have zero := (allocuvm_growDemand (by omega) (by omega) alloc).mpr short
        omega

/-- Shrinking. -/
theorem exact_down (sized : Sized L p pd m) (isInt : IsInt n) (down : n < 0) :
    GrowExact L n p pd m ↔ GrowSafe n p pd m := by
  have kern : kernbase = 2147483648 := rfl
  have kp : kernPage = 524288 := rfl
  have positive := sized.positive
  have bound := sized.bound
  obtain ⟨low, -⟩ := isInt
  obtain ⟨T, R, owns⟩ := sized.owns
  rw [sized.growExact_iff (by omega), if_neg (by omega)]
  constructor
  · rintro ⟨r, pd', m', dealloc, outcome⟩
    by_cases wraps : p.sz + n < 0
    · -- the new size is above the old one, and nothing happens
      have target : p.sz ≤ uaddInt p.sz n := by unfold uaddInt; omega
      rw [deallocuvm, if_pos target] at dealloc
      cases dealloc
      rcases outcome with ⟨-, size, -⟩ | ⟨zero, -⟩
      · omega
      · omega
    have target : (uaddInt p.sz n : Int) = p.sz + n := by unfold uaddInt; omega
    obtain ⟨rfl, cleared, -⟩ := deallocuvm_spec (Nat.le_of_lt bound) (by omega) dealloc
    rw [vpn_pgroundup (by omega)] at cleared
    rcases outcome with ⟨success, -, resized⟩ | ⟨zero, same⟩
    · refine .inl ⟨by omega, fun v above user => ?_⟩
      have outside : ¬ v * 4096 < p.sz := fun inside => by
        have := lt_npages.mpr inside
        omega
      have gone := resized.noStray v (Nat.le_trans (by unfold npages; omega) above) user
      rwa [cleared.lookup, if_neg (fun both => outside both.2)] at gone
    · -- page 0 was there and is gone
      have inside : 0 * 4096 < p.sz := by rwa [Nat.zero_mul]
      have first : 0 < npages p.sz := lt_npages.mpr inside
      have there := sized.mapped 0 first
      have gone : pd'.lookup 0 = none := by
        rw [cleared.lookup, if_pos ⟨by rw [zero]; decide, inside⟩]
      have kept := same 0 (by omega)
      rw [← Pgdir.userPage_isSome (m := m), ← kept, Pgdir.userPage_isSome, gone] at there
      cases there
  · rintro (⟨above, clear⟩ | ⟨impossible, -⟩ | ⟨impossible, -⟩)
    · have target : (uaddInt p.sz n : Int) = p.sz + n := by unfold uaddInt; omega
      obtain ⟨r, pd', m', dealloc⟩ := deallocuvm_total (uaddInt p.sz n) (Nat.le_of_lt bound) owns
      obtain ⟨rfl, cleared, frees⟩ := deallocuvm_spec (Nat.le_of_lt bound) (by omega) dealloc
      rw [vpn_pgroundup (by omega)] at cleared
      refine ⟨_, pd', m', dealloc, .inl ⟨by omega, target, ?_⟩⟩
      exact .of_holds (fun v inside => sized.space_page inside)
        ((sized.holds clear).shrunk (A := space p pd m) (by show uaddInt p.sz n < p.sz; omega)
          bound cleared frees)
    · omega
    · omega

end Sized

/-- **Exact or without effect.**  `growproc` resizes the process exactly or leaves it as it is if
and only if the new size is positive with nothing mapped above the old one, or it has to refuse. -/
theorem growproc_exact (sized : Sized L p pd m) (n : CInt) :
    GrowExact L n.val p pd m ↔ GrowSafe n.val p pd m := by
  rcases Int.lt_trichotomy n.val 0 with down | zero | up
  · exact sized.exact_down n.property down
  · rw [zero]
    exact sized.exact_zero
  · exact sized.exact_up n.property up

theorem Booted.sized {k : Kernel} (booted : Booted L k) :
    ∃ pd, Sized L (k.proc 0) pd k.mem ∧ NoStray pd (k.proc 0).sz := by
  have one : npages (k.proc 0).sz = 1 := by rw [booted.sz]; rfl
  obtain ⟨pd, q, had, lookup⟩ := booted.dir
  obtain ⟨R, owns⟩ := booted.accounted.dir booted.alive_first had
  refine ⟨pd, ⟨by rw [booted.sz]; decide, by rw [booted.sz]; decide,
    booted.whole 0 booted.alive_first, had, ⟨_, R, owns⟩, fun v inside => ?_⟩, fun v above user => ?_⟩
  · rw [lookup, if_pos (by omega)]
    rfl
  · rw [lookup, if_neg (by omega)]
    exact kernelEntry_user user

/-- The first process, of one page, grows by a page. -/
theorem growproc_exact_first : ∃ k pd, boot kernelSym blankMachine = .ok k ∧
    GrowExact kernelSym onePage.val (k.proc 0) pd k.mem := by
  obtain ⟨k, start, booted⟩ := boot_spec kernelSym blankMachine
  obtain ⟨pd, sized, clear⟩ := booted.sized
  refine ⟨k, pd, start, (growproc_exact sized onePage).mpr (.inl ⟨?_, clear⟩)⟩
  rw [booted.sz]
  decide

/-- The first process, of one page, shrinks by this page.  The result is -1, and the page is gone
while the size is as it was. -/
theorem growproc_gives_back_all : ∃ k pd p' pd' m', boot kernelSym blankMachine = .ok k ∧
    Sized kernelSym (k.proc 0) pd k.mem ∧ (k.proc 0).sz = pgsize ∧ (pd.lookup 0).isSome ∧
    growproc kernelSym (-4096) (k.proc 0) k.mem = .ok (false, p', m') ∧
    p'.sz = pgsize ∧ p'.pgdir = some pd' ∧ pd'.lookup 0 = none := by
  obtain ⟨k, start, booted⟩ := boot_spec kernelSym blankMachine
  obtain ⟨pd, sized, -⟩ := booted.sized
  obtain ⟨T, R, owns⟩ := sized.owns
  have size := booted.sz
  have small : (k.proc 0).sz ≤ kernbase := Nat.le_of_lt sized.bound
  obtain ⟨r, pd', m', dealloc⟩ := deallocuvm_total 0 small owns
  obtain ⟨rfl, cleared, -⟩ := deallocuvm_spec small sized.positive dealloc
  have target : uaddInt (k.proc 0).sz (-4096) = 0 := by rw [size]; decide
  have dir : (k.proc 0).dir = .ok pd := by rw [Proc.dir, sized.had]
  refine ⟨k, pd, { k.proc 0 with pgdir := some pd' }, pd', m', start, sized, size,
    sized.mapped 0 (by rw [size]; decide), ?_, size, rfl, ?_⟩
  · rw [growproc, if_neg (by decide), dir, ok_bind]
    dsimp only
    rw [if_neg (by decide), target, dealloc, ok_bind]
    rfl
  · rw [cleared.lookup, size, if_pos (by decide)]

end RandomRepo.Xv6

import RandomRepo.Xv6.UserRun

/-!
# `fork`

`copyuvm` panics at a page below the size that is not present, as the pages that
`mmap` has reserved are before they are touched.  When `fork` returns, the child
sees what the parent sees, and the two share no page.
-/

namespace RandomRepo.Xv6

variable {L : Layout} {M : Machine} {i j a : Nat} {k₀ k k' : Kernel} {pd : Pgdir}
  {T R : Multiset Nat}

/-- The byte a user load of process `i` at `a` yields, if it does not fault. -/
def Kernel.observe (k : Kernel) (i a : Nat) : Option UInt8 :=
  (k.proc i).pgdir.bind fun pd =>
    (pd.userPte a false).map fun e => k.mem.data e.ppn (a % pgsize)

/-! ## Pages of different processes -/

theorem Accounted.mem_held {q : Nat} (hj : j < nproc) (h : q ∈ (k.proc j).pages) : q ∈ k.held := by
  rw [Kernel.held]
  refine Multiset.mem_add.mpr (.inr ?_)
  exact Multiset.mem_sum.mpr ⟨j, Finset.mem_range.mpr hj, h⟩

theorem Accounted.apart {q : Nat} (inv : Accounted L T k) (hi : i < nproc) (hj : j < nproc)
    (other : j ≠ i) (h : q ∈ (k.proc j).pages) : q ∉ (k.proc i).pages := by
  intro also
  have nodup := inv.owns.ledger.held_nodup
  rw [Kernel.held] at nodup
  exact other (nodup_sum_range_apart (Multiset.nodup_add.mp nodup).2.1 hj hi h also)

theorem Proc.user_page_mem {p : Proc} {v : Nat} {e : Pte} (live : p.state ≠ .unused)
    (bound : p.sz ≤ kernbase) (had : p.pgdir = some pd) (inside : v < npages p.sz)
    (mapped : pd.lookup v = some e) : e.ppn ∈ p.pages := by
  have user : v < kernPage := Nat.lt_of_lt_of_le inside (npages_le_kernPage bound)
  have small : v < vpages := by rw [vpages_eq]; simp only [kernPage] at user; omega
  rw [Proc.pages_of_dir live had]
  exact Multiset.mem_add.mpr (.inr (Pgdir.leaf_mem_pages small mapped (.inl user)))

/-- `fork` returns, or it panics in `copyuvm` at a page that is absent. -/
theorem fork_ends (inv : Accounted L T k) (refs : k.Refs) (alive : k.Alive i)
    (had : (k.proc i).pgdir = some pd) :
    (∃ r k', Xv6.fork L i k = .ok (r, k')) ∨
      ∃ n h, (k.proc n).state = .unused ∧ n < nproc ∧ h < npages (k.proc i).sz ∧
        pd.lookup h = none ∧ copyPages h < k.mem.freelist.length ∧
        (Xv6.fork L i k = .error (.panic .copyuvmPte) ∨
          Xv6.fork L i k = .error (.panic .copyuvmPresent)) := by
  have dir : (k.proc i).dir = .ok pd := by rw [Proc.dir, had]
  rcases alloc : allocproc k with ⟨slot, k₁⟩
  rcases allocproc_cases alloc with ⟨rfl, rfl, full⟩ | ⟨n, free, ⟨rfl, m, page, rfl⟩ |
    ⟨rfl, s, m, page, rfl⟩⟩
  · exact .inl ⟨_, _, by rw [Xv6.fork, alloc]⟩
  · exact .inl ⟨_, _, by rw [Xv6.fork, alloc]⟩
  · have one := kalloc_length page
    have owns := (kalloc_some_moves page).owns (inv.owns.congr (zero_add _).symm)
    rw [fork_alloc alive.2 free alloc, dir, ok_bind]
    cases copyuvm_ends pd (inv.bound i alive) owns with
    | panics inside hole lasts panics =>
      refine .inr ⟨n, _, free.unused, free.bound, inside, hole, by omega, ?_⟩
      rcases panics with panics | panics <;> rw [panics]
      · exact .inl rfl
      · exact .inr rfl
    | @returns d m₂ copy =>
      refine .inl ?_
      rw [copy, ok_bind]
      cases d with
      | none =>
        cases copyuvm_spec (inv.bound i alive) copy with
        | outOfMemory moves =>
          obtain ⟨m₃, freed⟩ := (moves.owns (owns.congr (zero_add _).symm)).kfree
            (p := s) (by simp)
          exact ⟨_, _, bind_ok_iff.mpr ⟨m₃, freed, rfl⟩⟩
      | some d =>
        have used : ∀ fd f, fd ∈ List.range nofile → (k.proc i).ofile fd = some f →
            0 < k.files.ref f :=
          fun fd f member open_ => refs.used alive.1 (List.mem_range.mp member) open_
        obtain ⟨fs, dup⟩ := dupFiles_total used
        exact ⟨_, _, bind_ok_iff.mpr ⟨fs, dup, rfl⟩⟩

/-- No process has been made, and the same pages are free. -/
theorem Owns.same_free {m m' : Kmem} (before : Owns L T m R) (after : Owns L T m' R) :
    (m'.freelist : Multiset Nat) = m.freelist :=
  add_right_cancel (after.ledger.balance.trans before.ledger.balance.symm)

theorem Copied.userPte {src d : Pgdir} {n : Nat} (copied : Copied L src n d)
    (ha : a < 4294967296) (inside : vpn a < n) :
    ∃ e p, src.lookup (vpn a) = some e ∧ d.lookup (vpn a) = some (e.perm.entry p) ∧
      src.userPte a false = (if e.u then some e else none) ∧
      d.userPte a false = if e.u then some (e.perm.entry p) else none := by
  obtain ⟨e, p, here, there⟩ := copied.copy (vpn a) inside
  refine ⟨e, p, here, there, ?_, ?_⟩
  · rw [Pgdir.userPte, Pgdir.pte_eq_lookup _ ha, here]
    cases flag : e.u <;> simp [flag]
  · rw [Pgdir.userPte, Pgdir.pte_eq_lookup _ ha, there]
    cases flag : e.u <;> simp [flag, Perm.entry, Pte.perm]

theorem Fork.outcome {r : Nat} (fork : Fork L i k r k') (inv : Accounted L T k)
    (alive : k.Alive i) :
    k'.proc i = k.proc i ∧
    ((r = minusOne ∧ (k'.mem.freelist : Multiset Nat) = k.mem.freelist) ∨
      ∃ n, n ≠ i ∧ (k.proc n).state = .unused ∧ (k'.proc n).state = .runnable ∧
        (k'.proc n).sz = (k.proc i).sz ∧ ∀ a, a < (k.proc i).sz →
          k'.observe n a = k.observe i a ∧ k'.observe i a = k.observe i a) := by
  have apart : ∀ {n}, FreeSlot k n → i ≠ n := by
    rintro n slot rfl
    exact alive.2 slot.unused
  cases fork with
  | full => exact ⟨rfl, .inl ⟨rfl, rfl⟩⟩
  | noStack slot page =>
    refine ⟨Kernel.setProc_ne _ (apart slot) _, .inl ⟨rfl, ?_⟩⟩
    have owns := (kalloc_none_moves page).owns (inv.owns.congr (zero_add _).symm)
    exact (inv.owns.congr (zero_add _).symm).same_free owns
  | @noCopy _ s _ _ _ _ slot page had copy free =>
    refine ⟨Kernel.setProc_ne _ (apart slot) _, .inl ⟨rfl, ?_⟩⟩
    cases copyuvm_spec (inv.bound i alive) copy with
    | outOfMemory moves =>
      have back := (moves.frame {s}).congr (zero_add _) (zero_add _)
      have all := ((kalloc_some_moves page).trans back).trans (kfree_moves free)
      have owns := all.owns (inv.owns.congr (zero_add _).symm)
      exact (inv.owns.congr (zero_add _).symm).same_free owns
  | @born n s src d _ m' _ slot page had copy dup =>
    refine ⟨Kernel.setProc_ne _ (apart slot) _, .inr ⟨n, Ne.symm (apart slot), slot.unused, ?_, ?_,
      fun a inside => ?_⟩⟩
    · rw [Kernel.setProc_self]
    · rw [Kernel.setProc_self]
    · have bound := inv.bound i alive
      have ha : a < 4294967296 := by simp only [kernbase] at bound; omega
      have below : vpn a < npages (k.proc i).sz := by
        simp only [vpn, pgsize, npages]
        omega
      have owns := (kalloc_some_moves page).owns (inv.owns.congr (zero_add _).symm)
      have data := kalloc_data page
      cases copyuvm_spec bound copy with
      | done copied moves copy =>
        have held : ∀ v e, v < npages (k.proc i).sz → src.lookup v = some e →
            e.ppn ∈ {s} + k.held :=
          fun v e inside mapped => Multiset.mem_add.mpr (.inr
            (Accounted.mem_held alive.1 (Proc.user_page_mem alive.2 bound had inside mapped)))
        obtain ⟨e, p, here, there, see, copySee⟩ := copied.userPte ha below
        have same := copy T _ owns held (vpn a) e (e.perm.entry p) below here there
        have kept := moves.same (owns.congr (zero_add _).symm) (held _ e below here)
        constructor
        · unfold Kernel.observe
          rw [Kernel.setProc_self, had, Option.bind_some, Option.bind_some, see, copySee]
          cases e.u
          · rfl
          · show some (m'.data _ _) = some (k.mem.data _ _)
            rw [same, data]
        · unfold Kernel.observe
          rw [Kernel.setProc_ne _ (apart slot), had, Option.bind_some, Option.bind_some, see]
          cases e.u
          · rfl
          · show some (m'.data _ _) = some (k.mem.data _ _)
            rw [kept, data]

/-- Process `n` has been made by process `i`. -/
structure Child (L : Layout) (k : Kernel) (i n : Nat) (pd d : Pgdir) (k' : Kernel) : Prop where
  other : n ≠ i
  bound : n < nproc
  fork : ∃ r, Xv6.fork L i k = .ok (r, k')
  others : ∀ j, j ≠ n → k'.proc j = k.proc j
  initproc : k'.initproc = k.initproc
  state : (k'.proc n).state = .runnable
  killed : (k'.proc n).killed = (k.proc n).killed
  parent : (k'.proc n).parent = some i
  ofile : (k'.proc n).ofile = fun fd => ((k.proc i).ofile fd).orElse fun _ => (k.proc n).ofile fd
  dir : (k'.proc n).pgdir = some d
  sz : (k'.proc n).sz = (k.proc i).sz
  copied : Copied L pd (npages (k.proc i).sz) d
  room : k.mem.freelist.length = k'.mem.freelist.length + 1 + copyPages (npages (k.proc i).sz)

/-- With a slot, with memory and without a hole there is a child. -/
theorem Accounted.child {free : Nat} (inv : Accounted L T k) (refs : k.Refs) (alive : k.Alive i)
    (had : (k.proc i).pgdir = some pd)
    (dense : ∀ h, h < npages (k.proc i).sz → pd.lookup h ≠ none) (slot : free < nproc)
    (unused : (k.proc free).state = .unused)
    (room : copyPages (npages (k.proc i).sz) < k.mem.freelist.length) :
    ∃ n d k', Child L k i n pd d k' := by
  have bound := inv.bound i alive
  obtain ⟨r, k', returns⟩ : ∃ r k', Xv6.fork L i k = .ok (r, k') := by
    rcases fork_ends inv refs alive had with returns | ⟨-, h, -, -, inside, hole, -⟩
    · exact returns
    · exact absurd hole (dense h inside)
  cases fork_spec alive.2 returns with
  | full full => exact absurd unused (full free slot)
  | noStack _ page =>
    rw [(kalloc_none_oom page).1, List.length_nil] at room
    omega
  | noCopy _ page _ copy =>
    have owns := (kalloc_some_moves page).owns (inv.owns.congr (zero_add _).symm)
    have left := kalloc_length page
    cases copyuvm_spec bound copy with
    | @outOfMemory _ x _ within _ few =>
      have few := few _ _ owns
      unfold copyPages at few room
      omega
  | @born n s src d m₁ m' _ free page had' copy dup =>
    rw [had] at had'
    cases had'
    have owns := (kalloc_some_moves page).owns (inv.owns.congr (zero_add _).symm)
    have left := kalloc_length page
    cases copyuvm_spec bound copy with
    | done copied moves =>
      have after := (moves.owns (owns.congr (zero_add _).symm)).length_add
      have before := owns.length_add
      rw [Multiset.card_add, copied.card] at after
      refine ⟨n, d, _, ⟨?_, free.bound, ⟨_, returns⟩, fun j hj => Kernel.setProc_ne _ hj _, rfl,
        ?_, ?_, ?_, ?_, ?_, ?_, copied, ?_⟩⟩
      · rintro rfl
        exact alive.2 free.unused
      · rw [Kernel.setProc_self]
      · rw [Kernel.setProc_self]
      · rw [Kernel.setProc_self]
      · rw [Kernel.setProc_self]
      · rw [Kernel.setProc_self]
      · rw [Kernel.setProc_self]
      · show k.mem.freelist.length = m'.freelist.length + 1 + _
        omega

/-- A child of the first process, when that has been the only one. -/
theorem UserRun.child {A : AddrSpace} (run : UserRun L k₀ 0 A 1000 k) (booted : Booted L k₀)
    (had : (k.proc 0).pgdir = some pd) (small : npages (k.proc 0).sz ≤ 100)
    (dense : ∀ h, h < npages (k.proc 0).sz → pd.lookup h ≠ none) : ∃ n d k', Child L k 0 n pd d k' ∧
      k.Step L (0, .fork) k' ∧ (k'.proc n).killed = false ∧ (k'.proc n).ofile = fun _ => none := by
  have live : (k.proc 0).killed = false := run.same.killed.trans booted.killed
  have state : (k.proc 0).state = .runnable := run.same.state.trans booted.state
  have empty : ∀ j, j ≠ 0 → k.proc j = emptyProc := fun j other =>
    (run.others j other).trans (booted.others j other)
  obtain ⟨T, -, inv⟩ := run.reached.fits.accounted booted
  obtain ⟨n, d, k', child⟩ := inv.child (run.reached.refs booted)
    ⟨by decide, by rw [state]; exact nofun⟩ had dense (show 1 < nproc by decide)
    (by rw [empty 1 (by decide)]; rfl) (by have := run.room; unfold copyPages; omega)
  obtain ⟨r, returns⟩ := child.fork
  refine ⟨n, d, k', child, ⟨by decide, state, some (.word r), ?_⟩, ?_, ?_⟩
  · rw [Kernel.run_call rfl live, Kernel.call, returns]
    rfl
  · rw [child.killed, empty n child.other]
    rfl
  · rw [child.ofile, empty n child.other, run.same.ofile, booted.ofile]
    rfl

theorem Booted.child (booted : Booted L k₀) : ∃ n pd d k, Child L k₀ 0 n pd d k ∧
    k₀.Step L (0, .fork) k ∧ (k.proc n).killed = false ∧ (k.proc n).ofile = fun _ => none := by
  obtain ⟨pd, p, had, lookup⟩ := booted.dir
  obtain ⟨A, -, -, alone⟩ := booted.userRun
  have pages : npages (k₀.proc 0).sz = 1 := by rw [booted.sz]; decide
  obtain ⟨n, d, k, child⟩ := (alone.less (by decide)).child booted had (by omega)
    (fun h inside => by
      rw [lookup, if_pos (by omega)]
      exact Option.some_ne_none _)
  exact ⟨n, pd, d, k, child⟩

end RandomRepo.Xv6

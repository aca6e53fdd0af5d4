import RandomRepo.Xv6.FileInv
import RandomRepo.Xv6.Kernel
import RandomRepo.Xv6.ProcInv

/-!
# What a step of the kernel does to the process table and to memory

`KStep` lists the kinds of steps: an operation of the process on its own memory,
`fork`, a `wait` that reaps a child, and the calls that leave the memory of all
processes alone and only open and close files.
-/

namespace RandomRepo.Xv6

/-- Two states of a slot with the same memory. -/
structure SameMem (p p' : Proc) : Prop where
  sz : p'.sz = p.sz
  pgdir : p'.pgdir = p.pgdir
  kstack : p'.kstack = p.kstack
  unused : p'.state = .unused ↔ p.state = .unused

theorem SameMem.refl (p : Proc) : SameMem p p := ⟨rfl, rfl, rfl, Iff.rfl⟩

/-- The slot `allocproc` takes. -/
structure FreeSlot (k : Kernel) (n : Nat) : Prop where
  bound : n < nproc
  unused : (k.proc n).state = .unused

/-- The ways `fork` returns in process `i`. -/
inductive Fork (L : Layout) (i : Nat) (k : Kernel) : Nat → Kernel → Prop
  | full (full : ∀ n, n < nproc → (k.proc n).state ≠ .unused) : Fork L i k minusOne k
  | noStack {n : Nat} {m' : Kmem} (slot : FreeSlot k n) (page : kalloc k.mem = (none, m')) :
      Fork L i k minusOne ({ k with nextpid := k.nextpid + 1, mem := m' }.setProc n
        { k.proc n with pid := k.nextpid, kstack := none, state := .unused })
  | noCopy {n s : Nat} {pd : Pgdir} {m₁ m₂ m' : Kmem} (slot : FreeSlot k n)
      (page : kalloc k.mem = (some s, m₁)) (had : (k.proc i).pgdir = some pd)
      (copy : copyuvm L pd (k.proc i).sz m₁ = .ok (none, m₂)) (free : kfree L s m₂ = .ok m') :
      Fork L i k minusOne ({ k with nextpid := k.nextpid + 1, mem := m' }.setProc n
        { k.proc n with pid := k.nextpid, pgdir := none, kstack := none, state := .unused })
  | born {n s : Nat} {pd d : Pgdir} {m₁ m' : Kmem} {fs : Files} (slot : FreeSlot k n)
      (page : kalloc k.mem = (some s, m₁)) (had : (k.proc i).pgdir = some pd)
      (copy : copyuvm L pd (k.proc i).sz m₁ = .ok (some d, m'))
      (dup : dupFiles (k.proc i).ofile (List.range nofile) k.files = .ok fs) :
      Fork L i k k.nextpid ({ k with nextpid := k.nextpid + 1, mem := m', files := fs }.setProc n
        { k.proc n with
          pid := k.nextpid
          kstack := some s
          pgdir := some d
          sz := (k.proc i).sz
          parent := some i
          tf := { (k.proc i).tf with eax := 0 }
          ofile := fun fd => ((k.proc i).ofile fd).orElse fun _ => (k.proc n).ofile fd
          name := (k.proc i).name
          state := .runnable })

inductive KStep (L : Layout) (i : Nat) (k : Kernel) : Op → Kernel → Prop
  | mem {op : MemOp} {p' : Proc} {m' : Kmem} (step : ProcStep L (k.proc i) k.mem op p' m') :
      KStep L i k (.mem op) ({ k with mem := m' }.setProc i p')
  | fork {r : Nat} {k' : Kernel} (forked : Fork L i k r k') : KStep L i k .fork k'
  | reap {j s : Nat} {pd : Pgdir} {m₁ m' : Kmem} (bound : j < nproc)
      (zombie : (k.proc j).state = .zombie) (child : (k.proc j).parent = some i)
      (stack : (k.proc j).kstack = some s) (had : (k.proc j).pgdir = some pd)
      (free : kfree L s k.mem = .ok m₁) (freed : freevm L pd m₁ = .ok m') :
      KStep L i k .wait ({ k with mem := m' }.setProc j { k.proc j with
        kstack := none, pid := 0, parent := none, name := [], killed := false, state := .unused })
  | files {op : Op} {k' : Kernel} (kpgdir : k'.kpgdir = k.kpgdir)
      (cpuStacks : k'.cpuStacks = k.cpuStacks) (procs : ∀ j, SameMem (k.proc j) (k'.proc j))
      (moves : Moves L k.mem k.files.pages k'.mem k'.files.pages)
      (wf : ∀ T R, Owns L T k.mem (k.files.pages + R) → k.files.Wf → k'.files.Wf) :
      KStep L i k op k'

variable {L : Layout} {i : Nat} {k k' : Kernel} {op : Op}

theorem KStep.idle (L : Layout) (i : Nat) (k : Kernel) (op : Op) : KStep L i k op k :=
  .files rfl rfl (fun _ => .refl _) (.refl _ _ _) fun _ _ _ wf => wf

@[simp]
theorem Kernel.setProc_self (k : Kernel) (n : Nat) (p : Proc) : (k.setProc n p).proc n = p := by
  simp [Kernel.setProc]

@[simp]
theorem Kernel.setProc_ne {n j : Nat} (k : Kernel) (h : j ≠ n) (p : Proc) :
    (k.setProc n p).proc j = k.proc j := by
  simp [Kernel.setProc, h]

theorem sameMem_setProc {p : Proc} {n : Nat} (same : SameMem (k.proc n) p) (j : Nat) :
    SameMem (k.proc j) ((k.setProc n p).proc j) := by
  by_cases hj : j = n
  · subst hj
    rw [Kernel.setProc_self]
    exact same
  · rw [Kernel.setProc_ne k hj]
    exact .refl _

/-! ## `fork` -/

theorem allocproc_cases {r : Option Nat} (h : allocproc k = (r, k')) :
    (r = none ∧ k' = k ∧ ∀ n, n < nproc → (k.proc n).state ≠ .unused) ∨
      ∃ n, FreeSlot k n ∧
        ((r = none ∧ ∃ m, kalloc k.mem = (none, m) ∧
            k' = { k with nextpid := k.nextpid + 1, mem := m }.setProc n
              { k.proc n with pid := k.nextpid, kstack := none, state := .unused }) ∨
          (r = some n ∧ ∃ s m, kalloc k.mem = (some s, m) ∧
            k' = { k with nextpid := k.nextpid + 1, mem := m }.setProc n
              { k.proc n with pid := k.nextpid, kstack := some s, state := .embryo })) := by
  unfold allocproc at h
  cases found : (List.range nproc).find? fun i => (k.proc i).state = .unused with
  | none =>
    rw [found] at h
    cases h
    refine .inl ⟨rfl, rfl, fun n hn => ?_⟩
    simpa using List.find?_eq_none.mp found n (List.mem_range.mpr hn)
  | some n =>
    rw [found] at h
    dsimp only at h
    have slot : FreeSlot k n := ⟨List.mem_range.mp (List.mem_of_find?_eq_some found), by
      simpa using List.find?_some found⟩
    rcases page : kalloc k.mem with ⟨_ | s, m⟩
    · rw [page] at h
      cases h
      exact .inr ⟨n, slot, .inl ⟨rfl, m, rfl, rfl⟩⟩
    · rw [page] at h
      cases h
      exact .inr ⟨n, slot, .inr ⟨rfl, s, m, rfl, rfl⟩⟩

/-- `fork` after it has found a slot and a stack. -/
theorem fork_alloc {n s : Nat} {m : Kmem} (live : (k.proc i).state ≠ .unused) (slot : FreeSlot k n)
    (alloc : allocproc k = (some n, { k with nextpid := k.nextpid + 1, mem := m }.setProc n
      { k.proc n with pid := k.nextpid, kstack := some s, state := .embryo })) :
    Xv6.fork L i k = (do
      let pd ← (k.proc i).dir
      let (d, m) ← copyuvm L pd (k.proc i).sz m
      match d with
      | none => do
        let m ← kfree L s m
        .ok (minusOne, { k with nextpid := k.nextpid + 1, mem := m }.setProc n
          { k.proc n with pid := k.nextpid, pgdir := none, kstack := none, state := .unused })
      | some d => do
        let fs ← dupFiles (k.proc i).ofile (List.range nofile) k.files
        .ok (k.nextpid, { k with nextpid := k.nextpid + 1, mem := m, files := fs }.setProc n
          { k.proc n with
            pid := k.nextpid
            kstack := some s
            pgdir := some d
            sz := (k.proc i).sz
            parent := some i
            tf := { (k.proc i).tf with eax := 0 }
            ofile := fun fd => ((k.proc i).ofile fd).orElse fun _ => (k.proc n).ofile fd
            name := (k.proc i).name
            state := .runnable })) := by
  have apart : i ≠ n := by
    rintro rfl
    exact live slot.unused
  unfold Xv6.fork
  rw [alloc]
  dsimp only
  rw [Kernel.setProc_ne _ apart, Kernel.setProc_self]
  refine bind_congr fun pd => bind_congr fun copied => ?_
  rcases copied with ⟨_ | d, m⟩
  · simp only [Kernel.setProc, Function.update_idem, kfreePtr]
  · simp only [Kernel.setProc, Function.update_idem]

theorem fork_spec {r : Nat} (live : (k.proc i).state ≠ .unused)
    (h : Xv6.fork L i k = .ok (r, k')) : Fork L i k r k' := by
  rcases alloc : allocproc k with ⟨slot, k₁⟩
  rcases allocproc_cases alloc with ⟨rfl, rfl, full⟩ | ⟨n, free, ⟨rfl, m, page, rfl⟩ |
    ⟨rfl, s, m, page, rfl⟩⟩
  · rw [Xv6.fork, alloc] at h; cases h; exact .full full
  · rw [Xv6.fork, alloc] at h; cases h; exact .noStack free page
  · rw [fork_alloc live free alloc] at h
    obtain ⟨pd, had, rest⟩ := bind_ok_iff.mp h
    obtain ⟨⟨d, m₂⟩, copy, rest⟩ := bind_ok_iff.mp rest
    have had := Proc.dir_eq_ok had
    cases d with
    | none =>
      obtain ⟨m₃, freed, rest⟩ := bind_ok_iff.mp rest
      cases rest
      exact .noCopy free page had copy freed
    | some d =>
      obtain ⟨fs, dup, rest⟩ := bind_ok_iff.mp rest
      cases rest
      exact .born free page had copy dup

/-! ## Files -/

theorem dupFiles_spec {ofile : Nat → Option Nat} {fds : List Nat} {fs fs' : Files}
    (h : dupFiles ofile fds fs = .ok fs') : fs'.pages = fs.pages ∧ (fs.Wf → fs'.Wf) := by
  induction fds generalizing fs with
  | nil => cases h; exact ⟨rfl, id⟩
  | cons fd fds ih =>
    rw [dupFiles] at h
    cases here : ofile fd with
    | none => rw [here] at h; exact ih h
    | some f =>
      rw [here] at h
      obtain ⟨fs₁, dup, rest⟩ := bind_ok_iff.mp h
      obtain ⟨pages, wf⟩ := ih rest
      obtain rfl := filedup_cases dup
      exact ⟨pages, fun old => wf (old.setRef (Nat.succ_pos _))⟩

theorem closeFiles_spec {ofile : Nat → Option Nat} {fds : List Nat} {fs fs' : Files} {m m' : Kmem}
    (h : closeFiles L ofile fds fs m = .ok (fs', m')) :
    Moves L m fs.pages m' fs'.pages ∧ (fs.Wf → fs'.Wf) := by
  induction fds generalizing fs m with
  | nil => cases h; exact ⟨.refl _ _ _, id⟩
  | cons fd fds ih =>
    rw [closeFiles] at h
    cases here : ofile fd with
    | none => rw [here] at h; exact ih h
    | some f =>
      rw [here] at h
      obtain ⟨⟨fs₁, m₁⟩, close, rest⟩ := bind_ok_iff.mp h
      obtain ⟨moves, wf⟩ := ih rest
      exact ⟨(fileclose_moves close).trans moves, fun old => wf (fileclose_wf old close)⟩

theorem exit_spec (live : (k.proc i).state ≠ .unused) (h : Xv6.exit L i k = .ok k') :
    KStep L i k .exit k' := by
  unfold Xv6.exit at h
  split at h
  · cases h
  · obtain ⟨⟨fs, m⟩, close, rest⟩ := bind_ok_iff.mp h
    cases rest
    obtain ⟨moves, wf⟩ := closeFiles_spec close
    have kept : ∀ p, SameMem p (k.reparent i p) := by
      intro p
      unfold Kernel.reparent
      split_ifs
      · exact ⟨rfl, rfl, rfl, Iff.rfl⟩
      · exact .refl p
    refine .files rfl rfl (fun j => ?_) moves fun _ _ _ => wf
    by_cases hj : j = i
    · subst hj
      rw [Kernel.setProc_self]
      have old := kept (k.proc j)
      exact ⟨old.sz, old.pgdir, old.kstack, by simp [live]⟩
    · rw [Kernel.setProc_ne _ hj]
      exact kept _

theorem kfreePtr_eq_ok {s : Option Nat} {m m' : Kmem} (h : kfreePtr L s m = .ok m') :
    ∃ t, s = some t ∧ kfree L t m = .ok m' := by
  cases s with
  | none => cases h
  | some t => exact ⟨t, rfl, h⟩

/-- A `wait` that returns has reaped a child, or no child is a zombie. -/
theorem wait_cases {r : Option Nat} (h : Xv6.wait L i k = .ok (r, k')) :
    (∃ j s pd m₁ m', j < nproc ∧ (k.proc j).state = .zombie ∧ (k.proc j).parent = some i ∧
        (k.proc j).kstack = some s ∧ (k.proc j).pgdir = some pd ∧ kfree L s k.mem = .ok m₁ ∧
        freevm L pd m₁ = .ok m' ∧
        k' = { k with mem := m' }.setProc j { k.proc j with
          kstack := none, pid := 0, parent := none, name := [], killed := false,
          state := .unused }) ∨
      (k' = k ∧ ∀ j, j < nproc → (k.proc j).parent = some i → (k.proc j).state ≠ .zombie) := by
  unfold Xv6.wait at h
  dsimp only at h
  split at h
  · rename_i j found
    have pred := List.find?_some found
    simp only [Bool.decide_and, Bool.and_eq_true, decide_eq_true_eq] at pred
    obtain ⟨m₁, free, rest⟩ := bind_ok_iff.mp h
    obtain ⟨m₂, freed, rest⟩ := bind_ok_iff.mp rest
    cases rest
    obtain ⟨s, stack, free⟩ := kfreePtr_eq_ok free
    obtain ⟨pd, had, freed⟩ := freevmPtr_eq_ok freed
    exact .inl ⟨j, s, pd, m₁, m₂, List.mem_range.mp (List.mem_of_find?_eq_some found), pred.2,
      pred.1, stack, had, free, freed, rfl⟩
  · rename_i absent
    have nobody : ∀ j, j < nproc → (k.proc j).parent = some i → (k.proc j).state ≠ .zombie := by
      intro j hj child zombie
      have := List.find?_eq_none.mp absent j (List.mem_range.mpr hj)
      simp [child, zombie] at this
    split at h <;> cases h <;> exact .inr ⟨rfl, nobody⟩

theorem wait_spec {r : Option Nat} (h : Xv6.wait L i k = .ok (r, k')) : KStep L i k .wait k' := by
  rcases wait_cases h with ⟨j, s, pd, m₁, m', hj, zombie, child, stack, had, free, freed, rfl⟩ |
    ⟨rfl, -⟩
  · exact .reap hj zombie child stack had free freed
  · exact .idle L i k' _

theorem kill_spec (pid : Int) (k : Kernel) : KStep L i k op (kill pid k).2 := by
  unfold kill
  split
  · exact .idle L i k _
  · rename_i n found
    refine .files rfl rfl (sameMem_setProc ⟨rfl, rfl, rfl, ?_⟩) (.refl _ _ _) fun _ _ _ wf => wf
    dsimp only
    split_ifs with sleeping
    · simp [sleeping]
    · rfl

theorem fdalloc_sameMem {p p' : Proc} {f fd : Nat} (h : fdalloc p f = some (fd, p')) :
    SameMem p p' := by
  unfold fdalloc at h
  split at h
  · cases h
  · cases h; exact ⟨rfl, rfl, rfl, Iff.rfl⟩

theorem sysDup_spec {arg : Option CInt} {r : Nat} (h : sysDup i arg k = .ok (r, k')) :
    KStep L i k op k' := by
  unfold sysDup at h
  split at h
  · cases h; exact .idle L i k _
  · rename_i f _
    split at h
    · cases h; exact .idle L i k _
    · rename_i fd p alloc
      obtain ⟨fs, dup, rest⟩ := bind_ok_iff.mp h
      cases rest
      obtain rfl := filedup_cases dup
      exact .files rfl rfl (sameMem_setProc (fdalloc_sameMem alloc)) (.refl _ _ _)
        fun _ _ _ wf => wf.setRef (Nat.succ_pos _)

theorem sysClose_spec {arg : Option CInt} {r : Nat} (h : sysClose L i arg k = .ok (r, k')) :
    KStep L i k op k' := by
  unfold sysClose at h
  split at h
  · cases h; exact .idle L i k _
  · obtain ⟨⟨fs, m⟩, close, rest⟩ := bind_ok_iff.mp h
    cases rest
    exact .files rfl rfl (sameMem_setProc ⟨rfl, rfl, rfl, Iff.rfl⟩) (fileclose_moves close)
      fun _ _ _ wf => fileclose_wf wf close

theorem sysPipe_spec {arg : Bool} {r : Nat} (h : sysPipe L i arg k = .ok (r, k')) :
    KStep L i k op k' := by
  unfold sysPipe at h
  split at h
  · cases h; exact .idle L i k _
  · obtain ⟨⟨ends, fs, m⟩, alloc, rest⟩ := bind_ok_iff.mp h
    have moves := pipealloc_moves alloc
    cases ends with
    | none =>
      cases rest
      exact .files rfl rfl (fun _ => .refl _) moves fun _ _ owns wf =>
        pipealloc_wf wf owns alloc
    | some ends =>
      obtain ⟨rf, wf⟩ := ends
      dsimp only at rest
      split at rest
      · rename_i fd p fds
        cases rest
        obtain ⟨⟨fd₀, p₀⟩, first, second⟩ := Option.bind_eq_some_iff.mp fds
        have one := fdalloc_sameMem first
        have two := fdalloc_sameMem second
        exact .files rfl rfl (sameMem_setProc ⟨two.sz.trans one.sz, two.pgdir.trans one.pgdir,
          two.kstack.trans one.kstack, two.unused.trans one.unused⟩) moves
          fun _ _ owns wf => pipealloc_wf wf owns alloc
      · obtain ⟨⟨fs₁, m₁⟩, close, rest⟩ := bind_ok_iff.mp rest
        obtain ⟨⟨fs₂, m₂⟩, close', rest⟩ := bind_ok_iff.mp rest
        cases rest
        exact .files rfl rfl (fun _ => .refl _)
          ((moves.trans (fileclose_moves close)).trans (fileclose_moves close'))
          fun _ _ owns wf => fileclose_wf (fileclose_wf (pipealloc_wf wf owns alloc) close) close'

/-! ## Steps -/

theorem Kernel.call_spec {r : Option Reply} (live : (k.proc i).state ≠ .unused)
    (h : k.call L i op = .ok (r, k')) : KStep L i k op k' := by
  cases op with
  | mem op =>
    obtain ⟨⟨r, p, m⟩, run, rest⟩ := bind_ok_iff.mp h
    cases rest
    exact .mem (MemOp.run_spec run)
  | fork =>
    obtain ⟨⟨r, k₁⟩, call, rest⟩ := bind_ok_iff.mp h
    cases rest
    exact .fork (fork_spec live call)
  | exit =>
    obtain ⟨k₁, call, rest⟩ := bind_ok_iff.mp h
    cases rest
    exact exit_spec live call
  | wait =>
    obtain ⟨⟨r, k₁⟩, call, rest⟩ := bind_ok_iff.mp h
    cases rest
    exact wait_spec call
  | kill arg =>
    cases arg with
    | none => cases h; exact .idle L i k _
    | some pid =>
      cases h
      exact kill_spec pid.val k
  | dup arg =>
    obtain ⟨⟨r, k₁⟩, call, rest⟩ := bind_ok_iff.mp h
    cases rest
    exact sysDup_spec call
  | close arg =>
    obtain ⟨⟨r, k₁⟩, call, rest⟩ := bind_ok_iff.mp h
    cases rest
    exact sysClose_spec call
  | pipe arg =>
    obtain ⟨⟨r, k₁⟩, call, rest⟩ := bind_ok_iff.mp h
    cases rest
    exact sysPipe_spec call

end RandomRepo.Xv6

import RandomRepo.Xv6.LazyMmap

/-!
# Runs of user code

What one process does with its own memory, as long as it is valid and memory lasts,
is a run of the kernel in which all faults are below the size of the process.  At every
point of it the process stands for its address space.
-/

namespace RandomRepo.Xv6

variable {L : Layout} {A A' : AddrSpace} {k₀ k : Kernel} {i free free' : Nat} {guard : Nat → Prop}

/-- A run in which only process `i` has done something, and that to its own memory.  It stands for
`A`, and so much memory is left. -/
structure UserRun (L : Layout) (k₀ : Kernel) (i : Nat) (A : AddrSpace) (free : Nat)
    (k : Kernel) : Prop where
  reached : Kernel.Reaches L OwnFaults k₀ k
  same : SameProc (k₀.proc i) (k.proc i)
  others : ∀ j, j ≠ i → k.proc j = k₀.proc j
  initproc : k.initproc = k₀.initproc
  backs : Backs L true A (k.proc i) k.mem
  fine : k.mem.oom = false
  room : free ≤ k.mem.freelist.length

/-- A page that has been written to is there. -/
theorem Backs.touched {p : Proc} {m : Kmem} {a : Nat} (backs : Backs L true A p m)
    (usable : A.Usable fun _ => False) (inside : a < A.sz) (written : A.read a ≠ 0) :
    ∃ pd e, p.pgdir = some pd ∧ pd.lookup (vpn a) = some e ∧ e.u = true ∧ e.w = true ∧
      m.data e.ppn = (A.page (vpn a)).bytes := by
  obtain ⟨pd, had, holds⟩ := backs.pages
  obtain ⟨user, writable⟩ := usable (vpn a) id
  rcases holds.stands (vpn a) (lt_npages.mpr (by simp only [vpn, pgsize]; omega)) with
    present | ⟨-, -, fresh⟩
  · obtain ⟨e, mapped, same⟩ := Option.map_eq_some_iff.mp present
    rw [← same] at user writable ⊢
    exact ⟨pd, e, had, mapped, user, writable, rfl⟩
  · rw [AddrSpace.read, fresh] at written
    exact absurd rfl written

theorem AddrSpace.read_write (A : AddrSpace) (a : Nat) (b : UInt8) : (A.write a b).read a = b := by
  simp [AddrSpace.read, AddrSpace.write]

theorem UserRun.less (run : UserRun L k₀ i A free k) (fewer : free' ≤ free) :
    UserRun L k₀ i A free' k :=
  { run with room := fewer.trans run.room }

section Steps

variable (hi : i < nproc) (state : (k₀.proc i).state = .runnable)
  (live : (k₀.proc i).killed = false)
include hi state live

theorem UserRun.mem {op : MemOp} {r : Reply} {p : Proc} {m : Kmem} (run : UserRun L k₀ i A free k)
    (done : op.run L (k.proc i) k.mem = .ok (r, p, m)) (allowed : OwnFaults (k.proc i) op)
    (backs : Backs L true A' p m) (fine : m.oom = false) (room : free' ≤ m.freelist.length) :
    UserRun L k₀ i A' free' ({ k with mem := m }.setProc i p) := by
  have same := run.same
  have step := Kernel.step_mem hi (same.state.trans state) (same.killed.trans live) done
  have more := (MemOp.run_spec done).same
  refine ⟨run.reached.tail (fun _ here => by cases here; exact allowed) step, ?_, fun j other => ?_,
    run.initproc, ?_, fine, room⟩
  · rw [Kernel.setProc_self]
    exact ⟨more.state.trans same.state, more.kstack.trans same.kstack,
      more.parent.trans same.parent, more.pid.trans same.pid, more.killed.trans same.killed,
      more.ofile.trans same.ofile, more.dir.trans same.dir⟩
  · rw [Kernel.setProc_ne _ other]
    exact run.others j other
  · rw [Kernel.setProc_self]
    exact backs

/-- A load or a store to a page that is there. -/
theorem UserRun.hit {acc : Access} {a : Nat} {pd : Pgdir} {e : Pte} (run : UserRun L k₀ i A free k)
    (ha : a < 4294967296) (below : vpn a < npages A.sz) (had : (k.proc i).pgdir = some pd)
    (holds : Holds L true A pd k.mem) (mapped : pd.lookup (vpn a) = some e)
    (found : pd.userPte a acc.write = some e)
    (page : A.page (vpn a) = ⟨e.u, e.w, k.mem.data e.ppn⟩) :
    ∃ k', UserRun L k₀ i (A.act (.access acc a)).2 free k' := by
  obtain ⟨m, value, oom, list, after⟩ := run.backs.hit had holds below mapped found page
  refine ⟨_, run.mem hi state live (access_done ha value)
    ⟨fun _ other => (by cases other), fun acc' va pd' here had' trapped => ?_⟩ after
    (oom.trans run.fine) (by rw [list]; exact run.room)⟩
  cases here
  rw [had] at had'
  cases had'
  rw [u32_of_lt ha, found] at trapped
  cases trapped

/-- A load or a store, with the fault before it if the page is not there. -/
theorem UserRun.access {acc : Access} {a : Nat} (run : UserRun L k₀ i A (free + 2) k)
    (allowed : A.Admits (.access acc a)) :
    ∃ k', UserRun L k₀ i (A.act (.access acc a)).2 free k' := by
  have kern : kernbase = 2147483648 := rfl
  obtain ⟨inside, user, writable⟩ := allowed
  have bound := run.backs.bound
  have ha : a < 4294967296 := by omega
  have below : vpn a < npages A.sz := by simp only [vpn, pgsize, npages]; omega
  obtain ⟨pd, had, holds⟩ := run.backs.pages
  rcases holds.userPte acc ha below user writable with
    ⟨e, mapped, found, page⟩ | ⟨-, absent, trapped⟩
  · exact (run.less (Nat.le_add_right _ _)).hit hi state live ha below had holds mapped found page
  · obtain ⟨ok, p, m, fault, spends, ⟨backs, pd', had', there⟩ | ⟨-, few, -⟩⟩ :=
      run.backs.miss had holds ha below absent trapped
    · obtain ⟨oom, left⟩ := spends (by have := run.room; omega)
      have next := @UserRun.mem L A A k₀ k i (free + 2) free hi state live _ _ _ _ run
        (access_done ha fault) ⟨fun _ other => (by cases other), fun acc' va pd' here _ _ => ?_⟩
        backs (oom.trans run.fine) (by have := run.room; omega)
      · obtain ⟨pd₂, had₂, holds₂⟩ := next.backs.pages
        have dir := had₂
        rw [Kernel.setProc_self, had'] at had₂
        cases had₂
        rcases holds₂.userPte acc ha below user writable with
          ⟨e, mapped, found, page⟩ | ⟨-, absent, -⟩
        · exact next.hit hi state live ha below dir holds₂ mapped found page
        · rw [absent] at there
          cases there
      · cases here
        rw [u32_of_lt ha, run.backs.size, pgroundup_eq (by omega)]
        unfold npages
        omega
    · have := run.room
      omega

/-- One operation. -/
theorem UserRun.act {op : UserOp} (run : UserRun L k₀ i A (op.need A.sz + free) k)
    (allowed : A.Admits op) : ∃ k', UserRun L k₀ i (A.act op).2 free k' := by
  have kern : kernbase = 2147483648 := rfl
  cases op with
  | mmap size =>
    obtain ⟨nonneg, aligned, -, fits⟩ := allowed
    have done : MemOp.run L (.mmap (some size)) (k.proc i) k.mem =
        .ok (.word (k.proc i).sz, (mmap size.val (k.proc i)).2, k.mem) := by
      rw [MemOp.run, sysMmap, if_neg (by simp only [pgsize]; omega)]
      rfl
    refine ⟨_, run.mem hi state live done ⟨?_, fun _ _ _ other => by cases other⟩
      (run.backs.reserve (by omega) ⟨nonneg, aligned⟩ (by omega)) run.fine
      (by have := run.room; omega)⟩
    rintro size ⟨⟩ - -
    rw [run.backs.size]
    omega
  | sbrk n =>
    obtain ⟨positive, fits⟩ := allowed
    obtain ⟨ok, p, m, grow, spends, done⟩ := run.backs.growproc n.val (A.sz + n.val).toNat
      (by omega) (by omega) (by omega)
    have need : (UserOp.sbrk n).need A.sz = 2 * (npages (A.sz + n.val).toNat - npages A.sz) := rfl
    have room := run.room
    obtain ⟨oom, left⟩ := spends (by omega)
    have returns : MemOp.run L (.sbrk (some n)) (k.proc i) k.mem =
        .ok (.word (if ok then (k.proc i).sz else minusOne), p, m) := by
      rw [MemOp.run, sysSbrk, grow]
      rfl
    exact ⟨_, run.mem hi state live returns
      ⟨fun _ other => (by cases other), fun _ _ _ other => by cases other⟩
      (done (oom.trans run.fine)).2 (oom.trans run.fine) (by omega)⟩
  | access acc a =>
    have need : (UserOp.access acc a).need A.sz = 2 := rfl
    rw [need, Nat.add_comm] at run
    exact run.access hi state live allowed

/-- What a sequence of operations makes of an address space. -/
def AddrSpace.acts (A : AddrSpace) (ops : List UserOp) : AddrSpace :=
  ops.foldl (fun A op => (A.act op).2) A

/-- A sequence of operations. -/
theorem UserRun.acts {ops : List UserOp} (run : UserRun L k₀ i A (demand A.sz ops + free) k)
    (usable : A.Usable guard) (valid : Valid guard A.sz ops) :
    (A.acts ops).Usable guard ∧ ∃ k', UserRun L k₀ i (A.acts ops) free k' := by
  induction ops generalizing A k with
  | nil => exact ⟨usable, k, by rwa [demand, Nat.zero_add] at run⟩
  | cons op ops ih =>
    obtain ⟨here, later⟩ := valid
    obtain ⟨usable', size⟩ := usable.act op
    rw [demand, Nat.add_assoc] at run
    have one : Valid guard A.sz [op] := ⟨here, trivial⟩
    have allowed := (Valid.admitted usable one).1
    obtain ⟨k₁, run⟩ := run.act hi state live allowed
    rw [← size] at run later
    exact ih run usable' later

end Steps

theorem Booted.userRun (booted : Booted L k₀) : ∃ A : AddrSpace, A.sz = pgsize ∧
    A.Usable (fun _ => False) ∧ UserRun L k₀ 0 A 50000 k₀ := by
  obtain ⟨A, size, usable, backs⟩ := booted.loaded.backs
  rw [booted.sz] at size
  exact ⟨A, size, usable, .refl k₀, ⟨rfl, rfl, rfl, rfl, rfl, rfl, rfl⟩, fun _ _ => rfl, rfl,
    backs true, booted.oom, booted.room⟩

end RandomRepo.Xv6

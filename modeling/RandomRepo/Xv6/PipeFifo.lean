import RandomRepo.Xv6.Pipe

/-!
# Pipes are queues

The bytes between `nread` and `nwrite` are those that have been stored and not yet
taken, in their order.  The counters wrap around at 2^32, which is a multiple of
`pipesize`, so the cell of a position survives the wrap.
-/

namespace RandomRepo.Xv6.PipeSys

variable {s s' : PipeSys} {i : Nat}

/-- The number of bytes in the pipe. -/
def pending (s : PipeSys) : Nat := (s.nwrite - s.nread).toNat

/-- The bytes in the pipe. -/
def queued (s : PipeSys) : List UInt8 := ringContents s.data pipesize s.nread.toNat s.pending

structure Fifo (s : PipeSys) : Prop where
  bound : s.pending ≤ pipesize
  order : s.received ++ s.queued = s.sent

/-! ## The counters -/

theorem pending_eq (s : PipeSys) :
    s.pending = (4294967296 - s.nread.toNat + s.nwrite.toNat) % 4294967296 :=
  UInt32.toNat_sub _ _

theorem full_iff (s : PipeSys) :
    s.nwrite = s.nread + .ofNat pipesize ↔ s.pending = pipesize := by
  have size : pipesize = 512 := rfl
  have r := s.nread.toNat_lt
  have w := s.nwrite.toNat_lt
  rw [pending_eq, ← UInt32.toNat_inj, UInt32.toNat_add, UInt32.toNat_ofNat', size]
  omega

theorem empty_iff (s : PipeSys) : s.nread = s.nwrite ↔ s.pending = 0 := by
  have r := s.nread.toNat_lt
  have w := s.nwrite.toNat_lt
  rw [pending_eq, ← UInt32.toNat_inj]
  omega

/-- The cell behind the last byte. -/
theorem cell_nwrite (s : PipeSys) :
    s.nwrite.toNat % pipesize = (s.nread.toNat + s.pending) % pipesize := by
  have size : pipesize = 512 := rfl
  have r := s.nread.toNat_lt
  have w := s.nwrite.toNat_lt
  rw [pending_eq, size]
  omega

theorem toNat_succ (a : UInt32) : (a + 1).toNat = (a.toNat + 1) % 4294967296 := by
  rw [UInt32.toNat_add]
  rfl

/-! ## Storing and taking a byte -/

theorem Fifo.push {t : PipeSys} {b : UInt8} (fifo : s.Fifo)
    (room : s.nwrite ≠ s.nread + .ofNat pipesize)
    (data : t.data = Function.update s.data (s.nwrite.toNat % pipesize) b)
    (nread : t.nread = s.nread) (nwrite : t.nwrite = s.nwrite + 1)
    (sent : t.sent = s.sent ++ [b]) (received : t.received = s.received) : t.Fifo := by
  have size : pipesize = 512 := rfl
  have bound := fifo.bound
  have space : s.pending < pipesize :=
    Nat.lt_of_le_of_ne bound fun full => room (s.full_iff.mpr full)
  have more : t.pending = s.pending + 1 := by
    have r := s.nread.toNat_lt
    have w := s.nwrite.toNat_lt
    rw [pending_eq] at space
    rw [pending_eq, pending_eq, nread, nwrite, toNat_succ]
    omega
  refine ⟨by omega, ?_⟩
  have stored : t.queued = s.queued ++ [b] := by
    rw [queued, more, data, nread, cell_nwrite]
    exact ringContents_push space b
  rw [received, stored, sent, ← fifo.order, List.append_assoc]

theorem Fifo.pop {t : PipeSys} (fifo : s.Fifo) (some_ : s.nread ≠ s.nwrite)
    (data : t.data = s.data) (nread : t.nread = s.nread + 1) (nwrite : t.nwrite = s.nwrite)
    (sent : t.sent = s.sent)
    (received : t.received = s.received ++ [s.data (s.nread.toNat % pipesize)]) : t.Fifo := by
  have size : pipesize = 512 := rfl
  have bound := fifo.bound
  have positive : s.pending ≠ 0 := fun empty => some_ (s.empty_iff.mpr empty)
  have less : s.pending = t.pending + 1 := by
    have r := s.nread.toNat_lt
    have w := s.nwrite.toNat_lt
    rw [pending_eq] at positive
    rw [pending_eq, pending_eq, nread, nwrite, toNat_succ]
    omega
  refine ⟨by omega, ?_⟩
  have taken : s.queued = s.data (s.nread.toNat % pipesize) :: t.queued := by
    rw [queued, less, ringContents_pop, queued, data]
    congr 1
    refine ringContents_mod ?_
    rw [nread, toNat_succ, size]
    omega
  rw [received, sent, ← fifo.order, taken, List.append_assoc]
  rfl

/-! ## Runs -/

theorem Fifo.runs (fifo : s.Fifo) (runs : Runs s i s') : s'.Fifo := by
  cases runs with
  | store b rest fresh _ room => exact fifo.push room rfl rfl rfl rfl rfl
  | take n _ some_ => exact fifo.pop some_ rfl rfl rfl rfl rfl
  | _ => exact ⟨fifo.bound, fifo.order⟩

theorem Fifo.acts {a : PipeAct} (fifo : s.Fifo) (acts : Acts s a s') : s'.Fifo := by
  cases acts with
  | run i _ runs => exact fifo.runs runs
  | _ => exact ⟨fifo.bound, fifo.order⟩

/-- **Pipes are queues.**  In every interleaving of any number of processes, the pipe holds at most
`pipesize` bytes, and what has been taken from it, followed by what it holds, is what has been
stored in it. -/
theorem pipe_fifo (run : Run Step anyStep init s) :
    (s.nwrite - s.nread).toNat ≤ pipesize ∧
    ∃ queued : List UInt8, s.received ++ queued = s.sent ∧
      queued.length = (s.nwrite - s.nread).toNat ∧
      ∀ k (h : k < queued.length), s.data ((s.nread + .ofNat k).toNat % pipesize) = queued[k] := by
  have fifo : s.Fifo := Run.invariant run Fifo ⟨Nat.zero_le _, rfl⟩
    fun _ _ _ fifo _ step => fifo.acts step.acts
  refine ⟨fifo.bound, s.queued, fifo.order, ringContents_length, fun k inside => ?_⟩
  have size : pipesize = 512 := rfl
  have r := s.nread.toNat_lt
  refine Eq.trans ?_ (ringContents_getElem inside).symm
  rw [UInt32.toNat_add, UInt32.toNat_ofNat', size]
  congr 1
  omega

/-- A process writes two bytes and another one has read the first of them. -/
theorem pipe_fifo_two : ∃ s, Run Step anyStep init s ∧ s.sent = [1, 2] ∧ s.received = [1] ∧
    s.data (s.nread.toNat % pipesize) = 2 := by
  have steps : (follow act [.call 0 (.write [1, 2]), .run 0, .run 0, .run 0, .run 0, .run 0, .run 0,
      .call 1 (.read 1), .run 1, .run 1, .run 1] init).any (fun s =>
        decide (s.sent = [1, 2] ∧ s.received = [1])) = true := by
    decide +kernel
  obtain ⟨s, run, shape⟩ := Run.follow_any Step anyStep
    (fun _ _ _ h => ⟨trivial, h⟩) steps
  obtain ⟨sent, received⟩ := of_decide_eq_true shape
  obtain ⟨-, queued, order, -, cells⟩ := pipe_fifo run
  rw [sent, received] at order
  have rest : queued = [2] := by simpa using order
  subst rest
  have first := cells 0 (by decide)
  rw [show s.nread + .ofNat 0 = s.nread from UInt32.add_zero _] at first
  exact ⟨s, run, sent, received, first⟩

end RandomRepo.Xv6.PipeSys

import RandomRepo.Lib.Lock
import RandomRepo.Xv6.PipeFifo

/-!
# Sleeping on a pipe

A process sleeps on a pipe because the pipe is empty, or because it is full.  When
this is no longer so, the process that has changed it holds the lock and still has to
call `wakeup` (`Owes`).  There is one way out of `pipewrite` that forgets this: a
process that has been killed returns from a full pipe at once, also when it has
filled the pipe itself.
-/

namespace RandomRepo.Xv6

/-- The places with `p->lock` held. -/
def PipePlace.HoldsLock : PipePlace → Prop
  | .write _ _ | .full _ | .test _ | .copy _ | .close _ | .sleep _ | .wake _ | .leave => True
  | _ => False

/-- The places with `ptable.lock` held. -/
def PipePlace.HoldsTable : PipePlace → Prop
  | .drop _ => True
  | _ => False

/-- The places from which `wakeup` of the channel is still to be called. -/
def PipePlace.Owes : PipeChan → PipePlace → Prop
  | .nread, .write _ true | .nread, .full _ | .nread, .wake .nread => True
  | .nwrite, .copy _ | .nwrite, .wake .nwrite => True
  | _, _ => False

/-- Inside of `piperead`, before its last `wakeup`. -/
def PipePlace.Reading : PipePlace → Prop
  | .enter (.read _) | .test _ | .copy _ | .sleep (.read _) | .drop (.read _) | .asleep (.read _) =>
    True
  | _ => False

def PipePlace.ClosingRead : PipePlace → Prop
  | .enter (.close false) | .close false => True
  | _ => False

/-- The channel on which a process with the lock is going to sleep. -/
def PipePlace.due : PipePlace → Option PipeChan
  | .full _ => some .nwrite
  | .sleep c => some c.chan
  | _ => none

/-- `pipeclose` does not sleep. -/
def PipePlace.Possible : PipePlace → Prop
  | .sleep (.close _) | .drop (.close _) | .asleep (.close _) => False
  | _ => True

theorem PipePlace.due_holdsLock {x : PipePlace} {ch : PipeChan} (due : x.due = some ch) :
    x.HoldsLock := by
  cases x with
  | full rest => trivial
  | sleep c => trivial
  | _ => cases due

theorem PipePlace.owes_holdsLock {x : PipePlace} {ch : PipeChan} (owes : Owes ch x) :
    x.HoldsLock := by
  cases x <;> first | trivial | (cases ch <;> exact owes)

namespace PipeSys

variable {s s' t : PipeSys} {i : Nat} {x : PipePlace} {a : PipeAct}

/-! ## Who holds the locks -/

structure Locked (s : PipeSys) : Prop where
  lock : HeldBy PipePlace.HoldsLock s.place s.lock
  ptable : HeldBy PipePlace.HoldsTable s.place s.ptable
  chan : ∀ i ch, s.chan i = some ch → ∃ c, s.place i = .asleep c ∧ c.chan = ch

/-- One process changes its place, with the locks that this asks for. -/
theorem Locked.move (locked : s.Locked) (place : t.place = Function.update s.place i x)
    (lock : LockMove i (s.place i).HoldsLock x.HoldsLock s.lock t.lock)
    (ptable : LockMove i (s.place i).HoldsTable x.HoldsTable s.ptable t.ptable)
    (mine : ∀ ch, t.chan i = some ch → ∃ c, x = .asleep c ∧ c.chan = ch)
    (others : ∀ j ch, j ≠ i → t.chan j = some ch → s.chan j = some ch) : t.Locked := by
  refine ⟨?_, ?_, fun j ch sleeps => ?_⟩
  · rw [place]
    exact locked.lock.update lock
  · rw [place]
    exact locked.ptable.update ptable
  · rw [place]
    by_cases here : j = i
    · subst here
      rw [Function.update_self]
      exact mine ch sleeps
    · rw [Function.update_of_ne here]
      exact locked.chan j ch (others j ch here sleeps)

theorem Locked.awake (locked : s.Locked) (notAsleep : ∀ c, s.place i ≠ .asleep c) :
    s.chan i = none := by
  cases sleeps : s.chan i with
  | none => rfl
  | some ch =>
    obtain ⟨c, place, -⟩ := locked.chan i ch sleeps
    exact absurd place (notAsleep c)

/-- A process that is not asleep moves. -/
theorem Locked.move_awake (locked : s.Locked) (place : t.place = Function.update s.place i x)
    (notAsleep : ∀ c, s.place i ≠ .asleep c)
    (lock : LockMove i (s.place i).HoldsLock x.HoldsLock s.lock t.lock)
    (ptable : LockMove i (s.place i).HoldsTable x.HoldsTable s.ptable t.ptable)
    (chan : t.chan = s.chan) : t.Locked := by
  refine locked.move place lock ptable (fun ch sleeps => ?_) fun j ch _ sleeps => ?_
  · rw [chan, locked.awake notAsleep] at sleeps
    cases sleeps
  · rwa [chan] at sleeps

/-- A process with the lock goes on or drops it. -/
theorem Locked.work (locked : s.Locked) (place : t.place = Function.update s.place i x)
    (was : (s.place i).HoldsLock) (table : ¬ x.HoldsTable)
    (lock : (x.HoldsLock ∧ t.lock = s.lock) ∨ (¬ x.HoldsLock ∧ t.lock = none))
    (ptable : t.ptable = s.ptable) (chan : ∀ j ch, t.chan j = some ch → s.chan j = some ch) :
    t.Locked := by
  have notTable : ¬ (s.place i).HoldsTable := by
    intro holds
    cases at_ : s.place i <;> rw [at_] at was holds <;> first | exact was | exact holds
  have awake : s.chan i = none := locked.awake fun c asleep => by
    rw [asleep] at was
    exact was
  refine locked.move place ?_ ?_ (fun ch sleeps => ?_) fun j ch _ => chan j ch
  · rcases lock with ⟨is, same⟩ | ⟨isNot, none_⟩
    · rw [same]
      exact .keep was is _
    · rw [none_]
      exact .drop was isNot _
  · rw [ptable]
    exact .stay notTable table _
  · have := chan i ch sleeps
    rw [awake] at this
    cases this

theorem wakeup_chan {ch ch' : PipeChan} {j : Nat} (h : (s.wakeup ch).chan j = some ch') :
    s.chan j = some ch' ∧ ch' ≠ ch := by
  unfold wakeup at h
  dsimp only at h
  split_ifs at h with here
  refine ⟨h, fun same => here ?_⟩
  rw [h, same]

theorem unkilled {j : Nat} {ch : PipeChan} (h : Function.update s.chan i none j = some ch) :
    s.chan j = some ch := by
  by_cases here : j = i
  · subst here
    rw [Function.update_self] at h
    cases h
  · rwa [Function.update_of_ne here] at h

theorem Locked.runs (locked : s.Locked) (runs : Runs s i s') : s'.Locked := by
  cases runs with
  | acquire c place free =>
    refine locked.move_awake rfl (by rw [place]; exact nofun) ?_ ?_ rfl
    · rw [free]
      cases c <;> exact .take trivial
    · rw [place]
      cases c <;> exact .stay id id _
  | written fresh place | stuck b rest fresh place _ _ | store b rest fresh place _
  | idle n place _ _ | ready n place | copied n place | take n place _ | closeWrite place
  | closeRead place =>
    exact locked.work rfl (by rw [place]; trivial) id (.inl ⟨trivial, rfl⟩) rfl fun _ _ h => h
  | giveUp b rest fresh place _ _ | killed n place _ | leave place =>
    exact locked.work rfl (by rw [place]; trivial) id (.inr ⟨id, rfl⟩) rfl fun _ _ h => h
  | prod rest place _ | wake ch place _ =>
    exact locked.work rfl (by rw [place]; trivial) id (.inl ⟨trivial, rfl⟩) rfl
      fun _ _ h => (wakeup_chan h).1
  | drop c place free =>
    refine locked.move_awake rfl (by rw [place]; exact nofun) ?_ ?_ rfl
    · rw [place]
      exact .drop trivial id _
    · rw [free]
      exact .take trivial
  | sleep c place =>
    refine locked.move rfl ?_ ?_ (fun ch sleeps => ⟨c, rfl, ?_⟩) fun j ch other h => ?_
    · rw [place]
      exact .stay id id _
    · rw [place]
      exact .drop trivial id _
    · have sleeps : Function.update s.chan i (some c.chan) i = some ch := sleeps
      rw [Function.update_self] at sleeps
      exact Option.some.inj sleeps
    · have h : Function.update s.chan i (some c.chan) j = some ch := h
      rwa [Function.update_of_ne other] at h
  | resume c place awake =>
    refine locked.move rfl ?_ ?_ (fun ch sleeps => ?_) fun _ _ _ h => h
    · rw [place]
      exact .stay id id _
    · rw [place]
      exact .stay id id _
    · rw [show s.chan i = some ch from sleeps] at awake
      cases awake

theorem Locked.acts (locked : s.Locked) (acts : Acts s a s') : s'.Locked := by
  cases acts with
  | call i c place =>
    refine locked.move_awake rfl (by rw [place]; exact nofun) ?_ ?_ rfl
    · rw [place]
      exact .stay id id _
    · rw [place]
      exact .stay id id _
  | run i _ runs => exact locked.runs runs
  | kill i free => exact ⟨locked.lock, locked.ptable, fun j ch h => locked.chan j ch (unkilled h)⟩

/-! ## Readers and the end they read from -/

structure Ends (s : PipeSys) : Prop where
  possible : ∀ i, (s.place i).Possible
  readers : s.readopen = false ∨ (∃ j, (s.place j).ClosingRead) → ∀ i, ¬ (s.place i).Reading

/-- What the table of open files gives: `piperead` is called while the read end is open, and
`pipeclose` closes that end when the last descriptor for it is gone. -/
def Descriptors (s : PipeSys) : PipeAct → Prop
  | .call _ (.read _) => s.readopen = true ∧ ∀ j, ¬ (s.place j).ClosingRead
  | .call _ (.close false) => ∀ j, ¬ (s.place j).Reading
  | _ => True

theorem Ends.move (ends : s.Ends) (place : t.place = Function.update s.place i x)
    (possible : x.Possible) (readopen : t.readopen = s.readopen)
    (reading : x.Reading → (s.place i).Reading)
    (closing : x.ClosingRead → (s.place i).ClosingRead) : t.Ends := by
  refine ⟨?_, fun closed => ?_⟩
  · rw [place]
    exact (Function.forall_update_iff _ fun _ => PipePlace.Possible).mpr
      ⟨possible, fun j _ => ends.possible j⟩
  · rw [readopen, place, Function.exists_update_iff _ fun _ => PipePlace.ClosingRead] at closed
    have before : s.readopen = false ∨ ∃ j, (s.place j).ClosingRead := by
      rcases closed with closed | closes | ⟨j, _, closes⟩
      · exact .inl closed
      · exact .inr ⟨i, closing closes⟩
      · exact .inr ⟨j, closes⟩
    rw [place]
    exact (Function.forall_update_iff _ fun _ (y : PipePlace) => ¬ y.Reading).mpr
      ⟨fun reads => ends.readers before i (reading reads), fun j _ => ends.readers before j⟩

/-- The read end is closed, or is going to be, and nobody reads. -/
theorem Ends.close (ends : s.Ends) (place : t.place = Function.update s.place i x)
    (possible : x.Possible) (notReading : ¬ x.Reading) (gone : ∀ j, ¬ (s.place j).Reading) :
    t.Ends := by
  refine ⟨?_, fun _ => ?_⟩
  · rw [place]
    exact (Function.forall_update_iff _ fun _ => PipePlace.Possible).mpr
      ⟨possible, fun j _ => ends.possible j⟩
  · rw [place]
    exact (Function.forall_update_iff _ fun _ (y : PipePlace) => ¬ y.Reading).mpr
      ⟨notReading, fun j _ => gone j⟩

theorem Ends.runs (ends : s.Ends) (runs : Runs s i s') : s'.Ends := by
  have possible := ends.possible i
  cases runs with
  | closeRead place =>
    exact ends.close rfl trivial id (ends.readers (.inr ⟨i, by rw [place]; trivial⟩))
  | acquire c place _ =>
    cases c with
    | write rest => exact ends.move rfl trivial rfl nofun nofun
    | read n => exact ends.move rfl trivial rfl (fun _ => by rw [place]; trivial) nofun
    | close w =>
      exact ends.move rfl trivial rfl nofun fun closes => by
        rw [place]
        cases w with
        | false => trivial
        | true => exact closes
  | idle n place _ _ | ready n place | take n place _ =>
    exact ends.move rfl trivial rfl (fun _ => by rw [place]; trivial) nofun
  | drop c place _ | sleep c place | resume c place _ =>
    rw [place] at possible
    cases c with
    | write rest => exact ends.move rfl trivial rfl nofun nofun
    | read n => exact ends.move rfl trivial rfl (fun _ => by rw [place]; trivial) nofun
    | close w => exact possible.elim
  | _ => exact ends.move rfl trivial rfl nofun nofun

theorem Ends.acts (ends : s.Ends) (files : Descriptors s a) (acts : Acts s a s') : s'.Ends := by
  cases acts with
  | run i _ runs => exact ends.runs runs
  | kill => exact ⟨ends.possible, ends.readers⟩
  | call i c place =>
    cases c with
    | write rest => exact ends.move rfl trivial rfl nofun nofun
    | read n =>
      refine ⟨(Function.forall_update_iff _ fun _ => PipePlace.Possible).mpr
        ⟨trivial, fun j _ => ends.possible j⟩, fun closed => ?_⟩
      rcases closed with closed | closes
      · exact absurd (closed.symm.trans files.1) Bool.false_ne_true
      · rw [at_, Function.exists_update_iff _ fun _ => PipePlace.ClosingRead] at closes
        rcases closes with closes | ⟨j, _, closes⟩
        · cases closes
        · exact absurd closes (files.2 j)
    | close w =>
      cases w with
      | true => exact ends.move rfl trivial rfl nofun nofun
      | false => exact ends.close rfl trivial id files

/-! ## Nobody sleeps without a cause -/

/-- The cause for which a process sleeps on the channel. -/
def Quiet (s : PipeSys) : PipeChan → Prop
  | .nread => s.nread = s.nwrite ∧ s.writeopen = true
  | .nwrite => s.nwrite = s.nread + .ofNat pipesize ∧ s.readopen = true

/-- The process sleeps on the channel, or is going to without another look at the pipe. -/
def Waits (s : PipeSys) (ch : PipeChan) (i : Nat) : Prop :=
  s.chan i = some ch ∨ ∃ c, s.place i = .drop c ∧ c.chan = ch

structure Awaited (s : PipeSys) : Prop where
  due : ∀ i ch, (s.place i).due = some ch → s.Quiet ch
  owed : ∀ i ch, s.Waits ch i → s.Quiet ch ∨ ∃ j, (s.place j).Owes ch

/-- No process returns with `wakeup` still to be called: none that has stored a byte finds the
pipe full after it has been killed. -/
def NotLate (s : PipeSys) : PipeAct → Prop
  | .run i => ∀ b rest, s.place i = .write (b :: rest) true →
      s.nwrite = s.nread + .ofNat pipesize → s.readopen = true → s.killed i = false
  | _ => True

theorem Waits.reading (ends : s.Ends) (locked : s.Locked) (waits : s.Waits .nread i) :
    (s.place i).Reading := by
  have possible := ends.possible i
  have shape : ∃ c, (s.place i = .asleep c ∨ s.place i = .drop c) ∧ c.chan = .nread := by
    rcases waits with asleep | ⟨c, place, chan⟩
    · obtain ⟨c, place, chan⟩ := locked.chan i _ asleep
      exact ⟨c, .inl place, chan⟩
    · exact ⟨c, .inr place, chan⟩
  obtain ⟨c, place, chan⟩ := shape
  cases c with
  | write rest => cases chan
  | read n => rcases place with place | place <;> rw [place] <;> trivial
  | close w => rcases place with place | place <;> rw [place] at possible <;> exact possible.elim

/-- After a `wakeup` nobody waits on the channel. -/
theorem Waits.not_wakeup {ch : PipeChan} {j : Nat} (waits : ((s.wakeup ch).at_ i x).Waits ch j)
    (locked : s.Locked) (free : s.ptable = none) (notDrop : ∀ c, x ≠ .drop c) : False := by
  rcases waits with asleep | ⟨c, place, -⟩
  · exact (wakeup_chan asleep).2 rfl
  · change Function.update s.place i x j = .drop c at place
    by_cases here : j = i
    · subst here
      rw [Function.update_self] at place
      exact notDrop c place
    · rw [Function.update_of_ne here] at place
      have nobody := locked.ptable
      rw [free] at nobody
      refine nobody.free j ?_
      rw [place]
      trivial

/-- One process moves.  Where it does not give a cause or owe a `wakeup` itself, what another
process owes is left. -/
theorem Awaited.move (awaited : s.Awaited) (locked : s.Locked)
    (place : t.place = Function.update s.place i x)
    (touches : (∀ ch, s.Quiet ch → t.Quiet ch) ∨ (s.place i).HoldsLock)
    (due : ∀ ch, x.due = some ch → t.Quiet ch)
    (waits : ∀ j ch, t.Waits ch j → t.Quiet ch ∨ x.Owes ch ∨
      (s.Waits ch j ∧ (s.Quiet ch → t.Quiet ch) ∧ ((s.place i).Owes ch → x.Owes ch))) :
    t.Awaited := by
  refine ⟨fun j ch => ?_, fun j ch waiting => ?_⟩
  · rw [place]
    by_cases here : j = i
    · subst here
      rw [Function.update_self]
      exact due ch
    · rw [Function.update_of_ne here]
      intro dueThere
      rcases touches with quiet | holds
      · exact quiet ch (awaited.due j ch dueThere)
      · exact absurd (locked.lock.unique (PipePlace.due_holdsLock dueThere) holds) here
  · rw [place, Function.exists_update_iff _ fun _ => PipePlace.Owes ch]
    rcases waits j ch waiting with quiet | owes | ⟨before, quiet, owes⟩
    · exact .inl quiet
    · exact .inr (.inl owes)
    · rcases awaited.owed j ch before with calm | ⟨k, owing⟩
      · exact .inl (quiet calm)
      · by_cases here : k = i
        · subst here
          exact .inr (.inl (owes owing))
        · exact .inr (.inr ⟨k, here, owing⟩)

theorem Waits.before {ch : PipeChan} {j : Nat} (waits : t.Waits ch j)
    (place : t.place = Function.update s.place i x)
    (chan : ∀ j ch, t.chan j = some ch → s.Waits ch j) (notDrop : ∀ c, x ≠ .drop c) :
    s.Waits ch j := by
  rcases waits with asleep | ⟨c, there, same⟩
  · exact chan j ch asleep
  · rw [place] at there
    by_cases here : j = i
    · subst here
      rw [Function.update_self] at there
      exact absurd there (notDrop c)
    · rw [Function.update_of_ne here] at there
      exact .inr ⟨c, there, same⟩

/-- A step that leaves the pipe as it is. -/
theorem Awaited.still (awaited : s.Awaited) (locked : s.Locked)
    (place : t.place = Function.update s.place i x) (quiet : t.Quiet = s.Quiet)
    (due : ∀ ch, x.due = some ch → s.Quiet ch)
    (chan : ∀ j ch, t.chan j = some ch → s.Waits ch j) (notDrop : ∀ c, x ≠ .drop c)
    (owes : ∀ ch, (s.place i).Owes ch → x.Owes ch) : t.Awaited :=
  awaited.move locked place (.inl fun ch => by rw [quiet]; exact id) (by rw [quiet]; exact due)
    fun _ ch waits =>
      .inr (.inr ⟨waits.before place chan notDrop, by rw [quiet]; exact id, owes ch⟩)

theorem Awaited.runs (awaited : s.Awaited) (locked : s.Locked) (ends : s.Ends)
    (notLate : NotLate s (.run i)) (runs : Runs s i s') : s'.Awaited := by
  cases runs with
  | acquire c place free =>
    cases c <;> exact awaited.still locked rfl rfl nofun (fun _ _ => .inl) nofun
      (by rw [place]; exact nofun)
  | written fresh place =>
    refine awaited.still locked rfl rfl nofun (fun _ _ => .inl) nofun ?_
    rw [place]
    rintro (_ | _) owes
    · trivial
    · exact owes
  | giveUp b rest fresh place full cause =>
    refine awaited.move locked rfl (.inl fun _ => id) nofun fun j ch waits => .inr (.inr ?_)
    have before : s.Waits ch j := waits.before rfl (fun _ _ => .inl) nofun
    refine ⟨before, id, fun owes => ?_⟩
    rw [place] at owes
    -- Bytes were stored and `wakeup(&p->nread)` is not going to be called, but nobody reads.
    cases ch with
    | nwrite => exact owes
    | nread =>
      cases fresh with
      | false => exact owes
      | true =>
        have closed : s.readopen = false := by
          rcases cause with closed | killed
          · exact closed
          · cases readers : s.readopen with
            | false => rfl
            | true =>
              rw [notLate b rest place full readers] at killed
              cases killed
        exact absurd (before.reading ends locked) (ends.readers (.inl closed) j)
  | stuck b rest fresh place full readers =>
    refine awaited.still locked rfl rfl ?_ (fun _ _ => .inl) nofun ?_
    · intro ch due
      cases due
      exact ⟨full, readers⟩
    · rw [place]
      rintro (_ | _) owes
      · trivial
      · exact owes
  | store b rest fresh place room =>
    refine awaited.move locked rfl (.inr (by rw [place]; trivial)) nofun fun j ch waits => ?_
    cases ch with
    | nread => exact .inr (.inl trivial)
    | nwrite =>
      refine .inr (.inr ⟨waits.before rfl (fun _ _ => .inl) nofun, fun quiet => ?_, ?_⟩)
      · exact absurd quiet.1 room
      · rw [place]
        exact id
  | prod rest place free =>
    have quiet : s.Quiet .nwrite := awaited.due i .nwrite (by rw [place]; rfl)
    refine awaited.move locked rfl (.inl fun _ => id) ?_ fun j ch waits => ?_
    · intro ch due
      cases due
      exact quiet
    · cases ch with
      | nread => exact (waits.not_wakeup locked free nofun).elim
      | nwrite => exact .inl quiet
  | killed n place _ | ready n place | leave place | resume c place awake =>
    exact awaited.still locked rfl rfl nofun (fun _ _ => .inl) nofun (by rw [place]; exact nofun)
  | idle n place empty writers =>
    refine awaited.still locked rfl rfl ?_ (fun _ _ => .inl) nofun (by rw [place]; exact nofun)
    intro ch due
    cases due
    exact ⟨empty, writers⟩
  | copied n place =>
    refine awaited.still locked rfl rfl nofun (fun _ _ => .inl) nofun ?_
    rw [place]
    intro ch owes
    cases ch <;> exact owes
  | take n place some_ =>
    refine awaited.move locked rfl (.inr (by rw [place]; trivial)) nofun fun j ch waits => ?_
    cases ch with
    | nwrite => exact .inr (.inl trivial)
    | nread =>
      refine .inr (.inr ⟨waits.before rfl (fun _ _ => .inl) nofun, fun quiet => ?_, ?_⟩)
      · exact absurd quiet.1 some_
      · rw [place]
        exact id
  | closeWrite place =>
    refine awaited.move locked rfl (.inr (by rw [place]; trivial)) nofun fun j ch waits => ?_
    cases ch with
    | nread => exact .inr (.inl trivial)
    | nwrite =>
      refine .inr (.inr ⟨waits.before rfl (fun _ _ => .inl) nofun, id, ?_⟩)
      rw [place]
      exact id
  | closeRead place =>
    refine awaited.move locked rfl (.inr (by rw [place]; trivial)) nofun fun j ch waits => ?_
    cases ch with
    | nwrite => exact .inr (.inl trivial)
    | nread =>
      refine .inr (.inr ⟨waits.before rfl (fun _ _ => .inl) nofun, id, ?_⟩)
      rw [place]
      exact id
  | wake ch place free =>
    refine awaited.move locked rfl (.inl fun _ => id) nofun fun j ch' waits => ?_
    by_cases same : ch' = ch
    · subst same
      exact (waits.not_wakeup locked free nofun).elim
    · refine .inr (.inr ⟨waits.before rfl (fun _ _ h => .inl (wakeup_chan h).1) nofun, id, ?_⟩)
      rw [place]
      intro owes
      cases ch <;> cases ch' <;> first | exact owes | exact absurd rfl same
  | drop c place free =>
    have quiet : s.Quiet c.chan := awaited.due i c.chan (by rw [place]; rfl)
    refine awaited.move locked rfl (.inl fun _ => id) nofun fun j ch waits => ?_
    by_cases same : ch = c.chan
    · subst same
      exact .inl quiet
    · refine .inr (.inr ⟨?_, id, fun owes => by rw [place] at owes; cases ch <;> exact owes⟩)
      rcases waits with asleep | ⟨c', there, chan⟩
      · exact .inl asleep
      · change Function.update s.place i _ j = _ at there
        by_cases here : j = i
        · subst here
          rw [Function.update_self] at there
          cases there
          exact absurd chan.symm same
        · rw [Function.update_of_ne here] at there
          exact .inr ⟨c', there, chan⟩
  | sleep c place =>
    refine awaited.still locked rfl rfl nofun ?_ nofun (by rw [place]; exact nofun)
    intro j ch asleep
    change Function.update s.chan i (some c.chan) j = some ch at asleep
    by_cases here : j = i
    · subst here
      rw [Function.update_self] at asleep
      exact .inr ⟨c, place, Option.some.inj asleep⟩
    · rw [Function.update_of_ne here] at asleep
      exact .inl asleep

theorem Awaited.acts (awaited : s.Awaited) (locked : s.Locked) (ends : s.Ends)
    (notLate : NotLate s a) (acts : Acts s a s') : s'.Awaited := by
  cases acts with
  | call i c place =>
    exact awaited.still locked rfl rfl nofun (fun _ _ => .inl) nofun (by rw [place]; exact nofun)
  | run i _ runs => exact awaited.runs locked ends notLate runs
  | kill i free =>
    refine ⟨awaited.due, fun j ch waits => awaited.owed j ch ?_⟩
    rcases waits with asleep | dropping
    · exact .inl (unkilled asleep)
    · exact .inr dropping

/-- **No lost wakeup.**  In every interleaving in which no killed process leaves a pipe that it has
filled, whenever the lock is free, a process sleeps on `&p->nread` only while the pipe is empty
and open for writing, and on `&p->nwrite` only while it is full and open for reading. -/
theorem pipe_wakeups_kept (run : Run Step (fun s a => Descriptors s a ∧ NotLate s a) init s)
    (free : s.lock = none) (i : Nat) :
    (s.chan i = some .nread → s.nread = s.nwrite ∧ s.writeopen = true) ∧
    (s.chan i = some .nwrite → s.nwrite = s.nread + .ofNat pipesize ∧ s.readopen = true) := by
  obtain ⟨locked, -, awaited⟩ : s.Locked ∧ s.Ends ∧ s.Awaited := by
    refine Run.invariant run (fun s => s.Locked ∧ s.Ends ∧ s.Awaited) ?_ ?_
    · exact ⟨⟨fun _ => ⟨nofun, nofun⟩, fun _ => ⟨nofun, nofun⟩, nofun⟩, ⟨fun _ => trivial, nofun⟩,
        ⟨nofun, nofun⟩⟩
    · rintro s a s' ⟨locked, ends, awaited⟩ ⟨files, notLate⟩ step
      exact ⟨locked.acts step.acts, ends.acts files step.acts,
        awaited.acts locked ends notLate step.acts⟩
  have quiet : ∀ ch, s.chan i = some ch → s.Quiet ch := by
    intro ch asleep
    rcases awaited.owed i ch (.inl asleep) with quiet | ⟨j, owes⟩
    · exact quiet
    · have nobody := locked.lock
      rw [free] at nobody
      exact absurd (PipePlace.owes_holdsLock owes) (nobody.free j)
  exact ⟨quiet .nread, quiet .nwrite⟩

/-! ## Scripts -/

/-- The acts that need no look at the descriptors. -/
def plain : PipeAct → Bool
  | .call _ (.read _) | .call _ (.close _) => false
  | _ => true

/-- The acts of processes that have not been killed. -/
def alive (s : PipeSys) : PipeAct → Bool
  | .run i => !s.killed i
  | _ => true

theorem Descriptors.of_plain (isPlain : plain a = true) : Descriptors s a := by
  cases a with
  | run i => trivial
  | kill i => trivial
  | call i c =>
    cases c with
    | write rest => trivial
    | read n => cases isPlain
    | close w => cases isPlain

theorem NotLate.of_alive (isAlive : s.alive a = true) : NotLate s a := by
  cases a with
  | run i => exact fun _ _ _ _ _ => by simpa [alive] using isAlive
  | call i c => trivial
  | kill i => trivial

/-- Two processes have called `piperead`. -/
def twoReaders : PipeSys := (init.at_ 1 (.enter (.read 1))).at_ 2 (.enter (.read 1))

theorem run_twoReaders : Run Step (fun s a => Descriptors s a ∧ NotLate s a) init twoReaders := by
  have first : Run Step (fun s a => Descriptors s a ∧ NotLate s a) init
      (init.at_ 1 (.enter (.read 1))) :=
    (Run.refl init).tail (a := .call 1 (.read 1)) ⟨⟨rfl, fun _ => id⟩, trivial⟩ rfl
  refine first.tail (a := .call 2 (.read 1)) ⟨⟨rfl, ?_⟩, trivial⟩ rfl
  exact (Function.forall_update_iff _ fun _ (y : PipePlace) => ¬ y.ClosingRead).mpr
    ⟨id, fun _ _ => id⟩

/-- Two readers are asleep, a byte is written, one of them takes it and the other one sleeps
again. -/
theorem pipe_wakeups_kept_second : ∃ s : PipeSys, s.lock = none ∧ s.chan 2 = some .nread ∧
    s.sent = [7] ∧ s.nread = s.nwrite ∧ s.writeopen = true := by
  have steps : (follow (fun s a => if plain a && s.alive a then s.act a else none)
      (List.replicate 4 (PipeAct.run 1) ++ List.replicate 4 (PipeAct.run 2) ++
        [PipeAct.call 0 (.write [7])] ++ List.replicate 5 (PipeAct.run 0) ++
        List.replicate 7 (PipeAct.run 1) ++ List.replicate 5 (PipeAct.run 2))
      twoReaders).any (fun s => decide (s.lock = none ∧ s.chan 2 = some .nread ∧ s.sent = [7])) =
        true := by
    decide +kernel
  obtain ⟨s, run, shape⟩ := Run.follow_any Step
    (fun s a => Descriptors s a ∧ NotLate s a) (fun s a t next => by
    split_ifs at next with allowed
    rw [Bool.and_eq_true] at allowed
    exact ⟨⟨Descriptors.of_plain allowed.1, NotLate.of_alive allowed.2⟩, next⟩) steps
  obtain ⟨free, asleep, sent⟩ := of_decide_eq_true shape
  have quiet := (pipe_wakeups_kept (run_twoReaders.trans run) free 2).1 asleep
  exact ⟨s, free, asleep, sent, quiet⟩

/-- A writer that fills the pipe and has been killed returns, and the reader that sleeps on
`&p->nread` is not woken. -/
theorem killed_writer_leaves_reader : ∃ s, Run Step Descriptors init s ∧ s.lock = none ∧
    s.chan 1 = some .nread ∧ s.nread ≠ s.nwrite := by
  have steps : (follow (fun s a => if plain a then s.act a else none)
      (List.replicate 4 (PipeAct.run 1) ++
        [PipeAct.call 0 (.write (List.replicate 513 0)), PipeAct.kill 0] ++
        List.replicate 514 (PipeAct.run 0)) twoReaders).any
      (fun s => decide (s.lock = none ∧ s.chan 1 = some .nread ∧ s.nread ≠ s.nwrite)) = true := by
    decide +kernel
  obtain ⟨s, run, shape⟩ := Run.follow_any Step Descriptors (fun s a t next => by
    split_ifs at next with allowed
    exact ⟨Descriptors.of_plain allowed, next⟩) steps
  have start : Run Step Descriptors init twoReaders :=
    Run.mono run_twoReaders fun _ _ _ _ admitted _ => admitted.1
  exact ⟨s, start.trans run, of_decide_eq_true shape⟩

end PipeSys

end RandomRepo.Xv6

import RandomRepo.Lib.Lock
import RandomRepo.Xv6.SleepLock

/-!
# Mutual exclusion and wakeups of sleep locks

`sleep` takes `ptable.lock` before it drops `lk->lk`, and `wakeup` is called with both.
So a process that has seen the lock taken and is on its way to sleep (`Dozing`) is not
missed: as long as it dozes, the lock is taken or the process that has freed it
has not come to it yet (`WillWake`).
-/

namespace RandomRepo.Xv6

namespace SleepPlace

variable {n : Nat}

/-- The places with `lk->lk` held. -/
def HoldsLk : SleepPlace n → Prop
  | test | take | mark | exit | clear | forget | wakeup | scan _ | rouse _ | leave => True
  | sleep | drop | asking _ | asked _ _ => True
  | _ => False

/-- The places with `ptable.lock` held. -/
def HoldsTable : SleepPlace n → Prop
  | scan _ | rouse _ | drop | chan | state | sched | tidy | unlock => True
  | killing _ | killRouse _ | killed => True
  | _ => False

/-- The places of the owner of the sleep lock: from `lk->locked = 1` to `lk->locked = 0`. -/
def Owns : SleepPlace n → Prop
  | mark | exit | holding | back | clear | ask true | asking true | asked true _ => True
  | _ => False

/-- In `sleep` with `ptable.lock`, before it switches away. -/
def Nods : SleepPlace n → Prop
  | chan | state | sched => True
  | _ => False

/-- `wakeup` is still going to look at the process. -/
def WillWake (j : Fin n) : SleepPlace n → Prop
  | forget | wakeup => True
  | scan k => k ≤ j
  | rouse k => k ≤ j
  | _ => False

/-- What a process at the place knows of the lock and of its `p->chan`. -/
def Knows (locked chan_ : Bool) : SleepPlace n → Prop
  | take | forget => locked = false
  | sleep | drop => locked = true
  | state => chan_ = true
  | _ => True

theorem Nods.holdsTable {x : SleepPlace n} (nods : x.Nods) : x.HoldsTable := by
  cases x <;> first | exact nods.elim | trivial

theorem WillWake.holdsLk {x : SleepPlace n} {j : Fin n} (wakes : x.WillWake j) : x.HoldsLk := by
  cases x <;> first | exact wakes.elim | trivial

theorem Knows.congr {x : SleepPlace n} {l l' c : Bool} (knows : x.Knows l c)
    (same : x.HoldsLk → l' = l) : x.Knows l' c := by
  cases x with
  | take | forget | sleep | drop =>
    exact (same trivial).trans knows
  | _ => exact knows

/-- What the pid in the lock says to a process at the place whose own one is `mine`. -/
def Marks (pid mine : Nat) : SleepPlace n → Prop
  | exit | holding | back | clear | ask true | asking true => pid = mine
  | asked true r => pid = mine ∧ r = true
  | asked false r => r = false
  | _ => True

theorem Marks.congr {x : SleepPlace n} {pid pid' mine : Nat} (marks : x.Marks pid mine)
    (same : x.Owns → pid' = pid) : x.Marks pid' mine := by
  cases x with
  | exit | holding | back | clear =>
    exact (same trivial).trans marks
  | ask held | asking held =>
    cases held with
    | true => exact (same trivial).trans marks
    | false => trivial
  | asked held r =>
    cases held with
    | true => exact ⟨(same trivial).trans marks.1, marks.2⟩
    | false => exact marks
  | _ => trivial

theorem Marks.pid {x : SleepPlace n} {pid mine : Nat} (marks : x.Marks pid mine) (owns : x.Owns)
    (notMark : x ≠ mark) : pid = mine := by
  unfold Owns at owns
  unfold Marks at marks
  split at owns
  · exact absurd rfl notMark
  all_goals first | exact owns.elim | exact marks.1 | exact marks

end SleepPlace

namespace SleepSys

variable {n : Nat} {pids : Fin n → Nat} {s s' t : SleepSys n} {i : Fin n} {x y : SleepPlace n}
  {a : SleepAct n}

/-! ## Who holds the locks -/

structure Locks (s : SleepSys n) : Prop where
  lk : HeldBy SleepPlace.HoldsLk s.place s.lk
  ptable : HeldBy SleepPlace.HoldsTable s.place s.ptable
  owner : ∃ owner, HeldBy SleepPlace.Owns s.place owner ∧ s.locked = owner.isSome

theorem Locks.move (locks : s.Locks) (from_ : s.place i = y)
    (place : t.place = Function.update s.place i x)
    (lk : LockMove i y.HoldsLk x.HoldsLk s.lk t.lk)
    (ptable : LockMove i y.HoldsTable x.HoldsTable s.ptable t.ptable)
    (owner : ∀ owner, s.locked = owner.isSome →
      ∃ owner', LockMove i y.Owns x.Owns owner owner' ∧ t.locked = owner'.isSome) : t.Locks := by
  subst from_
  obtain ⟨own, held, isSome⟩ := locks.owner
  obtain ⟨own', moves, isSome'⟩ := owner own isSome
  refine ⟨?_, ?_, own', ?_, isSome'⟩
  · rw [place]
    exact locks.lk.update lk
  · rw [place]
    exact locks.ptable.update ptable
  · rw [place]
    exact held.update moves

/-- Most steps leave the sleep lock with its owner. -/
theorem keeps_owner {was is : Prop} {locked : Bool} (same : was ↔ is) (owner : Option (Fin n))
    (isSome : locked = owner.isSome) :
    ∃ owner', LockMove i was is owner owner' ∧ locked = owner'.isSome :=
  ⟨owner, .same same owner, isSome⟩

theorem Locks.runs (locks : s.Locks) (known : (s.place i).Knows s.locked (s.chan i))
    (runs : Runs pids s i s') : s'.Locks := by
  have lkFree : s.lk = none → ∀ {was is : Prop}, is → LockMove i was is s.lk (some i) := by
    intro free _ _ is
    rw [free]
    exact .take is
  have tableFree : s.ptable = none → ∀ {was is : Prop}, is →
      LockMove i was is s.ptable (some i) := by
    intro free _ _ is
    rw [free]
    exact .take is
  cases runs with
  | acquireLk x takes free =>
    generalize place : s.place i = y at takes
    cases takes with
    | enter | again | back =>
      exact locks.move place rfl (lkFree free trivial) (.same .rfl _) (keeps_owner .rfl)
    | ask held =>
      cases held <;>
        exact locks.move place rfl (lkFree free trivial) (.same .rfl _) (keeps_owner .rfl)
  | take place =>
    rw [place] at known
    refine locks.move place rfl (.same .rfl _) (.same .rfl _) fun owner isSome => ?_
    rw [show s.locked = false from known] at isSome
    cases owner with
    | none => exact ⟨some i, .take trivial, rfl⟩
    | some j => cases isSome
  | clear place =>
    exact locks.move place rfl (.same .rfl _) (.same .rfl _) fun owner isSome =>
      ⟨none, .drop trivial id _, rfl⟩
  | releaseLk x drops =>
    generalize place : s.place i = y at drops
    cases drops <;>
      exact locks.move place rfl (.drop trivial id _) (.same .rfl _) (keeps_owner .rfl)
  | wakeup place free | sleep place free | resume place _ free | kill j place free =>
    exact locks.move place rfl (.same .rfl _) (tableFree free trivial) (keeps_owner .rfl)
  | scanned k place _ | sched place | unlock place | killed place =>
    exact locks.move place rfl (.same .rfl _) (.drop trivial id _) (keeps_owner .rfl)
  | drop place =>
    exact locks.move place rfl (.drop trivial id _) (.same .rfl _) (keeps_owner .rfl)
  | asking held place =>
    cases held <;> exact locks.move place rfl (.same .rfl _) (.same .rfl _) (keeps_owner .rfl)
  | blocked place | open_ place | mark place | forget place | found k place | pass k place
  | rouse k place | chan place | state place | tidy place | killing j place
  | killRouse j place _ _ =>
    exact locks.move place rfl (.same .rfl _) (.same .rfl _) (keeps_owner .rfl)

theorem Locks.calls (locks : s.Locks) (calls : Calls (s.place i) x) : (s.at_ i x).Locks := by
  generalize place : s.place i = y at calls
  cases calls <;> exact locks.move place rfl (.same .rfl _) (.same .rfl _) (keeps_owner .rfl)

/-! ## What the places know -/

def Known (s : SleepSys n) : Prop := ∀ i, (s.place i).Knows s.locked (s.chan i)

/-- The lock is changed by the holder of `lk->lk` alone, and `p->chan` by the process itself. -/
theorem Known.move (known : s.Known) (locks : s.Locks)
    (place : t.place = Function.update s.place i x) (mine : x.Knows t.locked (t.chan i))
    (locked : (s.place i).HoldsLk ∨ t.locked = s.locked)
    (chan : ∀ j, j ≠ i → t.chan j = s.chan j) : t.Known := by
  intro j
  rw [place]
  by_cases here : j = i
  · subst here
    rwa [Function.update_self]
  · rw [Function.update_of_ne here, chan j here]
    refine (known j).congr fun holds => ?_
    rcases locked with holder | same
    · exact absurd (locks.lk.unique holds holder) here
    · exact same

theorem TakesLk.knows {l c : Bool} (takes : TakesLk y x) : x.Knows l c := by
  cases takes <;> trivial

theorem DropsLk.knows {l c : Bool} (drops : DropsLk y x) : x.Knows l c := by
  cases drops <;> trivial

theorem Calls.knows {l c : Bool} (calls : Calls y x) : x.Knows l c := by
  cases calls <;> trivial

theorem Known.runs (known : s.Known) (locks : s.Locks) (runs : Runs pids s i s') : s'.Known := by
  have mine := known i
  cases runs with
  | acquireLk x takes _ => exact known.move locks rfl takes.knows (.inr rfl) fun _ _ => rfl
  | releaseLk x drops => exact known.move locks rfl drops.knows (.inr rfl) fun _ _ => rfl
  | blocked _ locked | open_ _ locked =>
    exact known.move locks rfl locked (.inr rfl) fun _ _ => rfl
  | take place => exact known.move locks rfl trivial (.inl (by rw [place]; trivial)) fun _ _ => rfl
  | clear place => exact known.move locks rfl rfl (.inl (by rw [place]; trivial)) fun _ _ => rfl
  | sleep place _ =>
    rw [place] at mine
    exact known.move locks rfl mine (.inr rfl) fun _ _ => rfl
  | chan place =>
    exact known.move locks rfl (Function.update_self ..) (.inr rfl) fun j other =>
      Function.update_of_ne other ..
  | tidy place =>
    exact known.move locks rfl trivial (.inr rfl) fun j other => Function.update_of_ne other ..
  | _ => exact known.move locks rfl trivial (.inr rfl) fun _ _ => rfl

/-! ## Who sleeps -/

/-- A process that sleeps does so in `sleep`, on the lock. -/
def Bedded (s : SleepSys n) : Prop :=
  ∀ i, s.state i = .sleeping → s.chan i = true ∧ (s.place i = .sched ∨ s.place i = .asleep)

theorem Bedded.move (bedded : s.Bedded) (place : t.place = Function.update s.place i x)
    (mine : t.state i = .sleeping → t.chan i = true ∧ (x = .sched ∨ x = .asleep))
    (chan : ∀ j, j ≠ i → t.chan j = s.chan j)
    (state : ∀ j, j ≠ i → t.state j = .sleeping → s.state j = .sleeping) : t.Bedded := by
  intro j sleeps
  rw [place]
  by_cases here : j = i
  · subst here
    rw [Function.update_self]
    exact mine sleeps
  · rw [Function.update_of_ne here, chan j here]
    exact bedded j (state j here sleeps)

/-- A process anywhere else is awake. -/
theorem Bedded.awake (bedded : s.Bedded) (notSched : s.place i ≠ .sched)
    (notAsleep : s.place i ≠ .asleep) : s.state i ≠ .sleeping := by
  intro sleeps
  rcases (bedded i sleeps).2 with place | place
  · exact notSched place
  · exact notAsleep place

theorem roused {j k : Fin n} {state : ProcState}
    (sleeps : Function.update s.state k state j = .sleeping) (awake : state ≠ .sleeping) :
    s.state j = .sleeping := by
  by_cases here : j = k
  · subst here
    rw [Function.update_self] at sleeps
    exact absurd sleeps awake
  · rwa [Function.update_of_ne here] at sleeps

theorem TakesLk.awake (takes : TakesLk y x) : y ≠ .sched ∧ y ≠ .asleep := by
  cases takes <;> exact ⟨nofun, nofun⟩

theorem DropsLk.awake (drops : DropsLk y x) : y ≠ .sched ∧ y ≠ .asleep := by
  cases drops <;> exact ⟨nofun, nofun⟩

theorem Calls.awake (calls : Calls y x) : y ≠ .sched ∧ y ≠ .asleep := by
  cases calls <;> exact ⟨nofun, nofun⟩

theorem Bedded.up (bedded : s.Bedded) (place : t.place = Function.update s.place i x)
    (from_ : s.place i ≠ .sched ∧ s.place i ≠ .asleep) (chan : ∀ j, j ≠ i → t.chan j = s.chan j)
    (state : ∀ j, t.state j = .sleeping → s.state j = .sleeping) : t.Bedded :=
  bedded.move place (fun sleeps => absurd (state i sleeps) (bedded.awake from_.1 from_.2)) chan
    fun j _ => state j

theorem Bedded.runs (bedded : s.Bedded) (known : s.Known) (runs : Runs pids s i s') :
    s'.Bedded := by
  cases runs with
  | acquireLk x takes _ => exact bedded.up rfl takes.awake (fun _ _ => rfl) fun _ => id
  | releaseLk x drops => exact bedded.up rfl drops.awake (fun _ _ => rfl) fun _ => id
  | rouse k place =>
    exact bedded.up rfl (by rw [place]; exact ⟨nofun, nofun⟩) (fun _ _ => rfl)
      fun _ sleeps => roused sleeps nofun
  | killRouse j place state awake =>
    exact bedded.up rfl (by rw [place]; exact ⟨nofun, nofun⟩) (fun _ _ => rfl)
      fun _ sleeps => roused sleeps awake
  | chan place | tidy place =>
    exact bedded.up rfl (by rw [place]; exact ⟨nofun, nofun⟩)
      (fun j other => Function.update_of_ne other ..) fun _ => id
  | state place =>
    have chan := known i
    rw [place] at chan
    refine bedded.move rfl (fun _ => ⟨chan, .inl rfl⟩) (fun _ _ => rfl) fun j other sleeps => ?_
    rwa [← Function.update_of_ne other .sleeping s.state]
  | sched place =>
    exact bedded.move rfl (fun sleeps => ⟨(bedded i sleeps).1, .inr rfl⟩) (fun _ _ => rfl)
      fun _ _ => id
  | resume place _ _ =>
    refine bedded.move rfl (fun sleeps => ?_) (fun _ _ => rfl) fun j _ sleeps => roused sleeps nofun
    change Function.update s.state i .running i = .sleeping at sleeps
    rw [Function.update_self] at sleeps
    cases sleeps
  | found k place | pass k place _ | scanned k place _ | asking held place | kill j place _
  | killing j place | _ place =>
    exact bedded.up rfl (by rw [place]; exact ⟨nofun, nofun⟩) (fun _ _ => rfl) fun _ => id

/-! ## Nobody is missed -/

/-- The process sleeps on the lock, or is going to without another look at it. -/
def Dozing (s : SleepSys n) (j : Fin n) : Prop := (s.place j).Nods ∨ s.state j = .sleeping

def Watched (s : SleepSys n) : Prop :=
  ∀ j, s.Dozing j → s.locked = true ∨ ∃ k, (s.place k).WillWake j

theorem Watched.move (watched : s.Watched) (place : t.place = Function.update s.place i x)
    (dozes : ∀ j, t.Dozing j → t.locked = true ∨ x.WillWake j ∨
      (s.Dozing j ∧ (s.locked = true → t.locked = true) ∧
        ((s.place i).WillWake j → x.WillWake j))) : t.Watched := by
  intro j dozing
  rw [place, Function.exists_update_iff _ fun _ => SleepPlace.WillWake j]
  rcases dozes j dozing with locked | wakes | ⟨before, locked, wakes⟩
  · exact .inl locked
  · exact .inr (.inl wakes)
  · rcases watched j before with taken | ⟨k, waking⟩
    · exact .inl (locked taken)
    · by_cases here : k = i
      · subst here
        exact .inr (.inl (wakes waking))
      · exact .inr (.inr ⟨k, here, waking⟩)

theorem Dozing.before {j : Fin n} (dozing : t.Dozing j)
    (place : t.place = Function.update s.place i x) (nods : j = i → x.Nods → (s.place i).Nods)
    (state : t.state j = .sleeping → s.Dozing j) : s.Dozing j := by
  rcases dozing with nod | sleeps
  · rw [place] at nod
    by_cases here : j = i
    · subst here
      rw [Function.update_self] at nod
      exact .inl (nods rfl nod)
    · rw [Function.update_of_ne here] at nod
      exact .inl nod
  · exact state sleeps

/-- A step that leaves the sleep lock as it is, and is not one of `wakeup`. -/
theorem Watched.still (watched : s.Watched) (place : t.place = Function.update s.place i x)
    (locked : t.locked = s.locked) (nods : x.Nods → (s.place i).Nods)
    (state : ∀ j, t.state j = .sleeping → s.Dozing j)
    (wakes : ∀ j, (s.place i).WillWake j → x.WillWake j) : t.Watched :=
  watched.move place fun j dozing =>
    .inr (.inr ⟨dozing.before place (fun _ => nods) (state j), fun taken => locked.trans taken, wakes j⟩)

theorem TakesLk.still (takes : TakesLk y x) :
    (x.Nods → y.Nods) ∧ ∀ j, y.WillWake j → x.WillWake j := by
  cases takes <;> exact ⟨id, fun _ => id⟩

theorem DropsLk.still (drops : DropsLk y x) :
    (x.Nods → y.Nods) ∧ ∀ j, y.WillWake j → x.WillWake j := by
  cases drops <;> exact ⟨id, fun _ => id⟩

theorem Calls.still (calls : Calls y x) :
    (x.Nods → y.Nods) ∧ ∀ j, y.WillWake j → x.WillWake j := by
  cases calls <;> exact ⟨id, fun _ => id⟩

/-- While `wakeup` scans the table nobody nods. -/
theorem Locks.not_nods {j : Fin n} (locks : s.Locks) (table : (s.place i).HoldsTable)
    (notNods : ¬ (s.place i).Nods) : ¬ (s.place j).Nods := by
  intro nods
  have same := locks.ptable.unique nods.holdsTable table
  subst same
  exact notNods nods

theorem Watched.runs (watched : s.Watched) (locks : s.Locks) (known : s.Known)
    (bedded : s.Bedded) (runs : Runs pids s i s') : s'.Watched := by
  cases runs with
  | acquireLk x takes _ =>
    exact watched.still rfl rfl takes.still.1 (fun _ => .inr) takes.still.2
  | releaseLk x drops =>
    exact watched.still rfl rfl drops.still.1 (fun _ => .inr) drops.still.2
  | take place => exact watched.move rfl fun _ _ => .inl rfl
  | clear place | forget place =>
    exact watched.move rfl fun _ _ => .inr (.inl trivial)
  | wakeup place _ => exact watched.move rfl fun j _ => .inr (.inl (Nat.zero_le j))
  | found k place =>
    exact watched.still rfl rfl nofun (fun _ => .inr) fun j wakes => by
      rw [place] at wakes
      exact wakes
  | pass k place other =>
    refine watched.move rfl fun j dozing => .inr (.inr ?_)
    have before : s.Dozing j := dozing.before rfl (fun _ => nofun) .inr
    refine ⟨before, id, fun wakes => ?_⟩
    rw [place] at wakes
    have reached : k.val ≤ j.val := wakes
    have notHere : k ≠ j := by
      rintro rfl
      rcases before with nods | sleeps
      · exact locks.not_nods (by rw [place]; trivial) (by rw [place]; exact id) nods
      · exact other ⟨sleeps, (bedded k sleeps).1⟩
    exact Nat.lt_of_le_of_ne reached fun same => notHere (Fin.ext same)
  | scanned k place done =>
    exact watched.still rfl rfl nofun (fun _ => .inr) fun j wakes => by
      rw [place] at wakes
      exact absurd (Nat.lt_of_lt_of_le j.isLt done) (Nat.not_lt.mpr wakes)
  | rouse k place =>
    refine watched.move rfl fun j dozing => .inr (.inr ?_)
    have before : s.Dozing j :=
      dozing.before rfl (fun _ => nofun) fun sleeps => .inr (roused sleeps nofun)
    refine ⟨before, id, fun wakes => ?_⟩
    rw [place] at wakes
    have reached : k.val ≤ j.val := wakes
    have notHere : k ≠ j := by
      rintro rfl
      have nods : ¬ (s.place k).Nods :=
        locks.not_nods (i := i) (by rw [place]; trivial) (by rw [place]; exact id)
      rcases dozing.before (s := s.setState k .runnable) rfl (fun _ => nofun) .inr with nod | sleeps
      · exact nods nod
      · change Function.update s.state k .runnable k = .sleeping at sleeps
        rw [Function.update_self] at sleeps
        cases sleeps
    exact Nat.lt_of_le_of_ne reached fun same => notHere (Fin.ext same)
  | drop place =>
    refine watched.move rfl fun j dozing => ?_
    by_cases here : j = i
    · subst here
      have locked := known j
      rw [place] at locked
      exact .inl locked
    · refine .inr (.inr ⟨dozing.before rfl (fun same => absurd same here) .inr, id, ?_⟩)
      rw [place]
      exact nofun
  | state place =>
    have nods : (s.place i).Nods := by
      rw [place]
      trivial
    refine watched.still rfl rfl (fun _ => nods) (fun j sleeps => ?_) (by rw [place]; exact nofun)
    by_cases here : j = i
    · subst here
      exact .inl nods
    · exact .inr (by rwa [← Function.update_of_ne here .sleeping s.state])
  | resume place _ _ =>
    exact watched.still rfl rfl nofun (fun j sleeps => .inr (roused sleeps nofun))
      (by rw [place]; exact nofun)
  | killRouse j place _ awake =>
    exact watched.still rfl rfl nofun (fun j sleeps => .inr (roused sleeps awake))
      (by rw [place]; exact nofun)
  | chan place =>
    exact watched.still rfl rfl (fun _ => by rw [place]; trivial) (fun _ => .inr)
      (by rw [place]; exact nofun)
  | asking held place | kill j place _ | killing j place | _ place =>
    exact watched.still rfl rfl nofun (fun _ => .inr) (by rw [place]; exact nofun)

/-! ## Runs -/

structure Safe (s : SleepSys n) : Prop where
  locks : s.Locks
  known : s.Known
  bedded : s.Bedded
  watched : s.Watched

theorem Safe.acts (safe : s.Safe) (acts : Acts pids s a s') : s'.Safe := by
  obtain ⟨locks, known, bedded, watched⟩ := safe
  cases acts with
  | call _ i x calls =>
    refine ⟨locks.calls calls, ?_, ?_, ?_⟩
    · exact known.move locks rfl calls.knows (.inr rfl) fun _ _ => rfl
    · exact bedded.up rfl calls.awake (fun _ _ => rfl) fun _ => id
    · exact watched.still rfl rfl calls.still.1 (fun _ => .inr) calls.still.2
  | run i _ runs =>
    exact ⟨locks.runs (known i) runs, known.runs locks runs, bedded.runs known runs,
      watched.runs locks known bedded runs⟩

theorem safe_init (n : Nat) : (init n).Safe where
  locks := ⟨fun _ => ⟨nofun, nofun⟩, fun _ => ⟨nofun, nofun⟩, none, fun _ => ⟨nofun, nofun⟩, rfl⟩
  known := fun _ => trivial
  bedded := nofun
  watched := nofun

theorem Safe.of_run (run : Run (Step pids) anyStep (init n) s) : s.Safe :=
  Run.invariant run Safe (safe_init n) fun _ _ _ safe _ step => safe.acts step.acts

/-- **Sleep locks.**  For any number of processes and in every interleaving, at most one of them owns
the lock, which it does all the way between `acquiresleep` and `releasesleep`, and whenever
`lk->lk` is free, also if `ptable.lock` is not, nobody sleeps on a lock that is free. -/
theorem sleeplock_safe (run : Run (Step pids) anyStep (init n) s) :
    (∀ i j, (s.place i).Owns → (s.place j).Owns → i = j) ∧
    (s.lk = none → ∀ i, s.state i = .sleeping → s.chan i = true → s.locked = true) := by
  obtain ⟨locks, -, -, watched⟩ := Safe.of_run run
  obtain ⟨owner, held, -⟩ := locks.owner
  refine ⟨fun i j => held.unique, fun free i sleeps _ => ?_⟩
  rcases watched i (.inr sleeps) with locked | ⟨k, wakes⟩
  · exact locked
  · have nobody := locks.lk
    rw [free] at nobody
    exact absurd wakes.holdsLk (nobody.free k)

/-- One process holds the lock and another one is asleep on it. -/
theorem sleeplock_safe_two : ∃ s : SleepSys 2, s.place 0 = .holding ∧ s.place 1 = .asleep ∧
    s.state 1 = .sleeping ∧ s.locked = true ∧ ∀ i, (s.place i).Owns → i = 0 := by
  have steps : (follow (act fun i => i.val + 1)
      ([.acquiresleep 0, .run 0, .run 0, .run 0, .run 0, .run 0, .acquiresleep 1] ++
        List.replicate 7 (.run 1)) (init 2)).any (fun s => decide (s.place 0 = .holding ∧
          s.place 1 = .asleep ∧ s.state 1 = .sleeping ∧ s.lk = none ∧ s.chan 1 = true)) = true := by
    decide +kernel
  obtain ⟨s, run, shape⟩ := Run.follow_any (Step fun i => i.val + 1) anyStep
    (fun _ _ _ h => ⟨trivial, h⟩) steps
  obtain ⟨holding, place, asleep, free, chan⟩ := of_decide_eq_true shape
  obtain ⟨one, taken⟩ := sleeplock_safe run
  refine ⟨s, holding, place, asleep, taken free 1 asleep chan, fun i owns => one i 0 owns ?_⟩
  rw [holding]
  trivial

/-! ## `holdingsleep` -/

/-- The answer of `holdingsleep`, and the pid that it compares. -/
def Marked (pids : Fin n → Nat) (s : SleepSys n) : Prop :=
  ∀ i, (s.place i).Marks s.pid (pids i)

/-- `lk->pid` is written by the owner and by the process that has just been it. -/
theorem Marked.move (marked : s.Marked pids) (place : t.place = Function.update s.place i x)
    (mine : x.Marks t.pid (pids i))
    (pid : t.pid = s.pid ∨ ∀ j, j ≠ i → ¬ (s.place j).Owns) : t.Marked pids := by
  intro j
  rw [place]
  by_cases here : j = i
  · subst here
    rwa [Function.update_self]
  · rw [Function.update_of_ne here]
    refine (marked j).congr fun owns => ?_
    rcases pid with same | nobody
    · exact same
    · exact absurd owns (nobody j here)

theorem TakesLk.marks {pid mine : Nat} (takes : TakesLk y x) (before : y.Marks pid mine) :
    x.Marks pid mine := by
  cases takes with
  | ask held => cases held <;> exact before
  | _ => exact before

theorem DropsLk.marks {pid mine : Nat} (drops : DropsLk y x) (before : y.Marks pid mine) :
    x.Marks pid mine := by
  cases drops with
  | holds r => exact before.1
  | exit => exact before
  | _ => trivial

theorem Calls.marks {pid mine : Nat} (calls : Calls y x) (before : y.Marks pid mine) :
    x.Marks pid mine := by
  cases calls <;> exact before

/-- Somebody else who owns the lock has left his pid in it. -/
theorem Marked.answer (marked : s.Marked pids) (locks : s.Locks)
    (distinct : Function.Injective pids) {held : Bool} (place : s.place i = .asking held) :
    (SleepPlace.asked held (s.locked && s.pid = pids i) : SleepPlace n).Marks s.pid (pids i) := by
  obtain ⟨owner, holds, isSome⟩ := locks.owner
  cases held with
  | true =>
    have own : owner = some i := (holds i).mp (by rw [place]; trivial)
    have pid := marked i
    rw [place] at pid
    refine ⟨pid, ?_⟩
    rw [isSome, own, show s.pid = pids i from pid]
    simp
  | false =>
    have notOwner : ¬ (s.place i).Owns := by
      rw [place]
      exact id
    show (s.locked && decide (s.pid = pids i)) = false
    by_contra answer
    simp only [Bool.not_eq_false, Bool.and_eq_true, decide_eq_true_eq] at answer
    rw [isSome] at answer
    obtain ⟨k, own⟩ := Option.isSome_iff_exists.mp answer.1
    have owns : (s.place k).Owns := (holds k).mpr own
    have other : k ≠ i := fun same => notOwner (same ▸ owns)
    have notMark : s.place k ≠ .mark := fun mark =>
      other (locks.lk.unique (by rw [mark]; trivial) (by rw [place]; trivial))
    have pid : s.pid = pids k := (marked k).pid owns notMark
    exact other (distinct (pid.symm.trans answer.2))

theorem Marked.runs (marked : s.Marked pids) (locks : s.Locks) (known : s.Known)
    (distinct : Function.Injective pids) (runs : Runs pids s i s') : s'.Marked pids := by
  have mine := marked i
  cases runs with
  | acquireLk x takes _ => exact marked.move rfl (takes.marks mine) (.inl rfl)
  | releaseLk x drops => exact marked.move rfl (drops.marks mine) (.inl rfl)
  | asking held place => exact marked.move rfl (marked.answer locks distinct place) (.inl rfl)
  | mark place =>
    obtain ⟨owner, held, -⟩ := locks.owner
    exact marked.move rfl rfl (.inr fun j other owns =>
      other (held.unique owns (by rw [place]; trivial)))
  | forget place =>
    obtain ⟨owner, held, isSome⟩ := locks.owner
    have locked := known i
    rw [place] at locked
    refine marked.move rfl trivial (.inr fun j _ owns => ?_)
    rw [show s.locked = false from locked, (held j).mp owns] at isSome
    cases isSome
  | _ => exact marked.move rfl trivial (.inl rfl)

/-- `holdingsleep` answers whether its caller is between `acquiresleep` and `releasesleep`. -/
theorem holdingsleep_answer (distinct : Function.Injective pids)
    (run : Run (Step pids) anyStep (init n) s) {held r : Bool} (place : s.place i = .asked held r) :
    r = held := by
  obtain ⟨-, marked⟩ : s.Safe ∧ s.Marked pids := by
    refine Run.invariant run (fun s => s.Safe ∧ s.Marked pids) ⟨safe_init n, fun _ => trivial⟩ ?_
    rintro s a t ⟨safe, marked⟩ - step
    refine ⟨safe.acts step.acts, ?_⟩
    cases step.acts with
    | call _ i x calls => exact marked.move rfl (calls.marks (marked i)) (.inl rfl)
    | run i _ runs => exact marked.runs safe.locks safe.known distinct runs
  have answer := marked i
  rw [place] at answer
  cases held with
  | true => exact answer.2
  | false => exact answer

/-- The process that does not hold the lock asks while the other one does. -/
theorem holdingsleep_answer_other : ∃ (s : SleepSys 2) (r : Bool), s.place 0 = .holding ∧
    s.place 1 = .asked false r ∧ r = false := by
  have steps : (follow (act fun i => i.val + 1) (.acquiresleep 0 :: List.replicate 5 (.run 0) ++
      [.holdingsleep 1, .run 1, .run 1]) (init 2)).any (fun s => decide (s.place 0 = .holding ∧
        s.place 1 = .asked false false)) = true := by
    decide +kernel
  obtain ⟨s, run, shape⟩ := Run.follow_any (Step fun i => i.val + 1) anyStep
    (fun _ _ _ h => ⟨trivial, h⟩) steps
  obtain ⟨holding, place⟩ := of_decide_eq_true shape
  refine ⟨s, false, holding, place, holdingsleep_answer (fun i j same => ?_) run place⟩
  exact Fin.ext (Nat.succ.inj same)

end SleepSys

end RandomRepo.Xv6

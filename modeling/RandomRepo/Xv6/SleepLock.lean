import RandomRepo.Lib.Run
import RandomRepo.Xv6.Proc

/-!
# Sleep locks

`sleeplock.c` with `sleep`, `wakeup` and `kill` of `proc.c`, for one sleep lock and a
table of `n` processes.  Every process is at a place of the code.  Taking or dropping a
spin lock is one step, and so is every test and every assignment between them.

`sched` gives `ptable.lock` to the scheduler, which drops it or passes it on to a process
that it resumes; here it is dropped and taken again.
-/

namespace RandomRepo.Xv6

/-- A process out of every call on the lock may hold it or not: `held` says which. -/
inductive SleepPlace (n : Nat)
  | out
  /-- In `acquiresleep`. -/
  | enter | test | take | mark | exit
  /-- Between `acquiresleep` and `releasesleep`. -/
  | holding
  /-- In `releasesleep`. -/
  | back | clear | forget
  /-- In its `wakeup`: before the lock, at the test and at the assignment for a process. -/
  | wakeup | scan (k : Nat) | rouse (k : Fin n)
  | leave
  /-- In `sleep`, before it switches away. -/
  | sleep | drop | chan | state | sched
  | asleep
  /-- In `sleep`, after it has been resumed. -/
  | tidy | unlock | again
  /-- In `holdingsleep`, with its result. -/
  | ask (held : Bool) | asking (held : Bool) | asked (held r : Bool)
  /-- In `kill`, after the process has been found. -/
  | kill (j : Fin n) | killing (j : Fin n) | killRouse (j : Fin n) | killed
  deriving DecidableEq, Repr

structure SleepSys (n : Nat) where
  lk : Option (Fin n)
  locked : Bool
  pid : Nat
  ptable : Option (Fin n)
  place : Fin n → SleepPlace n
  state : Fin n → ProcState
  /-- Whether `p->chan` is the sleep lock. -/
  chan : Fin n → Bool
  killed : Fin n → Bool

inductive SleepAct (n : Nat)
  | acquiresleep (i : Fin n)
  | releasesleep (i : Fin n)
  | holdingsleep (i : Fin n)
  | kill (i j : Fin n)
  | run (i : Fin n)

namespace SleepSys

variable {n : Nat}

def at_ (s : SleepSys n) (i : Fin n) (x : SleepPlace n) : SleepSys n :=
  { s with place := Function.update s.place i x }

def setState (s : SleepSys n) (i : Fin n) (state : ProcState) : SleepSys n :=
  { s with state := Function.update s.state i state }

def acquireLk (i : Fin n) (x : SleepPlace n) (s : SleepSys n) : Option (SleepSys n) :=
  if s.lk = none then some ({ s with lk := some i }.at_ i x) else none

def releaseLk (i : Fin n) (x : SleepPlace n) (s : SleepSys n) : SleepSys n :=
  { s with lk := none }.at_ i x

def acquireTable (i : Fin n) (x : SleepPlace n) (s : SleepSys n) : Option (SleepSys n) :=
  if s.ptable = none then some ({ s with ptable := some i }.at_ i x) else none

def releaseTable (i : Fin n) (x : SleepPlace n) (s : SleepSys n) : SleepSys n :=
  { s with ptable := none }.at_ i x

/-- A turn of the loop of `wakeup1`. -/
def scanNext (i : Fin n) (k : Nat) (s : SleepSys n) : SleepSys n :=
  if h : k < n then
    if s.state ⟨k, h⟩ = .sleeping ∧ s.chan ⟨k, h⟩ = true then s.at_ i (.rouse ⟨k, h⟩)
    else s.at_ i (.scan (k + 1))
  else s.releaseTable i .leave

/-- The next step of a process whose pid is `pids i`; `none` if it is in no call, waits for a
spin lock or sleeps. -/
def run (pids : Fin n → Nat) (i : Fin n) (s : SleepSys n) : Option (SleepSys n) :=
  match s.place i with
  | .out | .holding => none
  | .enter => s.acquireLk i .test
  | .test => some (s.at_ i (if s.locked then .sleep else .take))
  | .take => some ({ s with locked := true }.at_ i .mark)
  | .mark => some ({ s with pid := pids i }.at_ i .exit)
  | .exit => some (s.releaseLk i .holding)
  | .back => s.acquireLk i .clear
  | .clear => some ({ s with locked := false }.at_ i .forget)
  | .forget => some ({ s with pid := 0 }.at_ i .wakeup)
  | .wakeup => s.acquireTable i (.scan 0)
  | .scan k => some (s.scanNext i k)
  | .rouse k => some ((s.setState k .runnable).at_ i (.scan (k + 1)))
  | .leave => some (s.releaseLk i .out)
  | .sleep => s.acquireTable i .drop
  | .drop => some (s.releaseLk i .chan)
  | .chan => some ({ s with chan := Function.update s.chan i true }.at_ i .state)
  | .state => some ((s.setState i .sleeping).at_ i .sched)
  | .sched => some (s.releaseTable i .asleep)
  | .asleep =>
    if s.state i = .runnable then (s.setState i .running).acquireTable i .tidy else none
  | .tidy => some ({ s with chan := Function.update s.chan i false }.at_ i .unlock)
  | .unlock => some (s.releaseTable i .again)
  | .again => s.acquireLk i .test
  | .ask held => s.acquireLk i (.asking held)
  | .asking held => some (s.at_ i (.asked held (s.locked && s.pid = pids i)))
  | .asked held _ => some (s.releaseLk i (if held then .holding else .out))
  | .kill j => s.acquireTable i (.killing j)
  | .killing j => some ({ s with killed := Function.update s.killed j true }.at_ i (.killRouse j))
  | .killRouse j =>
    some ((if s.state j = .sleeping then s.setState j .runnable else s).at_ i .killed)
  | .killed => some (s.releaseTable i .out)

def act (pids : Fin n → Nat) (s : SleepSys n) : SleepAct n → Option (SleepSys n)
  | .acquiresleep i => if s.place i = .out then some (s.at_ i .enter) else none
  | .releasesleep i => if s.place i = .holding then some (s.at_ i .back) else none
  | .holdingsleep i =>
    if s.place i = .out then some (s.at_ i (.ask false))
    else if s.place i = .holding then some (s.at_ i (.ask true))
    else none
  | .kill i j => if s.place i = .out then some (s.at_ i (.kill j)) else none
  | .run i => s.run pids i

def Step (pids : Fin n → Nat) (s : SleepSys n) (a : SleepAct n) (s' : SleepSys n) : Prop :=
  s.act pids a = some s'

/-- A lock as `initsleeplock` leaves it. -/
def init (n : Nat) : SleepSys n where
  lk := none
  locked := false
  pid := 0
  ptable := none
  place := fun _ => .out
  state := fun _ => .running
  chan := fun _ => false
  killed := fun _ => false

/-! ## What a step does -/

/-- The steps that take `lk->lk`. -/
inductive TakesLk : SleepPlace n → SleepPlace n → Prop
  | enter : TakesLk .enter .test
  | again : TakesLk .again .test
  | back : TakesLk .back .clear
  | ask (held : Bool) : TakesLk (.ask held) (.asking held)

/-- The steps that drop `lk->lk` and return. -/
inductive DropsLk : SleepPlace n → SleepPlace n → Prop
  | exit : DropsLk .exit .holding
  | leave : DropsLk .leave .out
  | holds (r : Bool) : DropsLk (.asked true r) .holding
  | holdsNot (r : Bool) : DropsLk (.asked false r) .out

/-- The steps that begin a call. -/
inductive Calls : SleepPlace n → SleepPlace n → Prop
  | acquiresleep : Calls .out .enter
  | releasesleep : Calls .holding .back
  | holdsNot : Calls .out (.ask false)
  | holds : Calls .holding (.ask true)
  | kill (j : Fin n) : Calls .out (.kill j)

/-- The steps of process `i`. -/
inductive Runs (pids : Fin n → Nat) (s : SleepSys n) (i : Fin n) : SleepSys n → Prop
  | acquireLk (x : SleepPlace n) (takes : TakesLk (s.place i) x) (free : s.lk = none) :
      Runs pids s i ({ s with lk := some i }.at_ i x)
  | blocked (place : s.place i = .test) (locked : s.locked = true) : Runs pids s i (s.at_ i .sleep)
  | open_ (place : s.place i = .test) (locked : s.locked = false) : Runs pids s i (s.at_ i .take)
  | take (place : s.place i = .take) : Runs pids s i ({ s with locked := true }.at_ i .mark)
  | mark (place : s.place i = .mark) : Runs pids s i ({ s with pid := pids i }.at_ i .exit)
  | clear (place : s.place i = .clear) : Runs pids s i ({ s with locked := false }.at_ i .forget)
  | forget (place : s.place i = .forget) : Runs pids s i ({ s with pid := 0 }.at_ i .wakeup)
  | releaseLk (x : SleepPlace n) (drops : DropsLk (s.place i) x) :
      Runs pids s i ({ s with lk := none }.at_ i x)
  | wakeup (place : s.place i = .wakeup) (free : s.ptable = none) :
      Runs pids s i ({ s with ptable := some i }.at_ i (.scan 0))
  | found (k : Fin n) (place : s.place i = .scan k) : Runs pids s i (s.at_ i (.rouse k))
  | pass (k : Fin n) (place : s.place i = .scan k)
      (other : ¬ (s.state k = .sleeping ∧ s.chan k = true)) :
      Runs pids s i (s.at_ i (.scan (k + 1)))
  | scanned (k : Nat) (place : s.place i = .scan k) (done : n ≤ k) :
      Runs pids s i ({ s with ptable := none }.at_ i .leave)
  | rouse (k : Fin n) (place : s.place i = .rouse k) :
      Runs pids s i ((s.setState k .runnable).at_ i (.scan (k + 1)))
  | sleep (place : s.place i = .sleep) (free : s.ptable = none) :
      Runs pids s i ({ s with ptable := some i }.at_ i .drop)
  | drop (place : s.place i = .drop) : Runs pids s i ({ s with lk := none }.at_ i .chan)
  | chan (place : s.place i = .chan) :
      Runs pids s i ({ s with chan := Function.update s.chan i true }.at_ i .state)
  | state (place : s.place i = .state) : Runs pids s i ((s.setState i .sleeping).at_ i .sched)
  | sched (place : s.place i = .sched) : Runs pids s i ({ s with ptable := none }.at_ i .asleep)
  | resume (place : s.place i = .asleep) (ready : s.state i = .runnable) (free : s.ptable = none) :
      Runs pids s i ({ s.setState i .running with ptable := some i }.at_ i .tidy)
  | tidy (place : s.place i = .tidy) :
      Runs pids s i ({ s with chan := Function.update s.chan i false }.at_ i .unlock)
  | unlock (place : s.place i = .unlock) : Runs pids s i ({ s with ptable := none }.at_ i .again)
  | asking (held : Bool) (place : s.place i = .asking held) :
      Runs pids s i (s.at_ i (.asked held (s.locked && s.pid = pids i)))
  | kill (j : Fin n) (place : s.place i = .kill j) (free : s.ptable = none) :
      Runs pids s i ({ s with ptable := some i }.at_ i (.killing j))
  | killing (j : Fin n) (place : s.place i = .killing j) :
      Runs pids s i ({ s with killed := Function.update s.killed j true }.at_ i (.killRouse j))
  | killRouse (j : Fin n) (place : s.place i = .killRouse j) (state : ProcState)
      (awake : state ≠ .sleeping) : Runs pids s i ((s.setState j state).at_ i .killed)
  | killed (place : s.place i = .killed) : Runs pids s i ({ s with ptable := none }.at_ i .out)

variable {pids : Fin n → Nat} {s s' : SleepSys n} {i : Fin n}

theorem acquireLk_some {x : SleepPlace n} (h : s.acquireLk i x = some s') :
    s.lk = none ∧ s' = { s with lk := some i }.at_ i x := by
  unfold acquireLk at h
  split_ifs at h with free
  cases h
  exact ⟨free, rfl⟩

theorem acquireTable_some {x : SleepPlace n} (h : s.acquireTable i x = some s') :
    s.ptable = none ∧ s' = { s with ptable := some i }.at_ i x := by
  unfold acquireTable at h
  split_ifs at h with free
  cases h
  exact ⟨free, rfl⟩

theorem scanNext_runs {k : Nat} (place : s.place i = .scan k) :
    Runs pids s i (s.scanNext i k) := by
  unfold scanNext
  split_ifs with inside sleeps
  · exact .found ⟨k, inside⟩ place
  · exact .pass ⟨k, inside⟩ place sleeps
  · exact .scanned k place (Nat.le_of_not_lt inside)

theorem setState_self (s : SleepSys n) (j : Fin n) : s.setState j (s.state j) = s := by
  rw [setState, Function.update_eq_self]

theorem run_runs (h : s.run pids i = some s') : Runs pids s i s' := by
  unfold run at h
  split at h
  case h_1 => cases h
  case h_2 => cases h
  case h_3 place =>
    obtain ⟨free, rfl⟩ := acquireLk_some h
    exact .acquireLk .test (place ▸ .enter) free
  case h_4 place =>
    cases h
    split_ifs with locked
    · exact .blocked place locked
    · exact .open_ place (by simpa using locked)
  case h_5 place =>
    cases h
    exact .take place
  case h_6 place =>
    cases h
    exact .mark place
  case h_7 place =>
    cases h
    exact .releaseLk .holding (place ▸ .exit)
  case h_8 place =>
    obtain ⟨free, rfl⟩ := acquireLk_some h
    exact .acquireLk .clear (place ▸ .back) free
  case h_9 place =>
    cases h
    exact .clear place
  case h_10 place =>
    cases h
    exact .forget place
  case h_11 place =>
    obtain ⟨free, rfl⟩ := acquireTable_some h
    exact .wakeup place free
  case h_12 k place =>
    cases h
    exact scanNext_runs place
  case h_13 k place =>
    cases h
    exact .rouse k place
  case h_14 place =>
    cases h
    exact .releaseLk .out (place ▸ .leave)
  case h_15 place =>
    obtain ⟨free, rfl⟩ := acquireTable_some h
    exact .sleep place free
  case h_16 place =>
    cases h
    exact .drop place
  case h_17 place =>
    cases h
    exact .chan place
  case h_18 place =>
    cases h
    exact .state place
  case h_19 place =>
    cases h
    exact .sched place
  case h_20 place =>
    split_ifs at h with ready
    obtain ⟨free, rfl⟩ := acquireTable_some h
    exact .resume place ready free
  case h_21 place =>
    cases h
    exact .tidy place
  case h_22 place =>
    cases h
    exact .unlock place
  case h_23 place =>
    obtain ⟨free, rfl⟩ := acquireLk_some h
    exact .acquireLk .test (place ▸ .again) free
  case h_24 held place =>
    obtain ⟨free, rfl⟩ := acquireLk_some h
    exact .acquireLk _ (place ▸ .ask held) free
  case h_25 held place =>
    cases h
    exact .asking held place
  case h_26 held r place =>
    cases h
    cases held with
    | true => exact .releaseLk .holding (place ▸ .holds r)
    | false => exact .releaseLk .out (place ▸ .holdsNot r)
  case h_27 j place =>
    obtain ⟨free, rfl⟩ := acquireTable_some h
    exact .kill j place free
  case h_28 j place =>
    cases h
    exact .killing j place
  case h_29 j place =>
    cases h
    split_ifs with sleeps
    · exact .killRouse j place .runnable nofun
    · have runs : Runs pids s i _ := .killRouse j place (s.state j) sleeps
      rwa [setState_self] at runs
  case h_30 place =>
    cases h
    exact .killed place

/-- The steps of the whole system. -/
inductive Acts (pids : Fin n → Nat) (s : SleepSys n) : SleepAct n → SleepSys n → Prop
  | call (a : SleepAct n) (i : Fin n) (x : SleepPlace n) (calls : Calls (s.place i) x) :
      Acts pids s a (s.at_ i x)
  | run (i : Fin n) (s' : SleepSys n) (runs : Runs pids s i s') : Acts pids s (.run i) s'

theorem Step.acts {a : SleepAct n} (step : Step pids s a s') : Acts pids s a s' := by
  unfold Step act at step
  cases a with
  | acquiresleep i =>
    dsimp only at step
    split_ifs at step with place
    cases step
    exact .call _ i _ (place ▸ .acquiresleep)
  | releasesleep i =>
    dsimp only at step
    split_ifs at step with place
    cases step
    exact .call _ i _ (place ▸ .releasesleep)
  | holdingsleep i =>
    dsimp only at step
    split_ifs at step with out holding
    · cases step
      exact .call _ i _ (out ▸ .holdsNot)
    · cases step
      exact .call _ i _ (holding ▸ .holds)
  | kill i j =>
    dsimp only at step
    split_ifs at step with place
    cases step
    exact .call _ i _ (place ▸ .kill j)
  | run i => exact .run i s' (run_runs step)

end SleepSys

end RandomRepo.Xv6

import RandomRepo.Lib.Lock
import RandomRepo.Lib.Run
import Mathlib.Tactic.SplitIfs

/-!
# Spin locks and interrupts

`spinlock.c` with `mycpu`, for one lock and any number of processors.  A processor is at a place of
the code, and every access to the lock is a step of its own.  Between the calls it may call
`pushcli` and `popcli`, as it does for other locks, and its interrupt flag may change: by `sti`, by
`cli`, with an interrupt and with the return from it.
-/

namespace RandomRepo.Xv6

/-- What `struct cpu` has for interrupts, and `FL_IF` of the flags register. -/
structure Cpu where
  ncli : Int
  intena : Bool
  enabled : Bool
deriving DecidableEq, Repr

inductive SpinPanic
  | interruptible | popcli | mycpu | acquire | release
deriving DecidableEq, Repr

namespace Cpu

variable {c : Cpu} {n : Nat} {flag : Bool}

def mycpu (c : Cpu) : Except SpinPanic Unit := if c.enabled then .error .mycpu else .ok ()

def pushcli (c : Cpu) : Cpu := ⟨c.ncli + 1, if c.ncli = 0 then c.enabled else c.intena, false⟩

def popcli (c : Cpu) : Except SpinPanic Cpu :=
  if c.enabled then .error .interruptible
  else if c.ncli - 1 < 0 then .error .popcli
  else .ok ⟨c.ncli - 1, c.intena, decide (c.ncli - 1 = 0) && c.intena⟩

/-- Interrupts are off `n` times over; otherwise the flag would be `flag`. -/
def Nested (c : Cpu) (n : Nat) (flag : Bool) : Prop :=
  c.ncli = n ∧ if n = 0 then c.enabled = flag else c.enabled = false ∧ c.intena = flag

theorem Nested.pushcli (nested : c.Nested n flag) : c.pushcli.Nested (n + 1) flag := by
  obtain ⟨count, off⟩ := nested
  refine ⟨by simp only [Cpu.pushcli]; omega, ?_⟩
  rw [if_neg (Nat.succ_ne_zero n)]
  refine ⟨rfl, ?_⟩
  simp only [Cpu.pushcli, count, Int.natCast_eq_zero]
  split_ifs at off ⊢
  · exact off
  · exact off.2

theorem Nested.off (nested : c.Nested (n + 1) flag) : c.enabled = false := nested.2.1

theorem Nested.restored (nested : c.Nested n flag) (zero : c.ncli = 0) : c.enabled = flag := by
  obtain ⟨count, on⟩ := nested
  rwa [if_pos (by omega)] at on

theorem Nested.popcli (nested : c.Nested (n + 1) flag) :
    ∃ d, c.popcli = .ok d ∧ d.Nested n flag := by
  obtain ⟨count, off, on⟩ := nested
  have pred : c.ncli - 1 = n := by omega
  refine ⟨_, by rw [Cpu.popcli, off, if_neg Bool.false_ne_true, if_neg (by omega)], pred, ?_⟩
  simp only [pred, on]
  split_ifs with zero
  · simp [zero]
  · simp [zero]

end Cpu

/-- In `acquire` after `pushcli`, at the loop and after it; in `release` after `lk->cpu` is cleared
and after the lock is. -/
inductive SpinPlace
  | out
  | check | spin | won
  | holding
  | drop | undo
deriving DecidableEq, Repr

/-- Between the `xchg` that takes the lock and the store that frees it. -/
def SpinPlace.inside : SpinPlace → Bool
  | .won | .holding | .drop => true
  | _ => false

/-- A processor.  The last two are history variables: the calls of `pushcli` that are not undone,
those for this lock apart, and the interrupt flag as it was set last. -/
structure Core where
  cpu : Cpu
  place : SpinPlace
  pushed : Nat
  flag : Bool

structure SpinSys (κ : Type) where
  locked : Bool
  owner : Option κ
  core : κ → Core

inductive SpinAct
  | acquire | release | pushcli | popcli
  | flag (enabled : Bool)
  | run
deriving DecidableEq, Repr

namespace SpinSys

variable {κ : Type} [DecidableEq κ]

def set (s : SpinSys κ) (c : κ) (x : Core) : SpinSys κ :=
  { s with core := Function.update s.core c x }

def holding (s : SpinSys κ) (c : κ) : Except SpinPanic (Bool × Cpu) := do
  let cpu := (s.core c).cpu.pushcli
  cpu.mycpu
  let cpu ← cpu.popcli
  return (s.locked && s.owner == some c, cpu)

/-- The next step of `acquire` or `release`. -/
def run (s : SpinSys κ) (c : κ) : Except SpinPanic (SpinSys κ) :=
  let x := s.core c
  match x.place with
  | .out | .holding => .ok s
  | .check => do
    let (held, cpu) ← s.holding c
    if held then .error .acquire else .ok (s.set c { x with cpu, place := .spin })
  | .spin => .ok (if s.locked then s else { s.set c { x with place := .won } with locked := true })
  | .won => do
    x.cpu.mycpu
    .ok { s.set c { x with place := .holding } with owner := some c }
  | .drop => .ok { s.set c { x with place := .undo } with locked := false }
  | .undo => do
    let cpu ← x.cpu.popcli
    .ok (s.set c { x with cpu, place := .out })

/-- The first step of a call, or a later one. -/
def next (s : SpinSys κ) (c : κ) (a : SpinAct) : Except SpinPanic (SpinSys κ) :=
  let x := s.core c
  match a with
  | .run => s.run c
  | .acquire => .ok (s.set c { x with cpu := x.cpu.pushcli, place := .check })
  | .release => do
    let (held, cpu) ← s.holding c
    if held then .ok { s.set c { x with cpu, place := .drop } with owner := none }
    else .error .release
  | .pushcli => .ok (s.set c { x with cpu := x.cpu.pushcli, pushed := x.pushed + 1 })
  | .popcli => do
    let cpu ← x.cpu.popcli
    .ok (s.set c { x with cpu, pushed := x.pushed - 1 })
  | .flag b => .ok (s.set c { x with cpu := { x.cpu with enabled := b }, flag := b })

def Step (s : SpinSys κ) (a : κ × SpinAct) (t : SpinSys κ) : Prop := s.next a.1 a.2 = .ok t

/-- A processor calls `acquire` without the lock and `release` with it, undoes its own `pushcli`, and
changes its interrupt flag only when it has called none.  It makes no call inside of another. -/
def Careful (s : SpinSys κ) : κ × SpinAct → Prop
  | (_, .run) => True
  | (c, .acquire) => (s.core c).place = .out
  | (c, .release) => (s.core c).place = .holding
  | (c, .pushcli) => (s.core c).place = .out ∨ (s.core c).place = .holding
  | (c, .popcli) => ((s.core c).place = .out ∨ (s.core c).place = .holding) ∧ 0 < (s.core c).pushed
  | (c, .flag _) => (s.core c).place = .out ∧ (s.core c).cpu.ncli = 0

def boot (flags : κ → Bool) : SpinSys κ :=
  ⟨false, none, fun c => ⟨⟨0, false, flags c⟩, .out, 0, flags c⟩⟩

end SpinSys

/-! ## The invariant -/

/-- Interrupts are off once more than by `pushcli` from `acquire` to `release`. -/
def Core.Fine (x : Core) : Prop :=
  x.cpu.Nested (x.pushed + if x.place = .out then 0 else 1) x.flag

namespace SpinSys

variable {κ : Type} {s : SpinSys κ} {c d : κ} {x : Core} {n : Nat} {flag : Bool}

structure Inv (s : SpinSys κ) : Prop where
  fine : ∀ c, (s.core c).Fine
  owner : HeldBy (fun x => x.place = .holding) s.core s.owner
  taken : ∃ holder, HeldBy (fun x => x.place.inside = true) s.core holder ∧
    s.locked = holder.isSome

theorem Inv.unique (inv : s.Inv) (mine : (s.core c).place.inside = true)
    (theirs : (s.core d).place.inside = true) : c = d := by
  obtain ⟨holder, heldBy, -⟩ := inv.taken
  exact heldBy.unique mine theirs

theorem Inv.locked (inv : s.Inv) (inside : (s.core c).place.inside = true) : s.locked = true := by
  obtain ⟨holder, heldBy, lock⟩ := inv.taken
  rw [lock, (heldBy c).mp inside]
  rfl

variable [DecidableEq κ]

theorem holding_spec (s : SpinSys κ) (nested : (s.core c).cpu.Nested n flag) :
    ∃ cpu, s.holding c = .ok (s.locked && s.owner == some c, cpu) ∧ cpu.Nested n flag := by
  obtain ⟨cpu, pop, back⟩ := nested.pushcli.popcli
  refine ⟨cpu, ?_, back⟩
  rw [holding, Cpu.mycpu, nested.pushcli.off, if_neg Bool.false_ne_true]
  show (do let cpu ← (s.core c).cpu.pushcli.popcli; pure _) = _
  rw [pop]
  rfl

/-- A step of one processor, with what it does to the lock. -/
theorem Inv.set (inv : s.Inv) (x : Core) (fine : x.Fine) {owner : Option κ} {locked : Bool}
    (owns : LockMove c ((s.core c).place = .holding) (x.place = .holding) s.owner owner)
    (takes : ∀ holder, s.locked = holder.isSome → ∃ holder',
      LockMove c ((s.core c).place.inside = true) (x.place.inside = true) holder holder' ∧
        locked = holder'.isSome) :
    Inv ⟨locked, owner, Function.update s.core c x⟩ where
  fine d := by
    show (Function.update s.core c x d).Fine
    by_cases here : d = c
    · rw [here, Function.update_self]
      exact fine
    · rw [Function.update_of_ne here]
      exact inv.fine d
  owner := inv.owner.update owns
  taken := by
    obtain ⟨holder, heldBy, lock⟩ := inv.taken
    obtain ⟨holder', move, lock'⟩ := takes holder lock
    exact ⟨holder', heldBy.update move, lock'⟩

/-- A step that leaves the lock alone. -/
theorem Inv.quiet (inv : s.Inv) (x : Core) (fine : x.Fine)
    (owns : (s.core c).place = .holding ↔ x.place = .holding)
    (inside : (s.core c).place.inside = x.place.inside) : (s.set c x).Inv :=
  inv.set x fine (.same owns _) fun holder lock => ⟨holder, .same (by rw [inside]) holder, lock⟩

theorem Inv.run (inv : s.Inv) (c : κ) : ∃ t, s.run c = .ok t ∧ t.Inv := by
  have nested : (s.core c).cpu.Nested _ _ := inv.fine c
  rw [SpinSys.run]
  cases place : (s.core c).place with
  | out => exact ⟨s, rfl, inv⟩
  | holding => exact ⟨s, rfl, inv⟩
  | check =>
    rw [place] at nested
    obtain ⟨cpu, holds, back⟩ := holding_spec s nested
    have other : s.owner ≠ some c := fun own => by
      cases place.symm.trans ((inv.owner c).mpr own)
    have no : (s.locked && s.owner == some c) = false := by simp [other]
    refine ⟨_, by simp only [holds, no]; rfl,
      inv.quiet { s.core c with cpu, place := .spin } back ?_ (by rw [place]; rfl)⟩
    simp [place]
  | spin =>
    rw [place] at nested
    refine ⟨_, rfl, ?_⟩
    split_ifs with locked
    · exact inv
    refine inv.set { s.core c with place := .won } nested (.same ?_ _)
      fun holder taken => ⟨some c, ?_, rfl⟩
    · simp [place]
    · obtain rfl : holder = none := by
        rw [taken] at locked
        exact Option.not_isSome_iff_eq_none.mp locked
      exact .take rfl
  | won =>
    rw [place] at nested
    have inside : (s.core c).place.inside = true := by rw [place]; rfl
    -- Somebody else as the owner would be inside as well.
    have free : s.owner = none := by
      by_contra some_
      obtain ⟨d, own⟩ := Option.ne_none_iff_exists'.mp some_
      have theirs := (inv.owner d).mpr own
      obtain rfl := inv.unique (by rw [theirs]; rfl) inside
      cases place.symm.trans theirs
    refine ⟨_, by simp only [Cpu.mycpu, nested.off, if_neg Bool.false_ne_true]; rfl,
      inv.set { s.core c with place := .holding } nested ?_
        fun holder taken => ⟨holder, .keep inside rfl holder, taken⟩⟩
    rw [free]
    exact .take rfl
  | drop =>
    rw [place] at nested
    refine ⟨_, rfl, inv.set { s.core c with place := .undo } nested (.same ?_ _)
      fun holder taken => ⟨none, .drop (by rw [place]; rfl) nofun holder, rfl⟩⟩
    simp [place]
  | undo =>
    rw [place] at nested
    obtain ⟨cpu, pop, back⟩ := nested.popcli
    refine ⟨_, by simp only [pop]; rfl,
      inv.quiet { s.core c with cpu, place := .out } back ?_ (by rw [place]; rfl)⟩
    simp [place]

theorem Inv.next (inv : s.Inv) {a : SpinAct} (careful : s.Careful (c, a)) :
    ∃ t, s.next c a = .ok t ∧ t.Inv := by
  have nested : (s.core c).cpu.Nested _ _ := inv.fine c
  cases a with
  | run => exact inv.run c
  | acquire =>
    have out : (s.core c).place = .out := careful
    rw [out] at nested
    refine ⟨_, rfl, inv.quiet _ nested.pushcli ?_ (by rw [out]; rfl)⟩
    simp [out]
  | release =>
    have held : (s.core c).place = .holding := careful
    have inside : (s.core c).place.inside = true := by rw [held]; rfl
    rw [held] at nested
    obtain ⟨cpu, holds, back⟩ := holding_spec s nested
    have yes : (s.locked && s.owner == some c) = true := by
      rw [inv.locked inside, (inv.owner c).mp held]
      simp
    exact ⟨_, by rw [SpinSys.next, holds, yes]; rfl,
      inv.set { s.core c with cpu, place := .drop } back (.drop held nofun _)
        fun holder lock => ⟨holder, .keep inside rfl holder, lock⟩⟩
  | pushcli =>
    have more := nested.pushcli
    rw [Nat.add_right_comm] at more
    exact ⟨_, rfl, inv.quiet _ more Iff.rfl rfl⟩
  | popcli =>
    rw [← Nat.sub_add_cancel (show 1 ≤ _ from careful.2), Nat.add_right_comm] at nested
    obtain ⟨cpu, pop, back⟩ := nested.popcli
    exact ⟨_, by rw [SpinSys.next, pop]; rfl,
      inv.quiet { s.core c with cpu, pushed := (s.core c).pushed - 1 } back Iff.rfl rfl⟩
  | flag b =>
    have zero := Int.natCast_eq_zero.mp (nested.1.symm.trans careful.2)
    exact ⟨_, rfl, inv.quiet _ ⟨nested.1, if_pos zero ▸ rfl⟩ Iff.rfl rfl⟩

/-- **Spin locks.**  In every run of any number of processors at most one of them is inside of the
lock, and then its interrupts are off, so that no handler can wait for the lock; a processor
that has called `popcli` as often as `pushcli` has the interrupt flag that was set last; and no call
panics. -/
theorem spin_locks (flags : κ → Bool) (run : Run Step Careful (boot flags) s) :
    (∀ c d, (s.core c).place.inside = true → (s.core d).place.inside = true → c = d) ∧
    (∀ c, (s.core c).place.inside = true → s.locked = true ∧ (s.core c).cpu.enabled = false) ∧
    (∀ c, (s.core c).cpu.ncli = 0 → (s.core c).cpu.enabled = (s.core c).flag) ∧
    ∀ a e, s.Careful a → s.next a.1 a.2 ≠ .error e := by
  have start : (boot flags).Inv := ⟨fun c => ⟨rfl, rfl⟩, fun c => iff_of_false nofun nofun, none,
    fun c => iff_of_false nofun nofun, rfl⟩
  have inv : s.Inv := run.invariant Inv start fun _ _ _ inv careful step => by
    obtain ⟨t, same, after⟩ := inv.next careful
    cases same.symm.trans step
    exact after
  refine ⟨fun c d => inv.unique, fun c inside => ⟨inv.locked inside, ?_⟩,
    fun c => Cpu.Nested.restored (inv.fine c), fun a e careful failed => ?_⟩
  · have nested : (s.core c).cpu.Nested _ _ := inv.fine c
    rw [if_neg fun out => by rw [out] at inside; cases inside] at nested
    exact nested.off
  · obtain ⟨t, same, -⟩ := inv.next careful
    cases same.symm.trans failed

/-- Processor `true` takes the free lock, and its interrupts are off. -/
theorem spin_locks_taken : ∃ s : SpinSys Bool, Run Step Careful (boot fun _ => true) s ∧
    (s.core true).place = .holding ∧ (s.core true).cpu.enabled = false := by
  have start : Run Step Careful (boot fun _ : Bool => true) (boot fun _ => true) := .refl _
  have asked := start.tail (a := (true, SpinAct.acquire)) rfl rfl
  have checked := asked.tail (a := (true, SpinAct.run)) trivial rfl
  have won := checked.tail (a := (true, SpinAct.run)) trivial rfl
  have run := won.tail (a := (true, SpinAct.run)) trivial rfl
  exact ⟨_, run, rfl, ((spin_locks _ run).2.1 true rfl).2⟩

end SpinSys

end RandomRepo.Xv6

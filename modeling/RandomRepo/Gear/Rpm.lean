import Mathlib.Algebra.GroupWithZero.Nat
import RandomRepo.Lib.Run

/-!
# Counting revolutions

`readRPM` and the interrupt handler `RPMCount` of `project.ino`.  The handler may run between any
two steps of `readRPM`, which reads the counter `REV`, reads the clock, sets the counter to zero and
waits.  `used` and `interrupts` are history variables: the values of `REV` that completed calls
have used, and how often the handler has run.
-/

namespace RandomRepo.Gear

/-- Where `readRPM` is, with the value of `REV` it has used. -/
inductive Place
  | idle
  | read (rev : Nat)
  | timed (rev : Nat)
  | cleared (rev : Nat)
  deriving DecidableEq, Repr

structure Rpm where
  place : Place
  rev : UInt8
  tmpRPM : UInt32
  rpm : UInt32
  time : UInt32
  used : List Nat
  interrupts : Nat
  deriving Repr

def Rpm.start : Rpm := ⟨.idle, 0, 0, 0, 0, [], 0⟩

inductive RpmStep
  | interrupt
  /-- The next step of `readRPM`, with what `millis` returns. -/
  | run (millis : UInt32)
  deriving Repr

/-- `RPMCount`. -/
def Rpm.rpmCount (s : Rpm) : Rpm := { s with rev := s.rev + 1, interrupts := s.interrupts + 1 }

def Rpm.readRPM (s : Rpm) (millis : UInt32) : Rpm :=
  match s.place with
  | .idle =>
    { s with
      tmpRPM := (60 / 2) * (1000 / (millis - s.time)) * s.rev.toUInt32
      place := .read s.rev.toNat }
  | .read rev => { s with time := millis, place := .timed rev }
  | .timed rev => { s with rev := 0, place := .cleared rev }
  | .cleared rev => { s with rpm := s.tmpRPM, used := rev :: s.used, place := .idle }

def Rpm.next (s : Rpm) : RpmStep → Rpm
  | .interrupt => s.rpmCount
  | .run millis => s.readRPM millis

def Rpm.Step (s : Rpm) (a : RpmStep) (s' : Rpm) : Prop := s.next a = s'

/-- The sample of the call that is going on, once the counter has been cleared. -/
def Place.sample : Place → Nat
  | .cleared rev => rev
  | _ => 0

/-- The counter has been read and not been cleared yet. -/
def Place.between : Place → Bool
  | .read _ | .timed _ => true
  | _ => false

/-- The counter does not wrap around. -/
def Few (s : Rpm) : RpmStep → Prop
  | .interrupt => s.rev.toNat < 255
  | .run _ => True

/-- The handler does not run between the read of the counter and the assignment that clears
it, and the counter does not wrap around. -/
def Quiet (s : Rpm) : RpmStep → Prop
  | .interrupt => s.rev.toNat < 255 ∧ s.place.between = false
  | .run _ => True

/-- Between the read and the assignment the counter has the value that has been read. -/
structure Rpm.Counted (s : Rpm) : Prop where
  current : ∀ rev, s.place = .read rev ∨ s.place = .timed rev → s.rev.toNat = rev
  total : s.used.sum + s.place.sample + s.rev.toNat = s.interrupts

theorem Rpm.Counted.rpmCount {s : Rpm} (counted : s.Counted) (quiet : Quiet s .interrupt) :
    s.rpmCount.Counted := by
  obtain ⟨few, outside⟩ := quiet
  have more : (s.rev + 1).toNat = s.rev.toNat + 1 := by
    rw [UInt8.toNat_add]
    exact Nat.mod_eq_of_lt (Nat.succ_lt_succ few)
  refine ⟨fun rev inside => ?_, ?_⟩
  · rcases inside with here | here
    · rw [show s.place = _ from here] at outside
      cases outside
    · rw [show s.place = _ from here] at outside
      cases outside
  · have total := counted.total
    show s.used.sum + s.place.sample + (s.rev + 1).toNat = s.interrupts + 1
    omega

theorem Rpm.Counted.readRPM {s : Rpm} (counted : s.Counted) (millis : UInt32) :
    (s.readRPM millis).Counted := by
  obtain ⟨current, total⟩ := counted
  unfold Rpm.readRPM
  cases place : s.place with
  | idle =>
    rw [place] at total
    exact ⟨fun rev inside => by simpa using inside, total⟩
  | read rev =>
    rw [place] at total
    exact ⟨fun rev' inside => (current rev (.inl place)).trans (by simpa using inside), total⟩
  | timed rev =>
    rw [place] at total
    have here := current rev (.inr place)
    refine ⟨fun rev' inside => by simp at inside, ?_⟩
    show s.used.sum + rev + 0 = s.interrupts
    simp only [Place.sample] at total
    omega
  | cleared rev =>
    rw [place] at total
    refine ⟨fun rev' inside => by simp at inside, ?_⟩
    show (rev :: s.used).sum + 0 + s.rev.toNat = s.interrupts
    simp only [Place.sample] at total
    rw [List.sum_cons]
    omega

/-- **Revolutions.**  In a run in which no interrupt comes between the read of the counter and the
assignment that clears it, and in which the counter does not wrap around, every interrupt is
counted once: in a completed call, in the sample of the call that is going on, or in the counter. -/
theorem revolutions_counted {s : Rpm} (run : Run Rpm.Step Quiet .start s) :
    s.used.sum + s.place.sample + s.rev.toNat = s.interrupts ∧
      (s.place = .idle → s.used.sum + s.rev.toNat = s.interrupts) := by
  have counted : s.Counted := by
    refine run.invariant Rpm.Counted ⟨nofun, rfl⟩ fun s a s' counted quiet step => ?_
    subst step
    cases a with
    | interrupt => exact counted.rpmCount quiet
    | run millis => exact counted.readRPM millis
  refine ⟨counted.total, fun idle => ?_⟩
  have total := counted.total
  rwa [idle] at total

/-- An interrupt before the read and one while the call waits. -/
theorem revolutions_counted_two : ∃ s, Run Rpm.Step Quiet .start s ∧
    s.interrupts = 2 ∧ s.used.sum + s.rev.toNat = 2 := by
  have run : Run Rpm.Step Quiet .start _ :=
    (((((Run.refl Rpm.start).tail (a := .interrupt) ⟨by decide, rfl⟩ rfl).tail
      (a := .run 500) trivial rfl).tail (a := .run 500) trivial rfl).tail (a := .run 500) trivial
        rfl).tail (a := .interrupt) ⟨by decide, rfl⟩ rfl |>.tail (a := .run 1000) trivial rfl
  exact ⟨_, run, rfl, (revolutions_counted run).2 rfl⟩

/-- An interrupt between the read and the assignment is lost. -/
theorem revolution_lost : ∃ s, Run Rpm.Step Few .start s ∧ s.place = .idle ∧
    s.used.sum + s.rev.toNat = 0 ∧ s.interrupts = 1 := by
  have run : Run Rpm.Step Few .start _ :=
    ((((Run.refl Rpm.start).tail (a := .run 500) trivial rfl).tail
      (a := .interrupt) (by decide : (0 : UInt8).toNat < 255) rfl).tail (a := .run 500) trivial
        rfl).tail (a := .run 500) trivial rfl |>.tail (a := .run 1000) trivial rfl
  exact ⟨_, run, rfl, rfl, rfl⟩

end RandomRepo.Gear

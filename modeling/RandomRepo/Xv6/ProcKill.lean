import RandomRepo.Xv6.ProcTreeInv

/-!
# Who is killed

`kill` looks for a pid in all slots of the process table, also in those that are not
used.  Such a slot has pid 0 or, after a failed `fork`, the pid of that attempt, and
`allocproc` does not clear `killed`; so a mark that is left in an unused slot is found
in the next process that gets the slot.

`named` is a history variable: it says for each slot whether `kill` has been called with
the pid of the process in it, or that process has trapped, since `allocproc` made it.
-/

namespace RandomRepo.Xv6

namespace TreeSys

/-- What `kill` returns. -/
def killReply (pid : UInt32) (s : TreeSys) : Int :=
  match (List.finRange nproc).find? fun j => (s.proc j).pid = pid with
  | none => -1
  | some _ => 0

/-- The slot that `allocproc` would take. -/
def unusedSlot (s : TreeSys) : Option Pslot :=
  (List.finRange nproc).find? fun j => (s.proc j).state = .unused

/-- The default case of `trap`, for a process in user space. -/
def trap (i : Pslot) (s : TreeSys) : TreeSys :=
  s.setProc i { s.proc i with killed := true }

end TreeSys

structure KillSys where
  tree : TreeSys
  named : Pslot → Bool

inductive KillAct
  | act (a : TreeAct)
  | trap (i : Pslot)

namespace KillSys

/-- The history after a step of the process table. -/
def note (s : KillSys) (a : TreeAct) (j : Pslot) : Bool :=
  match a with
  | .fork _ => s.named j && !decide (s.tree.unusedSlot = some j)
  | .kill pid =>
    s.named j || (decide ((s.tree.proc j).state ≠ .unused) && decide ((s.tree.proc j).pid = pid))
  | _ => s.named j

def next (s : KillSys) : KillAct → Option KillSys
  | .act a => (s.tree.act a).map fun t => ⟨t, s.note a⟩
  | .trap i =>
    if (s.tree.proc i).state = .running ∧ (s.tree.proc i).place = .user then
      some ⟨s.tree.trap i, Function.update s.named i true⟩
    else none

def Step (s : KillSys) (a : KillAct) (t : KillSys) : Prop := s.next a = some t

def boot : KillSys := ⟨.boot, fun _ => false⟩

/-- `kill` is not called with the pid field of an unused slot, and no `fork` fails whose new
process has been killed meanwhile. -/
def Careful (s : KillSys) : KillAct → Prop
  | .act (.kill pid) => ∀ j, (s.tree.proc j).state = .unused → (s.tree.proc j).pid ≠ pid
  | .act (.forkFail i) =>
    ∀ n, (s.tree.proc i).place = .forking n → (s.tree.proc n).killed = false
  | _ => True

end KillSys

/-! ## What a step does to the marks -/

namespace TreeSys

variable {s t u : TreeSys} {i n : Pslot}

/-- No slot is marked that was not, and none that stays marked becomes unused. -/
def Mild (s t : TreeSys) : Prop :=
  ∀ j, (t.proc j).killed = true → (s.proc j).killed = true ∧
    ((t.proc j).state = .unused → (s.proc j).state = .unused)

theorem Mild.refl (s : TreeSys) : Mild s s := fun _ killed => ⟨killed, id⟩

theorem Mild.trans (first : Mild s t) (second : Mild t u) : Mild s u := fun j killed =>
  have ⟨killed, unused⟩ := second j killed
  ⟨(first j killed).1, fun h => (first j killed).2 (unused h)⟩

/-- One slot is changed. -/
theorem mild_setProc {p : TreeProc} (mild : p.killed = true →
    (s.proc i).killed = true ∧ (p.state = .unused → (s.proc i).state = .unused)) :
    Mild s (s.setProc i p) := by
  intro j killed
  by_cases here : j = i
  · subst here
    rw [setProc_self] at killed ⊢
    exact mild killed
  · rw [setProc_of_ne here] at killed ⊢
    exact ⟨killed, id⟩

/-- A slot with its mark and a process in it. -/
theorem mild_used {p : TreeProc} (x : ProcState) (keeps : p.killed = (s.proc i).killed)
    (state : p.state = x) (used : x ≠ .unused) : Mild s (s.setProc i p) :=
  mild_setProc fun killed => ⟨keeps ▸ killed, fun unused => absurd (state.symm.trans unused) used⟩

theorem mild_at (s : TreeSys) (i : Pslot) (x : TreePlace) : Mild s (s.at_ i x) :=
  mild_setProc fun killed => ⟨killed, id⟩

theorem mild_wakeup1 (chan : Option TreeChan) (s : TreeSys) : Mild s (s.wakeup1 chan) := by
  intro j killed
  unfold wakeup1 rouse at killed ⊢
  dsimp only at killed ⊢
  split_ifs at killed ⊢ with sleeps
  · exact ⟨killed, fun unused => absurd unused (by decide)⟩
  · exact ⟨killed, id⟩

theorem mild_passChildren (cur : Pslot) (ps : List Pslot) (s : TreeSys) :
    Mild s (passChildren cur ps s) := by
  induction ps generalizing s with
  | nil => exact .refl s
  | cons p ps ih =>
    rw [passChildren]
    split_ifs with child
    · have passed : Mild s (s.setProc p { s.proc p with parent := some initproc }) :=
        mild_setProc fun killed => ⟨killed, id⟩
      refine passed.trans (.trans ?_ (ih _))
      dsimp only
      split_ifs
      · exact mild_wakeup1 _ _
      · exact .refl _
    · exact ih s

theorem mild_exit (exits : s.exit i = some t) : Mild s t := by
  unfold exit at exits
  split_ifs at exits
  cases exits
  have woken := mild_wakeup1 ((s.proc i).parent.map .proc) s
  have passed := mild_passChildren i (List.finRange nproc) (s.wakeup1 ((s.proc i).parent.map .proc))
  exact (woken.trans passed).trans (mild_used .zombie rfl rfl (by decide))

theorem WaitTurn.mild (turn : WaitTurn s i t) : Mild s t := by
  cases turn with
  | reaped c child zombie =>
    refine Mild.trans ?_ (mild_at _ i _)
    exact mild_setProc fun killed => absurd killed Bool.false_ne_true
  | returns => exact mild_at s i _
  | sleeps => exact mild_used .sleeping rfl rfl (by decide)

theorem mild_schedule (i : Pslot) (s : TreeSys) : Mild s (s.schedule i) := by
  have resumed : Mild s (s.setProc i { s.proc i with state := .running, chan := none }) :=
    mild_used .running rfl rfl (by decide)
  unfold schedule
  dsimp only
  split_ifs
  · exact resumed.trans (waitLoop_turn i _).mild
  · exact resumed

theorem mild_fork (i : Pslot) (s : TreeSys) : Mild s (s.fork i) := by
  unfold fork
  split
  · exact .refl s
  · refine Mild.trans ?_ (mild_at _ i _)
    exact mild_used .embryo rfl rfl (by decide)

theorem mild_forkFail (clear : (s.proc n).killed = false) : Mild s (s.forkFail i n) := by
  refine Mild.trans ?_ (mild_at _ i _)
  refine mild_setProc fun killed => ?_
  rw [show (s.proc n).killed = true from killed] at clear
  cases clear

/-- All steps but `kill`, and a `fork` that fails only if its process is not marked. -/
theorem act_mild {a : TreeAct} (act : s.act a = some t) (other : ∀ pid, a ≠ .kill pid)
    (clear : ∀ i n, a = .forkFail i → (s.proc i).place = .forking n → (s.proc n).killed = false) :
    Mild s t := by
  cases a with
  | schedule i =>
    obtain ⟨-, same⟩ := Option.ite_none_right_eq_some.mp act
    cases same
    exact mild_schedule i s
  | yield i =>
    obtain ⟨-, same⟩ := Option.ite_none_right_eq_some.mp act
    cases same
    exact mild_used .runnable rfl rfl (by decide)
  | sleep i c =>
    obtain ⟨-, same⟩ := Option.ite_none_right_eq_some.mp act
    cases same
    exact mild_used .sleeping rfl rfl (by decide)
  | wakeup c =>
    cases act
    exact mild_wakeup1 _ s
  | fork i =>
    obtain ⟨-, same⟩ := Option.ite_none_right_eq_some.mp act
    cases same
    exact mild_fork i s
  | forkFail i =>
    cases place : (s.proc i).place with
    | forking n =>
      simp only [TreeSys.act, place] at act
      obtain ⟨-, same⟩ := Option.ite_none_right_eq_some.mp act
      cases same
      exact mild_forkFail (clear i n rfl place)
    | user | linked n | waiting =>
      simp only [TreeSys.act, place, reduceCtorEq] at act
  | forkLink i =>
    cases place : (s.proc i).place with
    | forking n =>
      simp only [TreeSys.act, place] at act
      obtain ⟨-, same⟩ := Option.ite_none_right_eq_some.mp act
      cases same
      refine Mild.trans ?_ (mild_at _ i _)
      exact mild_setProc fun killed => ⟨killed, id⟩
    | user | linked n | waiting =>
      simp only [TreeSys.act, place, reduceCtorEq] at act
  | forkRun i =>
    cases place : (s.proc i).place with
    | linked n =>
      simp only [TreeSys.act, place] at act
      obtain ⟨-, same⟩ := Option.ite_none_right_eq_some.mp act
      cases same
      refine Mild.trans ?_ (mild_at _ i _)
      exact mild_used .runnable rfl rfl (by decide)
    | user | forking n | waiting =>
      simp only [TreeSys.act, place, reduceCtorEq] at act
  | exit i =>
    obtain ⟨-, exits⟩ := Option.ite_none_right_eq_some.mp act
    exact mild_exit exits
  | wait i =>
    obtain ⟨-, same⟩ := Option.ite_none_right_eq_some.mp act
    cases same
    exact (waitLoop_turn i s).mild
  | kill pid => exact absurd rfl (other pid)

/-- The slot that `fork` takes keeps its mark. -/
theorem fork_slot (user : (s.proc i).place = .user) (place : ((s.fork i).proc i).place = .forking n) :
    s.unusedSlot = some n ∧ ((s.fork i).proc n).killed = (s.proc n).killed := by
  unfold fork at place ⊢
  cases found : s.unusedSlot with
  | none =>
    rw [unusedSlot] at found
    simp only [found, user, reduceCtorEq] at place
  | some m =>
    rw [unusedSlot] at found
    simp only [found, at_] at place ⊢
    rw [setProc_self] at place
    cases place
    refine ⟨rfl, ?_⟩
    by_cases here : n = i
    · subst here
      rw [setProc_self, setProc_self]
    · rw [setProc_of_ne here, setProc_self]

/-- `kill` marks a slot that has the pid. -/
theorem kill_marks {pid : UInt32} {j : Pslot} (killed : ((s.kill pid).proc j).killed = true) :
    (s.proc j).killed = true ∧ ((s.kill pid).proc j).state = (s.proc j).state ∨
      (s.proc j).pid = pid ∧ (((s.kill pid).proc j).state = .unused → (s.proc j).state = .unused) := by
  unfold kill at killed ⊢
  split at killed
  case h_1 => exact .inl ⟨killed, rfl⟩
  case h_2 k found =>
    have pid := List.find?_some found
    by_cases here : j = k
    · subst here
      refine .inr ⟨of_decide_eq_true pid, ?_⟩
      dsimp only
      rw [setProc_self]
      dsimp only
      split_ifs
      · exact fun unused => absurd unused (by decide)
      · exact id
    · dsimp only at killed ⊢
      rw [setProc_of_ne here] at killed ⊢
      exact .inl ⟨killed, rfl⟩

end TreeSys

/-! ## The invariant -/

namespace KillSys

variable {s t : KillSys}

/-- Only processes are marked, and only those that were named. -/
def Fair (s : KillSys) : Prop :=
  ∀ j, (s.tree.proc j).killed = true → (s.tree.proc j).state ≠ .unused ∧ s.named j = true

theorem unusedSlot_unused {s : TreeSys} {j : Pslot} (found : s.unusedSlot = some j) :
    (s.proc j).state = .unused :=
  of_decide_eq_true (List.find?_some (p := fun j => decide ((s.proc j).state = .unused)) found)

theorem Fair.step {a : KillAct} (fair : s.Fair) (careful : s.Careful a) (step : Step s a t) :
    t.Fair := by
  cases a with
  | trap i =>
    obtain ⟨⟨running, -⟩, same⟩ := Option.ite_none_right_eq_some.mp step
    cases same
    intro j killed
    by_cases here : j = i
    · subst here
      refine ⟨?_, Function.update_self ..⟩
      dsimp only [TreeSys.trap]
      rw [TreeSys.setProc_self]
      dsimp only
      rw [running]
      decide
    · dsimp only [TreeSys.trap] at killed ⊢
      rw [TreeSys.setProc_of_ne here] at killed ⊢
      exact ⟨(fair j killed).1, (Function.update_of_ne here ..).trans (fair j killed).2⟩
  | act a =>
    obtain ⟨tree, act, same⟩ := Option.map_eq_some_iff.mp step
    subst same
    intro j killed
    by_cases kills : ∃ pid, a = .kill pid
    · obtain ⟨pid, rfl⟩ := kills
      cases act
      rcases TreeSys.kill_marks killed with ⟨before, same⟩ | ⟨own, unused⟩
      · refine ⟨fun unused => (fair j before).1 (same ▸ unused), ?_⟩
        simp only [note, (fair j before).2, Bool.true_or]
      · have used : (s.tree.proc j).state ≠ .unused := fun h => careful j h own
        refine ⟨fun h => used (unused h), ?_⟩
        simp only [note, decide_eq_true used, decide_eq_true own, Bool.and_self, Bool.or_true]
    · have mild : TreeSys.Mild s.tree tree := by
        refine TreeSys.act_mild act (fun pid same => kills ⟨pid, same⟩) fun i n same place => ?_
        subst same
        exact careful n place
      obtain ⟨before, unused⟩ := mild j killed
      obtain ⟨used, named⟩ := fair j before
      refine ⟨fun h => used (unused h), ?_⟩
      cases a with
      | fork i =>
        have other : s.tree.unusedSlot ≠ some j := fun found => used (unusedSlot_unused found)
        simp only [note, named, decide_eq_false other, Bool.not_false, Bool.and_self]
      | kill pid => exact absurd ⟨pid, rfl⟩ kills
      | schedule => exact named
      | yield => exact named
      | sleep => exact named
      | wakeup => exact named
      | forkFail => exact named
      | forkLink => exact named
      | forkRun => exact named
      | exit => exact named
      | wait => exact named

theorem killReply_eq (s : TreeSys) (pid : UInt32) :
    s.killReply pid = 0 ↔ ∃ j, (s.proc j).pid = pid := by
  unfold TreeSys.killReply
  cases found : (List.finRange nproc).find? fun j => decide ((s.proc j).pid = pid) with
  | none =>
    refine ⟨fun h => absurd h (by decide), fun ⟨j, own⟩ => ?_⟩
    have none_ := List.find?_eq_none.mp found j (List.mem_finRange j)
    exact absurd (decide_eq_true own) none_
  | some j =>
    have own := List.find?_some found
    exact ⟨fun _ => ⟨j, of_decide_eq_true own⟩, fun _ => rfl⟩

/-- **`kill` hits only the process named**, as long as it is not called with the pid field of
an unused slot and no `fork` fails whose process was killed meanwhile: it returns 0 if and only
if there is a process with the pid, a process is marked only if it was named or has trapped
since it was made, and one that `fork` makes is not marked. -/
theorem kill_hits_named (run : Run Step Careful boot t) :
    (∀ pid, t.Careful (.act (.kill pid)) → (t.tree.killReply pid = 0 ↔
      ∃ j, (t.tree.proc j).state ≠ .unused ∧ (t.tree.proc j).pid = pid)) ∧
    (∀ j, (t.tree.proc j).killed = true → (t.tree.proc j).state ≠ .unused ∧ t.named j = true) ∧
    ∀ i u, t.tree.act (.fork i) = some u → ∀ n, (u.proc i).place = .forking n →
      (u.proc n).killed = false := by
  have fair : t.Fair := by
    refine run.invariant Fair (fun j killed => ?_) fun _ _ _ fair careful step =>
      fair.step careful step
    dsimp only [boot, TreeSys.boot] at killed
    split_ifs at killed
  refine ⟨fun pid careful => ?_, fair, fun i u act n place => ?_⟩
  · rw [killReply_eq]
    constructor
    · rintro ⟨j, own⟩
      exact ⟨j, fun unused => careful j unused own, own⟩
    · rintro ⟨j, -, own⟩
      exact ⟨j, own⟩
  · obtain ⟨⟨-, user⟩, same⟩ := Option.ite_none_right_eq_some.mp act
    cases same
    obtain ⟨found, mark⟩ := TreeSys.fork_slot user place
    rw [mark, ← Bool.not_eq_true]
    exact fun killed => (fair n killed).1 (unusedSlot_unused found)

instance (s : KillSys) : (a : KillAct) → Decidable (s.Careful a)
  | .act (.kill pid) => inferInstanceAs
      (Decidable (∀ j, (s.tree.proc j).state = .unused → (s.tree.proc j).pid ≠ pid))
  | .act (.forkFail i) => inferInstanceAs (Decidable
      (∀ n, (s.tree.proc i).place = .forking n → (s.tree.proc n).killed = false))
  | .act (.schedule _) | .act (.yield _) | .act (.sleep _ _) | .act (.wakeup _) | .act (.fork _)
  | .act (.forkLink _) | .act (.forkRun _) | .act (.exit _) | .act (.wait _) | .trap _ =>
    .isTrue trivial

/-- A child is made and killed by its pid. -/
theorem kill_hits_named_child : ∃ t, Run Step Careful boot t ∧
    ((t.tree.proc 1).killed = true ∧ (t.tree.proc 1).pid = 2 ∧ t.named 1 = true) ∧
    (∀ pid, t.Careful (.act (.kill pid)) → (t.tree.killReply pid = 0 ↔
      ∃ j, (t.tree.proc j).state ≠ .unused ∧ (t.tree.proc j).pid = pid)) ∧
    (∀ j, (t.tree.proc j).killed = true → (t.tree.proc j).state ≠ .unused ∧ t.named j = true) ∧
    ∀ i u, t.tree.act (.fork i) = some u → ∀ n, (u.proc i).place = .forking n →
      (u.proc n).killed = false := by
  obtain ⟨t, run, shape⟩ := Run.follow_any Step Careful
    (fun s a _ step => Option.ite_none_right_eq_some.mp step)
    (show (follow (fun s a => if s.Careful a then s.next a else none)
      [.act (.schedule 0), .act (.fork 0), .act (.forkLink 0), .act (.forkRun 0), .act (.kill 2)]
      boot).any (fun t => decide ((t.tree.proc 1).killed = true ∧ (t.tree.proc 1).pid = 2 ∧
        t.named 1 = true)) = true by decide +kernel)
  exact ⟨t, run, of_decide_eq_true shape, kill_hits_named run⟩

/-- `kill(0)` finds an unused slot and returns 0, and the process that gets the slot is marked
although it was never named. -/
theorem kill_marks_unborn : ∃ t, Run Step anyStep boot t ∧
    (TreeSys.boot.killReply 0 = 0 ∧
      ∀ j, (TreeSys.boot.proc j).state ≠ .unused → (TreeSys.boot.proc j).pid ≠ 0) ∧
    (t.tree.proc 1).state = .runnable ∧ (t.tree.proc 1).killed = true ∧ t.named 1 = false := by
  obtain ⟨t, run, shape⟩ := Run.follow_any Step anyStep (fun _ _ _ next => ⟨trivial, next⟩)
    (show (follow next [.act (.kill 0), .act (.schedule 0), .act (.fork 0), .act (.forkLink 0),
      .act (.forkRun 0)] boot).any (fun t => decide ((t.tree.proc 1).state = .runnable ∧
        (t.tree.proc 1).killed = true ∧ t.named 1 = false)) = true by decide +kernel)
  exact ⟨t, run, by decide +kernel, of_decide_eq_true shape⟩

end KillSys

end RandomRepo.Xv6

import RandomRepo.Xv6.ProcReap

/-!
# `showAncestry`

The loop prints the pid of a process and goes on to its parent, and it looks at the pid
of that one before it looks for a null pointer.  Every process descends from init, by
parents that are older than their children, so the loop gets to init and past it, unless
it has printed ten pids before.
-/

namespace RandomRepo.Xv6.TreeSys

/-- A pid is an `int`. -/
def asInt (w : UInt32) : Int :=
  if w.toNat < 2147483648 then w.toNat else w.toNat - 4294967296

/-- The loop with `n` turns to go; what it prints. -/
def ancestryLoop (s : TreeSys) : Nat → Option Pslot → Except Halt (List UInt32)
  | 0, _ => .ok []
  | _ + 1, none => .error .null
  | n + 1, some curproc =>
    if 1 ≤ asInt (s.proc curproc).pid then do
      let rest ← ancestryLoop s n (s.proc curproc).parent
      .ok ((s.proc curproc).pid :: rest)
    else .ok []

def showAncestry (s : TreeSys) (curproc : Pslot) : Except Halt (List UInt32) :=
  ancestryLoop s 10 (some curproc)

/-- The process, its parent and so on, up to init. -/
inductive Ancestors (s : TreeSys) : Pslot → List Pslot → Prop
  | init : Ancestors s initproc [initproc]
  | child {j p : Pslot} {js : List Pslot} (other : j ≠ initproc)
      (parent : (s.proc j).parent = some p) (rest : Ancestors s p js) : Ancestors s j (j :: js)

variable {s t : TreeSys} {i j n : Pslot} {js : List Pslot}

/-! ## Parents are older -/

/-- Who makes a child is older than the child. -/
structure Elders (s : TreeSys) : Prop where
  embryo : ∀ i n, (s.proc i).place.embryo = some n → (s.proc i).birth < (s.proc n).birth
  forks : ∀ f ∈ s.forks, f.parent < f.child

/-- No process is added. -/
theorem Elders.keep (elders : s.Elders) (birth : ∀ j, (t.proc j).birth = (s.proc j).birth)
    (place : ∀ i n, (t.proc i).place.embryo = some n → (s.proc i).place.embryo = some n)
    (forks : ∀ f ∈ t.forks, f.parent < f.child) : t.Elders := by
  refine ⟨fun i n works => ?_, forks⟩
  rw [birth, birth]
  exact elders.embryo i n (place i n works)

theorem Elders.shuffle (elders : s.Elders) (same : ∀ j, Shuffled (s.proc j) (t.proc j))
    (forks : t.forks = s.forks) : t.Elders := by
  refine elders.keep (fun j => (same j).birth) (fun i n works => ?_) (by rw [forks]; exact elders.forks)
  rcases (same i).place with place | ⟨-, none_, -⟩
  · rw [← place]
    exact works
  · rw [none_] at works
    cases works

/-- The process in slot `n` keeps its number, and `i` works on no other slot than before. -/
theorem Elders.swap {q : TreeProc} {x : TreePlace} (elders : s.Elders)
    (swapped : Swapped s i n q x t) (birth : q.birth = (s.proc n).birth)
    (quiet : q.place = (s.proc n).place)
    (works : ∀ m, x.embryo = some m → (s.proc i).place.embryo = some m)
    (forks : ∀ f ∈ t.forks, f.parent < f.child) : t.Elders := by
  refine elders.keep (fun j => ?_) (fun j m here => ?_) forks
  · by_cases slot : j = n
    · rw [slot, swapped.slot, birth]
    · exact swapped.birth slot
  · by_cases slot : j = n
    · rw [slot, swapped.slot, quiet] at here
      rw [slot]
      exact here
    · by_cases own : j = i
      · rw [own, swapped.own] at here
        rw [own]
        exact works m here
      · rw [swapped.others j slot own] at here
        exact here

/-- `allocproc` numbers the new process behind all the others. -/
theorem Elders.take {q : TreeProc} (elders : s.Elders) (tree : s.Tree)
    (swapped : Swapped s i n q (.forking n) t) (unused : (s.proc n).state = .unused)
    (older : (s.proc i).birth < q.birth) (quiet : q.place = (s.proc n).place)
    (forks : t.forks = s.forks) : t.Elders := by
  refine ⟨fun j m works => ?_, by rw [forks]; exact elders.forks⟩
  by_cases slot : j = n
  · rw [slot, swapped.slot, quiet, tree.idle_place (by rw [unused]; rfl)] at works
    cases works
  · rw [swapped.birth slot]
    by_cases own : j = i
    · rw [own, swapped.own] at works
      cases works
      rw [own, swapped.slot]
      exact older
    · rw [swapped.others j slot own] at works
      have other : m ≠ n := by
        rintro rfl
        exact tree.not_embryo (by rw [unused]; exact ProcState.noConfusion) j works
      rw [swapped.birth other]
      exact elders.embryo j m works

theorem Elders.acts (elders : s.Elders) (tree : s.Tree) (record : s.Record) (acts : Acts s t) :
    t.Elders := by
  cases acts with
  | roused chan => exact elders.shuffle (fun j => rouse_shuffled chan _) rfl
  | shuffled i p mine awake => exact elders.shuffle (shuffled_update mine) rfl
  | taken i n running place unused =>
    have distinct : i ≠ n := ne_of_active (by rw [running]; rfl) (by rw [unused]; rfl)
    have older := (record.born i (by rw [running]; exact ProcState.noConfusion)).1
    exact elders.take tree (swapped_at distinct rfl) unused older rfl rfl
  | failed i n running place =>
    obtain ⟨embryo, -⟩ := tree.forking i n place
    have distinct : i ≠ n := ne_of_active (by rw [running]; rfl) (by rw [embryo]; rfl)
    exact elders.swap (swapped_at distinct rfl) rfl rfl (fun m none_ => by cases none_) elders.forks
  | linked i n running place =>
    obtain ⟨embryo, -⟩ := tree.forking i n place
    have distinct : i ≠ n := ne_of_active (by rw [running]; rfl) (by rw [embryo]; rfl)
    refine elders.swap (swapped_at distinct rfl) rfl rfl (fun m works => ?_) elders.forks
    rw [place]
    exact works
  | started i n running place =>
    obtain ⟨embryo, -⟩ := tree.linked i n place
    have distinct : i ≠ n := ne_of_active (by rw [running]; rfl) (by rw [embryo]; rfl)
    refine elders.swap (swapped_at distinct rfl) rfl rfl (fun m none_ => by cases none_) ?_
    intro f member
    rcases List.mem_cons.mp member with rfl | member
    · exact elders.embryo i n (by rw [place]; rfl)
    · exact elders.forks f member
  | exited i running place notInit _ exited =>
    refine elders.keep exited.birth (fun j m works => ?_) (by rw [exited.forks]; exact elders.forks)
    rw [← exited.place]
    exact works
  | waited i running idle _ turn =>
    have active : (s.proc i).state.active = true := by
      rw [running]
      rfl
    cases turn with
    | reaped c child zombie =>
      have distinct : i ≠ c := ne_of_active active (by rw [zombie]; rfl)
      exact elders.swap (swapped_at distinct rfl) rfl rfl (fun m none_ => by cases none_)
        elders.forks
    | returns =>
      exact elders.shuffle (shuffled_update ⟨rfl, rfl, rfl, .inl rfl, .inr ⟨idle, rfl, active⟩⟩)
        rfl
    | sleeps none_ =>
      exact elders.shuffle (shuffled_update
        ⟨rfl, rfl, rfl, .inr ⟨active, rfl⟩, .inr ⟨idle, rfl, rfl⟩⟩) rfl

theorem elders_boot : boot.Elders := by
  refine ⟨fun i n works => ?_, fun f none_ => by cases none_⟩
  rw [boot_place] at works
  cases works

theorem elders (run : Run Step anyStep boot s) : s.Elders := by
  refine (Run.invariant run (fun s => s.Tree ∧ s.Record ∧ s.Elders)
    ⟨tree_boot, record_boot, elders_boot⟩ ?_).2.2
  intro s a t inv _ step
  have acts := step.acts
  clear step
  induction acts with
  | refl => exact inv
  | tail _ act ih => exact ⟨ih.1.acts act, ih.2.1.acts ih.1 act, ih.2.2.acts ih.1 ih.2.1 act⟩

/-- A parent has a smaller number than its child. -/
theorem Elders.parent (elders : s.Elders) (record : s.Record) (tree : s.Tree) {p : Pslot}
    (other : j ≠ initproc) (used : (s.proc j).state ≠ .unused) (born : (s.proc j).state ≠ .embryo)
    (parent : (s.proc j).parent = some p) : (s.proc p).birth < (s.proc j).birth := by
  obtain ⟨f, member, child, p', parent', from_⟩ := record.origin j other used born
  rw [parent] at parent'
  cases parent'
  have less := elders.forks f member
  rcases from_ with same | ⟨rfl, -⟩
  · rw [← same, ← child]
    exact less
  · -- init has number 1, and no other process has it
    have apart : (s.proc j).birth ≠ (s.proc initproc).birth := by
      intro same
      refine other (record.distinct j initproc used ?_ same)
      intro unused
      have active := tree.init
      rw [unused] at active
      cases active
    rw [record.init] at apart ⊢
    omega

/-! ## The chain of ancestors -/

theorem ancestors_exist (elders : s.Elders) (record : s.Record) (tree : s.Tree)
    (active : (s.proc j).state.active = true) : ∃ js, s.Ancestors j js := by
  induction number : (s.proc j).birth using Nat.strongRecOn generalizing j with
  | _ number' ih =>
    subst number
    by_cases first : j = initproc
    · rw [first]
      exact ⟨_, .init⟩
    · have used : (s.proc j).state ≠ .unused := by
        intro unused
        rw [unused] at active
        cases active
      have born : (s.proc j).state ≠ .embryo := by
        intro embryo
        rw [embryo] at active
        cases active
      obtain ⟨p, parent, alive⟩ := tree.parent j first used born
      obtain ⟨js, rest⟩ := ih _ (elders.parent record tree first used born parent) alive rfl
      exact ⟨j :: js, .child first parent rest⟩

/-- A turn at a process whose pid is not positive ends the loop. -/
theorem ancestryLoop_stop (stop : ¬ 1 ≤ asInt (s.proc j).pid) (n : Nat) :
    ancestryLoop s (n + 1) (some j) = .ok [] := by
  rw [ancestryLoop, if_neg stop]

theorem ancestryLoop_next (positive : 1 ≤ asInt (s.proc j).pid) (n : Nat) :
    ancestryLoop s (n + 1) (some j) = (ancestryLoop s n (s.proc j).parent >>= fun rest =>
      .ok ((s.proc j).pid :: rest)) := by
  rw [ancestryLoop, if_pos positive]

/-- The pids of the first `n` processes of the chain are printed exactly if the chain is as long
as that and they are all positive. -/
theorem ancestryLoop_iff (tree : s.Tree) (chain : s.Ancestors j js) (n : Nat) :
    ancestryLoop s n (some j) = .ok ((js.take n).map fun j => (s.proc j).pid) ↔
      n ≤ js.length ∧ ∀ j ∈ js.take n, 1 ≤ asInt (s.proc j).pid := by
  induction chain generalizing n with
  | init =>
    cases n with
    | zero => simp [ancestryLoop]
    | succ n =>
      by_cases positive : 1 ≤ asInt (s.proc initproc).pid
      · rw [ancestryLoop_next positive, tree.root]
        cases n with
        | zero => simp [ancestryLoop, positive, ok_bind]
        | succ n => simp [ancestryLoop, bind, Except.bind]
      · rw [ancestryLoop_stop positive]
        simp [positive]
  | @child j p js other parent rest ih =>
    cases n with
    | zero => simp [ancestryLoop]
    | succ n =>
      by_cases positive : 1 ≤ asInt (s.proc j).pid
      · have here : ancestryLoop s (n + 1) (some j) =
            .ok (((j :: js).take (n + 1)).map fun j => (s.proc j).pid) ↔
            ancestryLoop s n (some p) = .ok ((js.take n).map fun j => (s.proc j).pid) := by
          rw [ancestryLoop_next positive, parent, bind_ok_iff]
          constructor
          · rintro ⟨rest, found, same⟩
            cases same
            exact found
          · exact fun found => ⟨_, found, rfl⟩
        rw [here, ih, List.take_succ_cons, List.length_cons, List.forall_mem_cons]
        exact ⟨fun both => ⟨Nat.succ_le_succ both.1, positive, both.2⟩,
          fun both => ⟨Nat.le_of_succ_le_succ both.1, both.2.2⟩⟩
      · rw [ancestryLoop_stop positive]
        simp [positive]

/-- **`showAncestry`.**  In every reachable state, the chain from a running process to init exists,
and its first ten pids are printed exactly if it has ten processes and their pids are
positive. -/
theorem showAncestry_iff (run : Run Step anyStep boot s) (running : (s.proc j).state = .running) :
    (∃ js, s.Ancestors j js) ∧ ∀ js, s.Ancestors j js →
      (showAncestry s j = .ok ((js.take 10).map fun j => (s.proc j).pid) ↔
        10 ≤ js.length ∧ ∀ j ∈ js.take 10, 1 ≤ asInt (s.proc j).pid) := by
  obtain ⟨tree, record⟩ := reachable run
  refine ⟨ancestors_exist (elders run) record tree (by rw [running]; rfl), fun js chain => ?_⟩
  exact ancestryLoop_iff tree chain 10

/-- Each process forks, and its child runs next. -/
def tenProcesses : List TreeAct :=
  ([0, 1, 2, 3, 4, 5, 6, 7, 8] : List Pslot).flatMap (fun i =>
    [.schedule i, .fork i, .forkLink i, .forkRun i]) ++ [.schedule 9]

theorem showAncestry_ten : ∃ s, Run Step anyStep boot s ∧ (s.proc 9).state = .running ∧
    showAncestry s 9 = .ok [10, 9, 8, 7, 6, 5, 4, 3, 2, 1] := by
  have steps : (follow act tenProcesses boot).any (fun s => decide ((s.proc 9).state = .running ∧
      (∀ i ∈ ([0, 1, 2, 3, 4, 5, 6, 7, 8] : List Pslot), (s.proc (i + 1)).parent = some i) ∧
      ([9, 8, 7, 6, 5, 4, 3, 2, 1, 0] : List Pslot).map (fun j => (s.proc j).pid) =
        [10, 9, 8, 7, 6, 5, 4, 3, 2, 1] ∧
      ∀ j ∈ ([9, 8, 7, 6, 5, 4, 3, 2, 1, 0] : List Pslot), 1 ≤ asInt (s.proc j).pid)) = true := by
    decide +kernel
  obtain ⟨s, run, shape⟩ := Run.follow_any Step anyStep (fun _ _ _ h => ⟨trivial, h⟩) steps
  obtain ⟨running, parents, pids, positive⟩ := of_decide_eq_true shape
  have link : ∀ i : Pslot, i ∈ ([0, 1, 2, 3, 4, 5, 6, 7, 8] : List Pslot) → ∀ {js},
      s.Ancestors i js → s.Ancestors (i + 1) ((i + 1) :: js) := by
    intro i member js rest
    have other : ∀ i ∈ ([0, 1, 2, 3, 4, 5, 6, 7, 8] : List Pslot), i + 1 ≠ initproc := by decide
    exact .child (other i member) (parents i member) rest
  have chain : s.Ancestors 9 [9, 8, 7, 6, 5, 4, 3, 2, 1, 0] :=
    link 8 (by decide) (link 7 (by decide) (link 6 (by decide) (link 5 (by decide)
      (link 4 (by decide) (link 3 (by decide) (link 2 (by decide) (link 1 (by decide)
        (link 0 (by decide) .init))))))))
  refine ⟨s, run, running, ?_⟩
  rw [((showAncestry_iff run running).2 _ chain).mpr ⟨by decide, positive⟩]
  exact congrArg Except.ok pids

/-- Init follows its null parent pointer. -/
theorem showAncestry_null : ∃ s, Run Step anyStep boot s ∧ (s.proc 0).state = .running ∧
    s.Ancestors 0 [0] ∧ showAncestry s 0 = .error .null := by
  have steps : (follow act [.schedule 0] boot).any (fun s => decide ((s.proc 0).state = .running ∧
      1 ≤ asInt (s.proc 0).pid ∧ (s.proc 0).parent = none)) = true := by
    decide +kernel
  obtain ⟨s, run, shape⟩ := Run.follow_any Step anyStep (fun _ _ _ h => ⟨trivial, h⟩) steps
  obtain ⟨running, positive, parent⟩ := of_decide_eq_true shape
  refine ⟨s, run, running, .init, ?_⟩
  rw [showAncestry, ancestryLoop_next positive, parent]
  rfl

end RandomRepo.Xv6.TreeSys

import RandomRepo.Xv6.ProcTreeInv

/-!
# Reaping

What `fork`, `exit` and `wait` have returned, and how the process table stands to it.
Every process that is alive or waits to be reaped comes from one `fork` by its
parent, or by a process that has exited if its parent is init; and a process that has been
reaped is not in the table any more.
-/

namespace RandomRepo.Xv6.TreeSys

variable {s t : TreeSys} {i j n : Pslot}

/-- The process comes from the `fork`, and has the parent that it should have. -/
def Origin (s : TreeSys) (j : Pslot) (f : Forked) : Prop :=
  f.child = (s.proc j).birth ∧ ∃ p, (s.proc j).parent = some p ∧
    (f.parent = (s.proc p).birth ∨ (p = initproc ∧ f.parent ∈ s.exits))

/-- The `wait` has reaped the child of the `fork`, by its parent or, if that has exited, by
init. -/
def Answers (exits : List Nat) (f : Forked) (w : Reaped) : Prop :=
  f.child = w.child ∧ f.pid = w.pid ∧
    (w.reaper = f.parent ∨ (w.reaper = 1 ∧ f.parent ∈ exits))

structure Record (s : TreeSys) : Prop where
  init : (s.proc initproc).birth = 1
  born : ∀ j, (s.proc j).state ≠ .unused →
    (s.proc j).birth < s.nextpid ∧ (s.proc j).pid = .ofNat (s.proc j).birth
  distinct : ∀ j k, (s.proc j).state ≠ .unused → (s.proc k).state ≠ .unused →
    (s.proc j).birth = (s.proc k).birth → j = k
  forks : ∀ f ∈ s.forks, f.child < s.nextpid ∧ f.pid = .ofNat f.child
  once : (s.forks.map Forked.child).Nodup
  embryo : ∀ j, (s.proc j).state = .embryo → ∀ f ∈ s.forks, f.child ≠ (s.proc j).birth
  origin : ∀ j, j ≠ initproc → (s.proc j).state ≠ .unused → (s.proc j).state ≠ .embryo →
    ∃ f ∈ s.forks, s.Origin j f
  waits : ∀ w ∈ s.waits, ∃ f ∈ s.forks, Answers s.exits f w
  reaped : (s.waits.map Reaped.child).Nodup
  gone : ∀ w ∈ s.waits, ∀ j, (s.proc j).state ≠ .unused → w.child ≠ (s.proc j).birth

/-- No process is added and nothing is returned. -/
theorem Record.keep (record : s.Record) (init : (t.proc initproc).state ≠ .unused)
    (used : ∀ j, (t.proc j).state ≠ .unused → (s.proc j).state ≠ .unused ∧
      (t.proc j).birth = (s.proc j).birth ∧ (t.proc j).pid = (s.proc j).pid)
    (embryo : ∀ j, (t.proc j).state = .embryo → (s.proc j).state = .embryo)
    (origin : ∀ j, j ≠ initproc → (t.proc j).state ≠ .unused → (t.proc j).state ≠ .embryo →
      ∃ f ∈ s.forks, t.Origin j f)
    (nextpid : t.nextpid = s.nextpid) (forks : t.forks = s.forks) (waits : t.waits = s.waits)
    (exits : ∀ b ∈ s.exits, b ∈ t.exits) : t.Record := by
  refine ⟨?_, fun j h => ?_, fun j k hj hk => ?_, ?_, ?_, fun j h => ?_, fun j other h born => ?_,
    fun w member => ?_, ?_, fun w member j h => ?_⟩
  · rw [(used _ init).2.1]
    exact record.init
  · obtain ⟨before, birth, pid⟩ := used j h
    rw [birth, pid, nextpid]
    exact record.born j before
  · rw [(used j hj).2.1, (used k hk).2.1]
    exact record.distinct j k (used j hj).1 (used k hk).1
  · rw [forks, nextpid]
    exact record.forks
  · rw [forks]
    exact record.once
  · rw [forks, (used j (by rw [h]; exact nofun)).2.1]
    exact record.embryo j (embryo j h)
  · rw [forks]
    exact origin j other h born
  · rw [waits] at member
    obtain ⟨f, forked, child, pid, who⟩ := record.waits w member
    exact ⟨f, forks ▸ forked, child, pid, who.imp_right fun h => ⟨h.1, exits _ h.2⟩⟩
  · rw [waits]
    exact record.reaped
  · rw [waits] at member
    rw [(used j h).2.1]
    exact record.gone w member j (used j h).1

/-- Scheduling changes nothing that is recorded. -/
theorem Record.shuffle (record : s.Record) (tree : s.Tree)
    (same : ∀ j, Shuffled (s.proc j) (t.proc j)) (nextpid : t.nextpid = s.nextpid)
    (forks : t.forks = s.forks) (exits : t.exits = s.exits) (waits : t.waits = s.waits) :
    t.Record := by
  have state : ∀ {j x}, x.active = false → (t.proc j).state ≠ x → (s.proc j).state ≠ x :=
    fun inactive h before => h (((same _).inactive inactive).mpr before)
  refine record.keep (fun h => ?_) (fun j used => ⟨state rfl used, (same j).birth, (same j).pid⟩)
    (fun j => ((same j).inactive rfl).mp) (fun j other used born => ?_) nextpid forks waits
    fun b member => exits ▸ member
  · have active := tree.init
    rw [((same _).inactive rfl).mp h] at active
    cases active
  · obtain ⟨f, member, child, p, parent, from_⟩ :=
      record.origin j other (state rfl used) (state rfl born)
    refine ⟨f, member, child.trans (same j).birth.symm, p, (same j).parent.trans parent, ?_⟩
    rw [(same p).birth, exits]
    exact from_

/-! ## A slot changes hands -/

section Swap

variable {q : TreeProc} {x : TreePlace}

theorem Swapped.birth (swapped : Swapped s i n q x t) (h : j ≠ n) :
    (t.proc j).birth = (s.proc j).birth := by
  by_cases here : j = i
  · subst here
    rw [swapped.own]
  · rw [swapped.others j h here]

theorem Swapped.pid (swapped : Swapped s i n q x t) (h : j ≠ n) :
    (t.proc j).pid = (s.proc j).pid := by
  by_cases here : j = i
  · subst here
    rw [swapped.own]
  · rw [swapped.others j h here]

/-- The processes in the other slots have the origin that they had: their parents are alive, so the
slot is none of them. -/
theorem Record.origin_swap (record : s.Record) (tree : s.Tree) (swapped : Swapped s i n q x t)
    (inactive : (s.proc n).state.active = false) (exits : t.exits = s.exits) (h : j ≠ n)
    (other : j ≠ initproc) (used : (t.proc j).state ≠ .unused)
    (born : (t.proc j).state ≠ .embryo) : ∃ f ∈ s.forks, t.Origin j f := by
  rw [swapped.state h] at used born
  obtain ⟨f, member, child, p, parent, from_⟩ := record.origin j other used born
  obtain ⟨p', parent', active⟩ := tree.parent j other used born
  cases Option.some.inj (parent.symm.trans parent')
  refine ⟨f, member, child.trans (swapped.birth h).symm, p, (swapped.parent h).trans parent, ?_⟩
  rw [swapped.birth (ne_of_active active inactive), exits]
  exact from_

/-- The slot is taken for a new process. -/
theorem Record.take (record : s.Record) (tree : s.Tree) (swapped : Swapped s i n q x t)
    (unused : (s.proc n).state = .unused) (state : q.state = .embryo)
    (birth : q.birth = s.nextpid) (pid : q.pid = .ofNat s.nextpid)
    (nextpid : t.nextpid = s.nextpid + 1) (forks : t.forks = s.forks) (exits : t.exits = s.exits)
    (waits : t.waits = s.waits) : t.Record := by
  have inactive : (s.proc n).state.active = false := by
    rw [unused]
    rfl
  have old : ∀ {j}, j ≠ n → (t.proc j).state ≠ .unused → (t.proc j).birth < s.nextpid := by
    intro j h used
    rw [swapped.state h] at used
    rw [swapped.birth h]
    exact (record.born j used).1
  have new : (t.proc n).birth = s.nextpid := by
    rw [swapped.slot, birth]
  refine ⟨?_, fun j used => ?_, fun j k hj hk same => ?_, fun f member => ?_, ?_,
    fun j embryo f member => ?_, fun j other used born => ?_, ?_, ?_, fun w member j used => ?_⟩
  · rw [swapped.birth (ne_of_active tree.init inactive)]
    exact record.init
  · by_cases here : j = n
    · subst here
      rw [new, swapped.slot, nextpid]
      exact ⟨Nat.lt_succ_self _, pid⟩
    · refine ⟨nextpid ▸ Nat.lt_succ_of_lt (old here used), ?_⟩
      rw [swapped.state here] at used
      rw [swapped.pid here, swapped.birth here]
      exact (record.born j used).2
  · by_cases hjn : j = n
    · by_cases hkn : k = n
      · rw [hjn, hkn]
      · rw [hjn, new] at same
        exact absurd same.symm (Nat.ne_of_lt (old hkn hk))
    · by_cases hkn : k = n
      · rw [hkn, new] at same
        exact absurd same (Nat.ne_of_lt (old hjn hj))
      · rw [swapped.state hjn] at hj
        rw [swapped.state hkn] at hk
        rw [swapped.birth hjn, swapped.birth hkn] at same
        exact record.distinct j k hj hk same
  · rw [forks] at member
    obtain ⟨bound, numbered⟩ := record.forks f member
    exact ⟨nextpid ▸ Nat.lt_succ_of_lt bound, numbered⟩
  · rw [forks]
    exact record.once
  · rw [forks] at member
    by_cases here : j = n
    · subst here
      rw [new]
      exact Nat.ne_of_lt (record.forks f member).1
    · rw [swapped.state here] at embryo
      rw [swapped.birth here]
      exact record.embryo j embryo f member
  · have here : j ≠ n := by
      rintro rfl
      rw [swapped.slot] at born
      exact born state
    rw [forks]
    exact record.origin_swap tree swapped inactive exits here other used born
  · rw [waits, forks, exits]
    exact record.waits
  · rw [waits]
    exact record.reaped
  · rw [waits] at member
    by_cases here : j = n
    · subst here
      obtain ⟨f, forked, child, -⟩ := record.waits w member
      rw [new, ← child]
      exact Nat.ne_of_lt (record.forks f forked).1
    · rw [swapped.state here] at used
      rw [swapped.birth here]
      exact record.gone w member j used

/-- The slot is given up, or stays an embryo. -/
theorem Record.swap (record : s.Record) (tree : s.Tree) (swapped : Swapped s i n q x t)
    (inactive : (s.proc n).state.active = false)
    (state : q.state = .unused ∨ ((s.proc n).state = .embryo ∧ q.state = .embryo ∧
      q.birth = (s.proc n).birth ∧ q.pid = (s.proc n).pid))
    (nextpid : t.nextpid = s.nextpid) (forks : t.forks = s.forks) (exits : t.exits = s.exits)
    (waits : t.waits = s.waits) : t.Record := by
  have notInit : initproc ≠ n := ne_of_active tree.init inactive
  refine record.keep (fun h => ?_) (fun j used => ?_) (fun j embryo => ?_)
    (fun j other used born => ?_) nextpid forks waits fun b member => exits ▸ member
  · have active := tree.init
    rw [← swapped.state notInit, h] at active
    cases active
  · by_cases here : j = n
    · subst here
      rw [swapped.slot] at used ⊢
      rcases state with free | ⟨embryo, -, birth, pid⟩
      · exact absurd free used
      · exact ⟨by rw [embryo]; exact nofun, birth, pid⟩
    · rw [swapped.state here] at used
      exact ⟨used, swapped.birth here, swapped.pid here⟩
  · by_cases here : j = n
    · subst here
      rw [swapped.slot] at embryo
      rcases state with free | ⟨before, -⟩
      · rw [free] at embryo
        cases embryo
      · exact before
    · exact (swapped.state here).symm.trans embryo
  · have here : j ≠ n := by
      rintro rfl
      rw [swapped.slot] at used born
      rcases state with free | ⟨-, embryo, -⟩
      · exact used free
      · exact born embryo
    exact record.origin_swap tree swapped inactive exits here other used born

/-- The child is started, and its pid is returned. -/
theorem Record.start (record : s.Record) (tree : s.Tree) (swapped : Swapped s i n q x t)
    (embryo : (s.proc n).state = .embryo) (state : q.state = .runnable)
    (parent : q.parent = some i) (birth : q.birth = (s.proc n).birth)
    (pid : q.pid = (s.proc n).pid) (nextpid : t.nextpid = s.nextpid)
    (forks : t.forks = ⟨(s.proc n).birth, (s.proc n).pid, (s.proc i).birth⟩ :: s.forks)
    (exits : t.exits = s.exits) (waits : t.waits = s.waits) : t.Record := by
  have inactive : (s.proc n).state.active = false := by
    rw [embryo]
    rfl
  have used : (s.proc n).state ≠ .unused := by
    rw [embryo]
    exact nofun
  have births : ∀ j, (t.proc j).birth = (s.proc j).birth := by
    intro j
    by_cases here : j = n
    · rw [here, swapped.slot, birth]
    · exact swapped.birth here
  have before : ∀ j, (t.proc j).state ≠ .unused → (s.proc j).state ≠ .unused := by
    intro j h
    by_cases here : j = n
    · rw [here]
      exact used
    · rwa [swapped.state here] at h
  refine ⟨?_, fun j h => ?_, fun j k hj hk => ?_, ?_, ?_, fun j h => ?_, fun j other h born => ?_,
    fun w member => ?_, ?_, fun w member j h => ?_⟩
  · rw [births]
    exact record.init
  · rw [births, nextpid]
    refine ⟨(record.born j (before j h)).1, ?_⟩
    by_cases here : j = n
    · rw [here, swapped.slot, pid]
      exact (record.born n used).2
    · rw [swapped.pid here]
      exact (record.born j (before j h)).2
  · rw [births, births]
    exact record.distinct j k (before j hj) (before k hk)
  · rw [forks, nextpid]
    exact List.forall_mem_cons.mpr ⟨record.born n used, record.forks⟩
  · rw [forks, List.map_cons, List.nodup_cons]
    refine ⟨fun member => ?_, record.once⟩
    obtain ⟨f, forked, child⟩ := List.mem_map.mp member
    exact record.embryo n embryo f forked child
  · have here : j ≠ n := by
      rintro rfl
      rw [swapped.slot, state] at h
      cases h
    rw [swapped.state here] at h
    rw [forks, births]
    refine List.forall_mem_cons.mpr ⟨fun same => here ?_, record.embryo j h⟩
    exact (record.distinct n j used (by rw [h]; exact nofun) same).symm
  · rw [forks]
    by_cases here : j = n
    · refine ⟨_, List.mem_cons_self, ?_⟩
      subst here
      exact ⟨(births j).symm, i, by rw [swapped.slot, parent], .inl (births i).symm⟩
    · obtain ⟨f, member, from_⟩ :=
        record.origin_swap tree swapped inactive exits here other h born
      exact ⟨f, List.mem_cons_of_mem _ member, from_⟩
  · rw [waits] at member
    obtain ⟨f, forked, answers⟩ := record.waits w member
    exact ⟨f, forks ▸ List.mem_cons_of_mem _ forked, exits ▸ answers⟩
  · rw [waits]
    exact record.reaped
  · rw [waits] at member
    rw [births]
    exact record.gone w member j (before j h)

end Swap

/-! ## `wait` and `exit` -/

/-- A pid is returned by `wait`. -/
theorem Record.push {w : Reaped} (record : s.Record)
    (answered : ∃ f ∈ s.forks, Answers s.exits f w)
    (absent : ∀ j, (s.proc j).state ≠ .unused → w.child ≠ (s.proc j).birth)
    (fresh : ∀ v ∈ s.waits, v.child ≠ w.child) : Record { s with waits := w :: s.waits } := by
  refine ⟨record.init, record.born, record.distinct, record.forks, record.once, record.embryo,
    record.origin, ?_, ?_, ?_⟩
  · exact List.forall_mem_cons.mpr ⟨answered, record.waits⟩
  · rw [List.map_cons, List.nodup_cons]
    refine ⟨fun member => ?_, record.reaped⟩
    obtain ⟨v, old, child⟩ := List.mem_map.mp member
    exact fresh v old child
  · exact List.forall_mem_cons.mpr ⟨absent, record.gone⟩

theorem Record.exit (record : s.Record) (tree : s.Tree) (exited : Exited s i t)
    (notInit : i ≠ initproc) (running : (s.proc i).state = .running) : t.Record := by
  have before : ∀ {j x}, x.active = false → x ≠ .zombie → (t.proc j).state ≠ x →
      (s.proc j).state ≠ x := by
    intro j x inactive _ h
    by_cases here : j = i
    · rw [here, running]
      rintro rfl
      cases inactive
    · exact fun was => h ((exited.inactive here inactive).mpr was)
  refine record.keep (fun h => ?_)
    (fun j used => ⟨before rfl nofun used, exited.birth j, exited.pid j⟩) (fun j h => ?_)
    (fun j other used born => ?_) exited.nextpid exited.forks exited.waits fun b member => ?_
  · have active := tree.init
    rw [← exited.active notInit.symm, h] at active
    cases active
  · have here : j ≠ i := by
      rintro rfl
      rw [exited.zombie] at h
      cases h
    exact (exited.inactive here rfl).mp h
  · obtain ⟨f, member, child, p, parent, from_⟩ :=
      record.origin j other (before rfl nofun used) (before rfl nofun born)
    refine ⟨f, member, child.trans (exited.birth j).symm, ?_⟩
    rw [exited.parent, exited.exits]
    by_cases abandoned : (s.proc j).parent = some i
    · rw [if_pos abandoned]
      refine ⟨initproc, rfl, .inr ⟨rfl, ?_⟩⟩
      cases Option.some.inj (parent.symm.trans abandoned)
      rcases from_ with own | ⟨isInit, -⟩
      · rw [own]
        exact List.mem_cons_self
      · exact absurd isInit notInit
    · rw [if_neg abandoned]
      refine ⟨p, parent, ?_⟩
      rw [exited.birth]
      exact from_.imp_right fun h => ⟨h.1, List.mem_cons_of_mem _ h.2⟩
  · rw [exited.exits]
    exact List.mem_cons_of_mem _ member

theorem Record.waitTurn (record : s.Record) (tree : s.Tree)
    (running : (s.proc i).state = .running) (idle : (s.proc i).place.embryo = none)
    (turn : WaitTurn s i t) : t.Record := by
  cases turn with
  | returns =>
    exact record.shuffle tree (shuffled_update
      ⟨rfl, rfl, rfl, .inl rfl, .inr ⟨idle, rfl, by rw [running]; rfl⟩⟩) rfl rfl rfl rfl
  | sleeps none_ =>
    exact record.shuffle tree (shuffled_update
      ⟨rfl, rfl, rfl, .inr ⟨by rw [running]; rfl, rfl⟩, .inr ⟨idle, rfl, rfl⟩⟩) rfl rfl rfl rfl
  | reaped c child zombie =>
    have used : (s.proc c).state ≠ .unused := by
      rw [zombie]
      exact nofun
    have inactive : (s.proc c).state.active = false := by
      rw [zombie]
      rfl
    have active : (s.proc i).state.active = true := by
      rw [running]
      rfl
    have swapped : Swapped s i c
        { s.proc c with pid := 0, parent := none, killed := false, state := .unused } .user
        ((s.setProc c
          { s.proc c with pid := 0, parent := none, killed := false, state := .unused }).at_ i
            .user) := swapped_at (ne_of_active active inactive) rfl
    refine (record.swap tree swapped inactive (.inl rfl) rfl rfl rfl rfl).push
      (w := ⟨(s.proc c).birth, (s.proc c).pid, (s.proc i).birth⟩) ?_ (fun j h => ?_)
      fun v old => record.gone v old c used
    · obtain ⟨f, forked, born, p, parent, from_⟩ := record.origin c
        (ne_of_active tree.init inactive).symm used (by rw [zombie]; exact nofun)
      cases Option.some.inj (parent.symm.trans child)
      refine ⟨f, forked, born, ?_, ?_⟩
      · rw [(record.forks f forked).2, born, (record.born c used).2]
      · rcases from_ with own | ⟨rfl, gone⟩
        · exact .inl own.symm
        · exact .inr ⟨record.init, gone⟩
    · have here : j ≠ c := by
        rintro rfl
        rw [swapped.slot] at h
        exact h rfl
      rw [swapped.state here] at h
      rw [swapped.birth here]
      exact fun same => here (record.distinct c j used h same).symm

theorem Record.acts (record : s.Record) (tree : s.Tree) (acts : Acts s t) : t.Record := by
  cases acts with
  | roused chan => exact record.shuffle tree (fun j => rouse_shuffled chan _) rfl rfl rfl rfl
  | shuffled i p mine awake => exact record.shuffle tree (shuffled_update mine) rfl rfl rfl rfl
  | taken i n running place unused =>
    have distinct : i ≠ n := ne_of_active (by rw [running]; rfl) (by rw [unused]; rfl)
    exact record.take tree (swapped_at distinct rfl) unused rfl rfl rfl rfl rfl rfl rfl
  | failed i n running place =>
    obtain ⟨embryo, -⟩ := tree.forking i n place
    have inactive : (s.proc n).state.active = false := by
      rw [embryo]
      rfl
    exact record.swap tree (swapped_at (ne_of_active (by rw [running]; rfl) inactive) rfl) inactive
      (.inl rfl) rfl rfl rfl rfl
  | linked i n running place =>
    obtain ⟨embryo, -⟩ := tree.forking i n place
    have inactive : (s.proc n).state.active = false := by
      rw [embryo]
      rfl
    exact record.swap tree (swapped_at (ne_of_active (by rw [running]; rfl) inactive) rfl) inactive
      (.inr ⟨embryo, embryo, rfl, rfl⟩) rfl rfl rfl rfl
  | started i n running place =>
    obtain ⟨embryo, parent⟩ := tree.linked i n place
    have active : (s.proc i).state.active = true := by
      rw [running]
      rfl
    exact record.start tree (swapped_at (ne_of_active active (by rw [embryo]; rfl)) rfl) embryo
      rfl parent rfl rfl rfl rfl rfl rfl
  | exited i running place notInit _ exited => exact record.exit tree exited notInit running
  | waited i running idle _ turn => exact record.waitTurn tree running idle turn

/-! ## Runs -/

theorem boot_unused (h : j ≠ initproc) : boot.proc j = ⟨.unused, 0, none, none, false, .user, 0⟩ :=
  if_neg h

theorem boot_place (j : Pslot) : (boot.proc j).place = .user := by
  by_cases here : j = initproc
  · rw [here]
    rfl
  · rw [boot_unused here]

theorem tree_boot : boot.Tree := by
  refine ⟨rfl, rfl, fun j => ?_, fun j _ => ?_, fun j q h => ?_, fun j other used => ?_,
    fun j h => ?_, fun i n h => ?_, fun i n h => ?_, fun i j n h => ?_, fun p waits => ?_⟩
  · by_cases here : j = initproc
    · rw [here]
      exact nofun
    · rw [boot_unused here]
      exact nofun
  · by_cases here : j = initproc
    · rw [here]
      rfl
    · rw [boot_unused here]
  · by_cases here : j = initproc
    · rw [here] at h
      cases h
    · rw [boot_unused here] at h
      cases h
  · rw [boot_unused other] at used
    exact absurd rfl used
  · exact absurd (boot_place j) h
  · rw [boot_place] at h
    cases h
  · rw [boot_place] at h
    cases h
  · rw [boot_place] at h
    cases h
  · have := waits.1
    rw [boot_place] at this
    cases this

theorem record_boot : boot.Record := by
  have only : ∀ {j}, (boot.proc j).state ≠ .unused → j = initproc := by
    intro j used
    by_contra other
    rw [boot_unused other] at used
    exact used rfl
  refine ⟨rfl, fun j used => ?_, fun j k hj hk _ => ?_, nofun, .nil, fun _ _ => nofun,
    fun j other used => absurd (only used) other, nofun, .nil, nofun⟩
  · rw [only used]
    exact ⟨by decide, rfl⟩
  · rw [only hj, only hk]

theorem reachable (run : Run Step anyStep boot s) : s.Tree ∧ s.Record := by
  refine Run.invariant run (fun s => s.Tree ∧ s.Record) ⟨tree_boot, record_boot⟩ ?_
  intro s a t inv _ step
  have acts := step.acts
  clear step
  induction acts with
  | refl => exact inv
  | tail _ act ih => exact ⟨ih.1.acts act, ih.2.acts ih.1 act⟩

/-- **The process tree.**  Whenever `ptable.lock` is free: every process other than init has a parent
that is still there; no process sleeps in `wait` with an exited child; every process made by
`fork` is reaped at most once, and the pid that `wait` returns is the one that `fork` has
returned to the same parent, or to one that has exited if it is init that waits.  As long as
the pids have not wrapped around, no two calls of `wait` return the same one. -/
theorem process_tree (run : Run Step anyStep boot s) :
    (∀ j, j ≠ initproc → (s.proc j).state ≠ .unused → (s.proc j).state ≠ .embryo →
      ∃ p, (s.proc j).parent = some p ∧ (s.proc p).state ≠ .unused ∧
        (s.proc p).state ≠ .zombie) ∧
    (∀ p c, (s.proc p).place = .waiting → (s.proc p).state = .sleeping →
      (s.proc c).parent = some p → (s.proc c).state ≠ .zombie) ∧
    (s.forks.map Forked.child).Nodup ∧ (s.waits.map Reaped.child).Nodup ∧
    (∀ w ∈ s.waits, ∃ f ∈ s.forks, f.child = w.child ∧ f.pid = w.pid ∧
      (w.reaper = f.parent ∨ (w.reaper = (s.proc initproc).birth ∧ f.parent ∈ s.exits))) ∧
    (s.nextpid ≤ 2 ^ 32 → (s.waits.map Reaped.pid).Nodup) := by
  obtain ⟨tree, record⟩ := reachable run
  refine ⟨fun j other used born => ?_, fun p c place state => (tree.asleep p ⟨place, state⟩).2 c,
    record.once, record.reaped, ?_, fun small => ?_⟩
  · obtain ⟨p, parent, active⟩ := tree.parent j other used born
    refine ⟨p, parent, fun h => ?_, fun h => ?_⟩
    · rw [h] at active
      cases active
    · rw [h] at active
      cases active
  · rw [record.init]
    exact record.waits
  · have numbered : ∀ w ∈ s.waits, w.child < 2 ^ 32 ∧ w.pid = .ofNat w.child := by
      intro w member
      obtain ⟨f, forked, child, pid, -⟩ := record.waits w member
      obtain ⟨bound, number⟩ := record.forks f forked
      rw [← child, ← pid]
      exact ⟨Nat.lt_of_lt_of_le bound small, number⟩
    refine List.Nodup.map_on ?_ (List.Nodup.of_map _ record.reaped)
    intro v hv w hw same
    refine List.inj_on_of_nodup_map record.reaped hv hw ?_
    obtain ⟨boundV, pidV⟩ := numbered v hv
    obtain ⟨boundW, pidW⟩ := numbered w hw
    rw [pidV, pidW, ← UInt32.toNat_inj, UInt32.toNat_ofNat', UInt32.toNat_ofNat',
      Nat.mod_eq_of_lt boundV, Nat.mod_eq_of_lt boundW] at same
    exact same

/-- A child of init forks and exits; init reaps it, and then the grandchild. -/
theorem process_tree_orphan : ∃ s, Run Step anyStep boot s ∧
    s.waits = [⟨3, 3, 1⟩, ⟨2, 2, 1⟩] ∧ s.forks = [⟨3, 3, 2⟩, ⟨2, 2, 1⟩] ∧ 2 ∈ s.exits ∧
    (s.waits.map Reaped.pid).Nodup := by
  have steps : (follow act [.schedule 0, .fork 0, .forkLink 0, .forkRun 0, .schedule 1, .fork 1,
      .forkLink 1, .forkRun 1, .exit 1, .wait 0, .wait 0, .schedule 2, .exit 2, .schedule 0]
      boot).any (fun s => decide (s.waits = [⟨3, 3, 1⟩, ⟨2, 2, 1⟩] ∧
        s.forks = [⟨3, 3, 2⟩, ⟨2, 2, 1⟩] ∧ 2 ∈ s.exits ∧ s.nextpid ≤ 2 ^ 32)) = true := by
    decide +kernel
  obtain ⟨s, run, shape⟩ := Run.follow_any Step anyStep (fun _ _ _ h => ⟨trivial, h⟩) steps
  obtain ⟨waits, forks, exits, small⟩ := of_decide_eq_true shape
  obtain ⟨-, -, -, -, -, pids⟩ := process_tree run
  exact ⟨s, run, waits, forks, exits, pids small⟩

end RandomRepo.Xv6.TreeSys

import RandomRepo.Xv6.ProcTree

/-!
# Parents, sleepers and reaping

`Tree` is what holds of the process table whenever `ptable.lock` is free: every
process has a parent that is still there, and nobody sleeps in `wait` with an exited
child.  `Record` adds what the table has to do with the calls that have returned.
-/

namespace RandomRepo.Xv6

/-- A process that runs or will run again. -/
def ProcState.active : ProcState → Bool
  | .sleeping | .runnable | .running => true
  | _ => false

/-- The slot that the process is going to make a child of. -/
def TreePlace.embryo : TreePlace → Option Pslot
  | .forking n | .linked n => some n
  | _ => none

/-- The process sleeps inside of `wait`. -/
def TreeProc.Waits (p : TreeProc) : Prop := p.place = .waiting ∧ p.state = .sleeping

namespace TreeSys

variable {s t : TreeSys} {i j n : Pslot}

structure Tree (s : TreeSys) : Prop where
  init : (s.proc initproc).state.active = true
  root : (s.proc initproc).parent = none
  self : ∀ j, (s.proc j).parent ≠ some j
  unused : ∀ j, (s.proc j).state = .unused → (s.proc j).parent = none
  embryo : ∀ j q, (s.proc j).state = .embryo → (s.proc j).parent = some q →
    (s.proc q).place = .linked j
  parent : ∀ j, j ≠ initproc → (s.proc j).state ≠ .unused → (s.proc j).state ≠ .embryo →
    ∃ p, (s.proc j).parent = some p ∧ (s.proc p).state.active = true
  busy : ∀ j, (s.proc j).place ≠ .user → (s.proc j).state.active = true
  forking : ∀ i n, (s.proc i).place = .forking n →
    (s.proc n).state = .embryo ∧ (s.proc n).parent = none
  linked : ∀ i n, (s.proc i).place = .linked n →
    (s.proc n).state = .embryo ∧ (s.proc n).parent = some i
  single : ∀ i j n, (s.proc i).place.embryo = some n → (s.proc j).place.embryo = some n → i = j
  asleep : ∀ p, (s.proc p).Waits → (s.proc p).chan = some (.proc p) ∧
    ∀ c, (s.proc c).parent = some p → (s.proc c).state ≠ .zombie

/-! ## Scheduling -/

/-- A process goes from one state in which it is alive to another. -/
structure Shuffled (p q : TreeProc) : Prop where
  parent : q.parent = p.parent
  pid : q.pid = p.pid
  birth : q.birth = p.birth
  state : q.state = p.state ∨ (p.state.active = true ∧ q.state.active = true)
  place : q.place = p.place ∨
    (p.place.embryo = none ∧ q.place.embryo = none ∧ q.state.active = true)

theorem Shuffled.refl (p : TreeProc) : Shuffled p p :=
  ⟨rfl, rfl, rfl, .inl rfl, .inl rfl⟩

theorem Shuffled.active {p q : TreeProc} (same : Shuffled p q) :
    q.state.active = p.state.active := by
  rcases same.state with eq | ⟨hp, hq⟩
  · rw [eq]
  · rw [hp, hq]

theorem Shuffled.inactive {p q : TreeProc} (same : Shuffled p q) {x : ProcState}
    (inactive : x.active = false) : q.state = x ↔ p.state = x := by
  rcases same.state with eq | ⟨hp, hq⟩
  · rw [eq]
  · constructor
    · intro h
      rw [h, inactive] at hq
      cases hq
    · intro h
      rw [h, inactive] at hp
      cases hp

theorem Shuffled.embryo {p q : TreeProc} (same : Shuffled p q) :
    q.place.embryo = p.place.embryo := by
  rcases same.place with eq | ⟨hp, hq, -⟩
  · rw [eq]
  · rw [hp, hq]

theorem Shuffled.working {p q : TreeProc} (same : Shuffled p q) {x : TreePlace}
    (works : x.embryo = some n) : q.place = x ↔ p.place = x := by
  rcases same.place with eq | ⟨hp, hq, -⟩
  · rw [eq]
  · constructor
    · intro h
      rw [h, works] at hq
      cases hq
    · intro h
      rw [h, works] at hp
      cases hp

theorem Tree.shuffle (tree : s.Tree) (same : ∀ j, Shuffled (s.proc j) (t.proc j))
    (asleep : ∀ p, (t.proc p).Waits → (t.proc p).chan = some (.proc p) ∧
      ∀ c, (s.proc c).parent = some p → (s.proc c).state ≠ .zombie) : t.Tree where
  init := (same _).active.trans tree.init
  root := (same _).parent.trans tree.root
  self j h := tree.self j ((same j).parent.symm.trans h)
  unused j h := (same j).parent.trans (tree.unused j (((same j).inactive rfl).mp h))
  embryo j q h hp := by
    rw [(same j).parent] at hp
    exact ((same q).working rfl).mpr (tree.embryo j q (((same j).inactive rfl).mp h) hp)
  parent j other used born := by
    obtain ⟨p, parent, active⟩ := tree.parent j other
      (fun h => used (((same j).inactive rfl).mpr h))
      (fun h => born (((same j).inactive rfl).mpr h))
    exact ⟨p, (same j).parent.trans parent, (same p).active.trans active⟩
  busy j h := by
    rcases (same j).place with eq | ⟨-, -, active⟩
    · rw [eq] at h
      exact (same j).active.trans (tree.busy j h)
    · exact active
  forking i n h := by
    obtain ⟨embryo, parent⟩ := tree.forking i n (((same i).working rfl).mp h)
    exact ⟨((same n).inactive rfl).mpr embryo, (same n).parent.trans parent⟩
  linked i n h := by
    obtain ⟨embryo, parent⟩ := tree.linked i n (((same i).working rfl).mp h)
    exact ⟨((same n).inactive rfl).mpr embryo, (same n).parent.trans parent⟩
  single i j n hi hj := by
    rw [(same i).embryo] at hi
    rw [(same j).embryo] at hj
    exact tree.single i j n hi hj
  asleep p waits := by
    obtain ⟨chan, children⟩ := asleep p waits
    refine ⟨chan, fun c parent zombie => ?_⟩
    rw [(same c).parent] at parent
    exact children c parent (((same c).inactive rfl).mp zombie)

/-- One process is shuffled. -/
theorem shuffled_update {p : TreeProc} (mine : Shuffled (s.proc i) p) (j : Pslot) :
    Shuffled (s.proc j) ((s.setProc i p).proc j) := by
  by_cases here : j = i
  · subst here
    rwa [setProc_self]
  · rw [setProc_of_ne here]
    exact .refl _

theorem rouse_shuffled (chan : Option TreeChan) (p : TreeProc) : Shuffled p (rouse chan p) := by
  unfold rouse
  split_ifs with sleeps
  · exact ⟨rfl, rfl, rfl, .inr ⟨by rw [sleeps.1]; rfl, rfl⟩, .inl rfl⟩
  · exact .refl p

theorem rouse_waits {chan : Option TreeChan} {p : TreeProc} (waits : (rouse chan p).Waits) :
    p.Waits ∧ rouse chan p = p ∧ p.chan ≠ chan := by
  unfold rouse at waits ⊢
  split_ifs at waits ⊢ with sleeps
  · cases waits.2
  · exact ⟨waits, rfl, fun same => sleeps ⟨waits.2, same⟩⟩

theorem rouse_place (chan : Option TreeChan) (p : TreeProc) : (rouse chan p).place = p.place := by
  unfold rouse
  split_ifs <;> rfl

theorem rouse_chan (chan : Option TreeChan) (p : TreeProc) : (rouse chan p).chan = p.chan := by
  unfold rouse
  split_ifs <;> rfl

theorem rouse_state (chan : Option TreeChan) (p : TreeProc) :
    (rouse chan p).state = p.state ∨ (p.state = .sleeping ∧ (rouse chan p).state = .runnable) := by
  unfold rouse
  split_ifs with sleeps
  · exact .inr ⟨sleeps.1, rfl⟩
  · exact .inl rfl

theorem rouse_awake (chan : Option TreeChan) (p : TreeProc) :
    ¬ ((rouse chan p).state = .sleeping ∧ (rouse chan p).chan = chan) := by
  unfold rouse
  split_ifs with sleeps
  · rintro ⟨⟨⟩, -⟩
  · exact sleeps

theorem Tree.wakeup1 (tree : s.Tree) (chan : Option TreeChan) : (s.wakeup1 chan).Tree := by
  refine tree.shuffle (fun j => rouse_shuffled chan _) fun p waits => ?_
  obtain ⟨before, same, -⟩ := rouse_waits waits
  obtain ⟨mine, children⟩ := tree.asleep p before
  refine ⟨?_, children⟩
  show (rouse chan (s.proc p)).chan = _
  rw [same]
  exact mine

/-- One process is shuffled, and does not sleep in `wait` after it. -/
theorem Tree.shuffle_one {p : TreeProc} (tree : s.Tree) (mine : Shuffled (s.proc i) p)
    (awake : ¬ p.Waits) : (s.setProc i p).Tree := by
  refine tree.shuffle (shuffled_update mine) fun q waits => ?_
  by_cases here : q = i
  · subst here
    rw [setProc_self] at waits
    exact absurd waits awake
  · rw [setProc_of_ne here] at waits ⊢
    exact tree.asleep q waits

/-! ## A slot changes hands -/

theorem ne_of_active (active : (s.proc j).state.active = true)
    (inactive : (s.proc n).state.active = false) : j ≠ n := by
  rintro rfl
  rw [inactive] at active
  cases active

/-- What `fork` and `wait` do with a slot `n` in which no process runs, and with their own
place. -/
inductive Swaps (i n : Pslot) : TreeProc → TreePlace → Prop
  | taken {q : TreeProc} (state : q.state = .embryo) (parent : q.parent = none) :
      Swaps i n q (.forking n)
  | linked {q : TreeProc} (state : q.state = .embryo) (parent : q.parent = some i) :
      Swaps i n q (.linked n)
  | started {q : TreeProc} (state : q.state = .runnable) (parent : q.parent = some i) :
      Swaps i n q .user
  | freed {q : TreeProc} (state : q.state = .unused) (parent : q.parent = none) :
      Swaps i n q .user

theorem Swaps.not_zombie {q : TreeProc} {x : TreePlace} (swaps : Swaps i n q x) :
    q.state ≠ .zombie := by
  cases swaps with
  | taken state | linked state | started state | freed state =>
    rw [state]; exact nofun

theorem Swaps.not_waiting {q : TreeProc} {x : TreePlace} (swaps : Swaps i n q x) :
    x ≠ .waiting := by
  cases swaps <;> exact nofun

theorem Swaps.embryo {q : TreeProc} {x : TreePlace} (swaps : Swaps i n q x) {m : Pslot}
    (works : x.embryo = some m) : m = n := by
  cases swaps with
  | taken => exact (Option.some.inj works).symm
  | linked => exact (Option.some.inj works).symm
  | started => cases works
  | freed => cases works

/-- The two slots that change, and the others that do not. -/
structure Swapped (s : TreeSys) (i n : Pslot) (q : TreeProc) (x : TreePlace) (t : TreeSys) :
    Prop where
  slot : t.proc n = q
  own : t.proc i = { s.proc i with place := x }
  others : ∀ j, j ≠ n → j ≠ i → t.proc j = s.proc j

variable {q : TreeProc} {x : TreePlace}

theorem Swapped.state (swapped : Swapped s i n q x t) (h : j ≠ n) :
    (t.proc j).state = (s.proc j).state := by
  by_cases here : j = i
  · subst here
    rw [swapped.own]
  · rw [swapped.others j h here]

theorem Swapped.parent (swapped : Swapped s i n q x t) (h : j ≠ n) :
    (t.proc j).parent = (s.proc j).parent := by
  by_cases here : j = i
  · subst here
    rw [swapped.own]
  · rw [swapped.others j h here]

/-- A step that sets slot `n`, and then the place of `i`. -/
theorem swapped_at (distinct : i ≠ n) (eq : t.proc = Function.update s.proc n q) :
    Swapped s i n q x (t.at_ i x) := by
  refine ⟨?_, ?_, fun j hn hi => ?_⟩
  · rw [at_, setProc_of_ne distinct.symm, eq, Function.update_self]
  · rw [at_, setProc_self, eq, Function.update_of_ne distinct]
  · rw [at_, setProc_of_ne hi, eq, Function.update_of_ne hn]

theorem Tree.swap (tree : s.Tree) (swapped : Swapped s i n q x t) (swaps : Swaps i n q x)
    (active : (s.proc i).state.active = true) (inactive : (s.proc n).state.active = false)
    (works : ∀ m, (s.proc i).place.embryo = some m → m = n)
    (only : ∀ j, j ≠ i → (s.proc j).place.embryo ≠ some n) (place : q.place = .user) :
    t.Tree := by
  have distinct : ∀ {j}, (s.proc j).state.active = true → j ≠ n :=
    fun alive => ne_of_active alive inactive
  have notSelf : i ≠ n := distinct active
  -- A process that still works on a slot works on another one than `n`, and is not `i`.
  have working : ∀ j m, (t.proc j).place.embryo = some m → m ≠ n →
      (s.proc j).place = (t.proc j).place := by
    intro j m h other
    by_cases here : j = n
    · subst here
      rw [swapped.slot, place] at h
      cases h
    · by_cases own : j = i
      · subst own
        rw [swapped.own] at h
        exact absurd (swaps.embryo h) other
      · rw [swapped.others j here own]
  have mine : ∀ j, (t.proc j).place.embryo = some n → j = i := by
    intro j h
    by_contra other
    by_cases here : j = n
    · subst here
      rw [swapped.slot, place] at h
      cases h
    · rw [swapped.others j here other] at h
      exact only j other h
  refine ⟨?_, ?_, fun j h => ?_, fun j h => ?_, fun j p h hp => ?_, fun j other used born => ?_,
    fun j h => ?_, fun k m h => ?_, fun k m h => ?_, fun k l m hk hl => ?_, fun p waits => ?_⟩
  · rw [swapped.state (distinct tree.init)]
    exact tree.init
  · rw [swapped.parent (distinct tree.init)]
    exact tree.root
  · by_cases here : j = n
    · subst here
      rw [swapped.slot] at h
      cases swaps with
      | taken _ parent | freed _ parent =>
        rw [parent] at h; cases h
      | linked _ parent | started _ parent =>
        exact notSelf (Option.some.inj (parent.symm.trans h))
    · rw [swapped.parent here] at h
      exact tree.self j h
  · by_cases here : j = n
    · subst here
      rw [swapped.slot] at h ⊢
      cases swaps with
      | taken state _ | linked state _ | started state _ =>
        rw [state] at h; cases h
      | freed _ parent => exact parent
    · rw [swapped.state here] at h
      rw [swapped.parent here]
      exact tree.unused j h
  · by_cases here : j = n
    · subst here
      rw [swapped.slot] at h hp
      cases swaps with
      | taken _ parent => rw [parent] at hp; cases hp
      | linked _ parent =>
        cases Option.some.inj (parent.symm.trans hp)
        rw [swapped.own]
      | started state _ | freed state _ =>
        rw [state] at h; cases h
    · rw [swapped.state here] at h
      rw [swapped.parent here] at hp
      have linked := tree.embryo j p h hp
      have other : p ≠ n := distinct (tree.busy p (by rw [linked]; exact nofun))
      have notOwn : p ≠ i := by
        rintro rfl
        exact here (works j (by rw [linked]; rfl))
      rw [swapped.others p other notOwn]
      exact linked
  · by_cases here : j = n
    · subst here
      rw [swapped.slot] at used born ⊢
      cases swaps with
      | taken state _ | linked state _ =>
        exact absurd state born
      | started _ parent => exact ⟨i, parent, by rw [swapped.state notSelf]; exact active⟩
      | freed state _ => exact absurd state used
    · rw [swapped.state here] at used born
      obtain ⟨p, parent, alive⟩ := tree.parent j other used born
      rw [swapped.parent here]
      exact ⟨p, parent, by rw [swapped.state (distinct alive)]; exact alive⟩
  · by_cases here : j = n
    · subst here
      rw [swapped.slot] at h
      exact absurd place h
    · rw [swapped.state here]
      by_cases own : j = i
      · rw [own]
        exact active
      · rw [swapped.others j here own] at h
        exact tree.busy j h
  · by_cases here : m = n
    · subst here
      cases mine k (by rw [h]; rfl)
      rw [swapped.own] at h
      rw [swapped.slot]
      cases swaps with
      | taken state parent => exact ⟨state, parent⟩
      | linked => cases h
      | started => cases h
      | freed => cases h
    · rw [swapped.state here, swapped.parent here]
      exact tree.forking k m ((working k m (by rw [h]; rfl) here).trans h)
  · by_cases here : m = n
    · subst here
      cases mine k (by rw [h]; rfl)
      rw [swapped.own] at h
      rw [swapped.slot]
      cases swaps with
      | taken => cases h
      | linked state parent => exact ⟨state, parent⟩
      | started => cases h
      | freed => cases h
    · rw [swapped.state here, swapped.parent here]
      exact tree.linked k m ((working k m (by rw [h]; rfl) here).trans h)
  · by_cases here : m = n
    · subst here
      rw [mine k hk, mine l hl]
    · refine tree.single k l m ?_ ?_
      · rw [working k m hk here]
        exact hk
      · rw [working l m hl here]
        exact hl
  · have notSlot : p ≠ n := by
      rintro rfl
      have := waits.1
      rw [swapped.slot, place] at this
      cases this
    have notOwn : p ≠ i := by
      rintro rfl
      have := waits.1
      rw [swapped.own] at this
      exact swaps.not_waiting this
    rw [swapped.others p notSlot notOwn] at waits ⊢
    obtain ⟨chan, children⟩ := tree.asleep p waits
    refine ⟨chan, fun c => ?_⟩
    by_cases here : c = n
    · subst here
      rw [swapped.slot]
      exact fun _ => swaps.not_zombie
    · rw [swapped.state here, swapped.parent here]
      exact children c

/-! ## `fork` -/

theorem Tree.not_embryo (tree : s.Tree) (state : (s.proc n).state ≠ .embryo) (j : Pslot) :
    (s.proc j).place.embryo ≠ some n := by
  intro works
  cases place : (s.proc j).place with
  | user => rw [place] at works; cases works
  | waiting => rw [place] at works; cases works
  | forking m =>
    rw [place] at works
    cases works
    exact state (tree.forking j n place).1
  | linked m =>
    rw [place] at works
    cases works
    exact state (tree.linked j n place).1

theorem Tree.idle_place (tree : s.Tree) (inactive : (s.proc n).state.active = false) :
    (s.proc n).place = .user := by
  by_contra busy
  rw [tree.busy n busy] at inactive
  cases inactive

theorem Tree.fork (tree : s.Tree) (running : (s.proc i).state = .running)
    (place : (s.proc i).place = .user) (unused : (s.proc n).state = .unused)
    (eq : t.proc = Function.update s.proc n q) (state : q.state = .embryo)
    (parent : q.parent = (s.proc n).parent) (same : q.place = (s.proc n).place) :
    (t.at_ i (.forking n)).Tree := by
  have inactive : (s.proc n).state.active = false := by
    rw [unused]
    rfl
  have distinct : i ≠ n := ne_of_active (by rw [running]; rfl) inactive
  exact tree.swap (swapped_at distinct eq) (.taken state (parent.trans (tree.unused n unused)))
    (by rw [running]; rfl) inactive (by rw [place]; exact nofun)
    (fun j _ => tree.not_embryo (by rw [unused]; exact nofun) j)
    (same.trans (tree.idle_place inactive))

/-- `fork` goes on with the slot it has taken. -/
theorem Tree.swap_embryo (tree : s.Tree) (running : (s.proc i).state = .running)
    (works : (s.proc i).place.embryo = some n) (embryo : (s.proc n).state = .embryo)
    (eq : t.proc = Function.update s.proc n q) (swaps : Swaps i n q x)
    (place : q.place = (s.proc n).place) : (t.at_ i x).Tree := by
  have inactive : (s.proc n).state.active = false := by
    rw [embryo]
    rfl
  have distinct : i ≠ n := ne_of_active (by rw [running]; rfl) inactive
  refine tree.swap (swapped_at distinct eq) swaps (by rw [running]; rfl) inactive ?_ ?_ ?_
  · rw [works]
    rintro m ⟨⟩
    rfl
  · exact fun j other busy => other (tree.single j i n busy works)
  · rw [place]
    exact tree.idle_place inactive

theorem Tree.forkFail (tree : s.Tree) (running : (s.proc i).state = .running)
    (place : (s.proc i).place = .forking n) : (s.forkFail i n).Tree := by
  obtain ⟨embryo, parent⟩ := tree.forking i n place
  exact tree.swap_embryo running (by rw [place]; rfl) embryo rfl (.freed rfl parent) rfl

theorem Tree.forkLink (tree : s.Tree) (running : (s.proc i).state = .running)
    (place : (s.proc i).place = .forking n) : (s.forkLink i n).Tree := by
  obtain ⟨embryo, -⟩ := tree.forking i n place
  exact tree.swap_embryo running (by rw [place]; rfl) embryo rfl (.linked embryo rfl) rfl

theorem Tree.forkRun (tree : s.Tree) (running : (s.proc i).state = .running)
    (place : (s.proc i).place = .linked n) : (s.forkRun i n).Tree := by
  obtain ⟨embryo, parent⟩ := tree.linked i n place
  exact tree.swap_embryo running (by rw [place]; rfl) embryo rfl (.started rfl parent) rfl

/-! ## `wait` -/

theorem waitScan_some {c : Pslot} {ps : List Pslot} {kids kids' : Bool}
    (h : s.waitScan i ps kids = (some c, kids')) :
    (s.proc c).parent = some i ∧ (s.proc c).state = .zombie := by
  induction ps generalizing kids with
  | nil => cases h
  | cons p ps ih =>
    rw [waitScan] at h
    split_ifs at h with other zombie
    · exact ih h
    · cases h
      exact ⟨not_not.mp other, zombie⟩
    · exact ih h

theorem waitScan_none {ps : List Pslot} {kids kids' : Bool}
    (h : s.waitScan i ps kids = (none, kids')) :
    ∀ c ∈ ps, (s.proc c).parent = some i → (s.proc c).state ≠ .zombie := by
  induction ps generalizing kids with
  | nil => exact nofun
  | cons p ps ih =>
    rw [waitScan] at h
    split_ifs at h with other zombie
    · exact List.forall_mem_cons.mpr ⟨fun child => absurd child other, ih h⟩
    · cases h
    · exact List.forall_mem_cons.mpr ⟨fun _ => zombie, ih h⟩

/-- A turn of the loop reaps a child, returns without one, or goes to sleep. -/
inductive WaitTurn (s : TreeSys) (i : Pslot) : TreeSys → Prop
  | reaped (c : Pslot) (child : (s.proc c).parent = some i) (zombie : (s.proc c).state = .zombie) :
      WaitTurn s i ((s.reap i c).at_ i .user)
  | returns : WaitTurn s i (s.at_ i .user)
  | sleeps (none_ : ∀ c, (s.proc c).parent = some i → (s.proc c).state ≠ .zombie) :
      WaitTurn s i (s.setProc i
        { s.proc i with chan := some (.proc i), state := .sleeping, place := .waiting })

theorem waitLoop_turn (i : Pslot) (s : TreeSys) : WaitTurn s i (s.waitLoop i) := by
  unfold waitLoop
  split
  case h_1 c kids found =>
    obtain ⟨child, zombie⟩ := waitScan_some found
    exact .reaped c child zombie
  case h_2 kids found =>
    split_ifs
    · exact .returns
    · exact .sleeps fun c => waitScan_none found c (List.mem_finRange c)

theorem Tree.waitTurn (tree : s.Tree) (running : (s.proc i).state = .running)
    (idle : (s.proc i).place.embryo = none) (turn : WaitTurn s i t) : t.Tree := by
  cases turn with
  | reaped c child zombie =>
    have inactive : (s.proc c).state.active = false := by
      rw [zombie]
      rfl
    have distinct : i ≠ c := ne_of_active (by rw [running]; rfl) inactive
    exact tree.swap (swapped_at distinct rfl) (.freed rfl rfl) (by rw [running]; rfl) inactive
      (by rw [idle]; exact nofun) (fun j _ => tree.not_embryo (by rw [zombie]; exact nofun) j)
      (tree.idle_place inactive)
  | returns =>
    exact tree.shuffle_one ⟨rfl, rfl, rfl, .inl rfl, .inr ⟨idle, rfl, by rw [running]; rfl⟩⟩
      (by rintro ⟨⟨⟩, -⟩)
  | sleeps none_ =>
    refine tree.shuffle (shuffled_update
      ⟨rfl, rfl, rfl, .inr ⟨by rw [running]; rfl, rfl⟩, .inr ⟨idle, rfl, rfl⟩⟩) fun p waits => ?_
    by_cases here : p = i
    · subst here
      rw [setProc_self]
      exact ⟨rfl, none_⟩
    · rw [setProc_of_ne here] at waits ⊢
      exact tree.asleep p waits

/-! ## `exit` -/

/-- The children of `cur` among `ps` have been passed to init. -/
structure Passed (cur : Pslot) (ps : List Pslot) (s t : TreeSys) : Prop where
  place : ∀ j, (t.proc j).place = (s.proc j).place
  chan : ∀ j, (t.proc j).chan = (s.proc j).chan
  pid : ∀ j, (t.proc j).pid = (s.proc j).pid
  birth : ∀ j, (t.proc j).birth = (s.proc j).birth
  state : ∀ j, (t.proc j).state = (s.proc j).state ∨
    ((s.proc j).state = .sleeping ∧ (t.proc j).state = .runnable)
  parent : ∀ j, (t.proc j).parent =
    if (s.proc j).parent = some cur ∧ j ∈ ps then some initproc else (s.proc j).parent
  awake : ∀ p ∈ ps, (s.proc p).parent = some cur → (s.proc p).state = .zombie →
    ¬ ((t.proc initproc).state = .sleeping ∧ (t.proc initproc).chan = some (.proc initproc))
  history : t.nextpid = s.nextpid ∧ t.forks = s.forks ∧ t.exits = s.exits ∧ t.waits = s.waits

theorem Passed.refl {cur p : Pslot} (notChild : (s.proc p).parent ≠ some cur) :
    Passed cur [p] s s := by
  refine ⟨fun _ => rfl, fun _ => rfl, fun _ => rfl, fun _ => rfl, fun _ => .inl rfl, fun j => ?_,
    fun q member child => ?_, rfl, rfl, rfl, rfl⟩
  · rw [if_neg]
    rintro ⟨child, member⟩
    rw [List.mem_singleton.mp member] at child
    exact notChild child
  · rw [List.mem_singleton.mp member] at child
    exact absurd child notChild

theorem setParent_proc (s : TreeSys) (p q j : Pslot) :
    (s.setProc p { s.proc p with parent := some q }).proc j =
      { s.proc j with parent := if j = p then some q else (s.proc j).parent } := by
  split_ifs with here
  · rw [here, setProc_self]
  · rw [setProc_of_ne here]

theorem passed_parent {cur p : Pslot} (child : (s.proc p).parent = some cur) (j : Pslot) :
    (if j = p then some initproc else (s.proc j).parent) =
      if (s.proc j).parent = some cur ∧ j ∈ [p] then some initproc else (s.proc j).parent := by
  by_cases here : j = p
  · subst here
    simp [child]
  · simp [here]

theorem Passed.set {cur p : Pslot} (child : (s.proc p).parent = some cur)
    (alive : (s.proc p).state ≠ .zombie) :
    Passed cur [p] s (s.setProc p { s.proc p with parent := some initproc }) := by
  refine ⟨?_, ?_, ?_, ?_, ?_, ?_, fun q member _ zombie => ?_, rfl, rfl, rfl, rfl⟩
  all_goals try (intro j; rw [setParent_proc])
  · exact .inl rfl
  · exact passed_parent child j
  · rw [List.mem_singleton.mp member] at zombie
    exact absurd zombie alive

theorem Passed.wakeup {cur p : Pslot} (child : (s.proc p).parent = some cur) :
    Passed cur [p] s ((s.setProc p { s.proc p with parent := some initproc }).wakeup1
      (some (.proc initproc))) := by
  have proc : ∀ j, ((s.setProc p { s.proc p with parent := some initproc }).wakeup1
      (some (.proc initproc))).proc j = rouse (some (.proc initproc))
        { s.proc j with parent := if j = p then some initproc else (s.proc j).parent } := by
    intro j
    rw [← setParent_proc]
    rfl
  refine ⟨?_, ?_, ?_, ?_, ?_, ?_, fun q _ _ _ => ?_, rfl, rfl, rfl, rfl⟩
  · intro j
    rw [proc, rouse_place]
  · intro j
    rw [proc, rouse_chan]
  · intro j
    rw [proc, (rouse_shuffled ..).pid]
  · intro j
    rw [proc, (rouse_shuffled ..).birth]
  · intro j
    rw [proc]
    exact rouse_state ..
  · intro j
    rw [proc, (rouse_shuffled ..).parent]
    exact passed_parent child j
  · rw [proc]
    exact rouse_awake _ _

theorem Passed.cons {cur p : Pslot} {ps : List Pslot} {u : TreeSys} (notInit : cur ≠ initproc)
    (first : Passed cur [p] s u) (rest : Passed cur ps u t) : Passed cur (p :: ps) s t := by
  have parent : ∀ j, (s.proc j).parent = some cur → j ≠ p → (u.proc j).parent = some cur := by
    intro j child other
    rw [first.parent j, if_neg (fun h => other (List.mem_singleton.mp h.2)), child]
  refine ⟨fun j => (rest.place j).trans (first.place j), fun j => (rest.chan j).trans (first.chan j),
    fun j => (rest.pid j).trans (first.pid j), fun j => (rest.birth j).trans (first.birth j),
    fun j => ?_, fun j => ?_, fun q member child zombie => ?_, ?_⟩
  · rcases first.state j with same | ⟨asleep, awake⟩
    · rw [← same]
      exact rest.state j
    · rcases rest.state j with same | ⟨again, -⟩
      · exact .inr ⟨asleep, same.trans awake⟩
      · rw [awake] at again
        cases again
  · rw [rest.parent j, first.parent j]
    by_cases child : (s.proc j).parent = some cur
    · by_cases here : j = p
      · subst here
        have notCur : some initproc ≠ some cur := fun h => notInit (Option.some.inj h).symm
        simp [child, notCur]
      · simp [child, here]
    · simp [child]
  · by_cases here : q = p
    · subst here
      rintro ⟨sleeping, chan⟩
      refine first.awake q (List.mem_singleton_self q) child zombie ⟨?_, ?_⟩
      · rcases rest.state initproc with same | ⟨-, awake⟩
        · exact same.symm.trans sleeping
        · rw [awake] at sleeping
          cases sleeping
      · exact (rest.chan initproc).symm.trans chan
    · have inRest : q ∈ ps := (List.mem_cons.mp member).resolve_left here
      refine rest.awake q inRest (parent q child here) ?_
      rcases first.state q with same | ⟨asleep, -⟩
      · exact same.trans zombie
      · rw [zombie] at asleep
        cases asleep
  · obtain ⟨a, b, c, d⟩ := first.history
    obtain ⟨a', b', c', d'⟩ := rest.history
    exact ⟨a'.trans a, b'.trans b, c'.trans c, d'.trans d⟩

theorem passChildren_passed {cur : Pslot} (notInit : cur ≠ initproc) (ps : List Pslot)
    (s : TreeSys) : Passed cur ps s (passChildren cur ps s) := by
  induction ps generalizing s with
  | nil =>
    exact ⟨fun _ => rfl, fun _ => rfl, fun _ => rfl, fun _ => rfl, fun _ => .inl rfl,
      fun _ => by simp [passChildren], nofun, rfl, rfl, rfl, rfl⟩
  | cons p ps ih =>
    rw [passChildren]
    dsimp only
    rw [setProc_self]
    split_ifs with child zombie
    · exact .cons notInit (.wakeup child) (ih _)
    · exact .cons notInit (.set child zombie) (ih _)
    · exact .cons notInit (.refl child) (ih _)

/-- The process table after `exit`: the process is a zombie, its children are those of init, and its
parent has been woken. -/
structure Exited (s : TreeSys) (i : Pslot) (t : TreeSys) : Prop where
  zombie : (t.proc i).state = .zombie
  state : ∀ j, j ≠ i → (t.proc j).state = (s.proc j).state ∨
    ((s.proc j).state = .sleeping ∧ (t.proc j).state = .runnable)
  parent : ∀ j, (t.proc j).parent =
    if (s.proc j).parent = some i then some initproc else (s.proc j).parent
  place : ∀ j, (t.proc j).place = (s.proc j).place
  chan : ∀ j, (t.proc j).chan = (s.proc j).chan
  pid : ∀ j, (t.proc j).pid = (s.proc j).pid
  birth : ∀ j, (t.proc j).birth = (s.proc j).birth
  woken : ∀ p, (s.proc i).parent = some p →
    ¬ ((t.proc p).state = .sleeping ∧ (t.proc p).chan = some (.proc p))
  awake : ∀ c, (s.proc c).parent = some i → (s.proc c).state = .zombie →
    ¬ ((t.proc initproc).state = .sleeping ∧ (t.proc initproc).chan = some (.proc initproc))
  nextpid : t.nextpid = s.nextpid
  forks : t.forks = s.forks
  exits : t.exits = (s.proc i).birth :: s.exits
  waits : t.waits = s.waits

theorem setState_proc (s : TreeSys) (i j : Pslot) (x : ProcState) :
    (s.setProc i { s.proc i with state := x }).proc j =
      { s.proc j with state := if j = i then x else (s.proc j).state } := by
  split_ifs with here
  · rw [here, setProc_self]
  · rw [setProc_of_ne here]

/-- Waking twice is waking. -/
theorem awake_trans {a b c : ProcState} (first : b = a ∨ (a = .sleeping ∧ b = .runnable))
    (second : c = b ∨ (b = .sleeping ∧ c = .runnable)) :
    c = a ∨ (a = .sleeping ∧ c = .runnable) := by
  rcases first with rfl | ⟨asleep, awake⟩
  · exact second
  · rcases second with rfl | ⟨-, again⟩
    · exact .inr ⟨asleep, awake⟩
    · exact .inr ⟨asleep, again⟩

theorem exit_exited (h : s.exit i = some t) : i ≠ initproc ∧ Exited s i t := by
  unfold TreeSys.exit at h
  split_ifs at h with isInit
  refine ⟨isInit, ?_⟩
  dsimp only at h
  generalize call : (s.proc i).parent.map TreeChan.proc = chan at h
  have passed := passChildren_passed isInit (List.finRange nproc) (s.wakeup1 chan)
  generalize passChildren i (List.finRange nproc) (s.wakeup1 chan) = u at h passed
  cases h
  have slot : ∀ j, (s.wakeup1 chan).proc j = rouse chan (s.proc j) := fun _ => rfl
  have state : ∀ j, (u.proc j).state = (s.proc j).state ∨
      ((s.proc j).state = .sleeping ∧ (u.proc j).state = .runnable) := fun j =>
    awake_trans (rouse_state chan (s.proc j)) (passed.state j)
  have chans : ∀ j, (u.proc j).chan = (s.proc j).chan := fun j =>
    (passed.chan j).trans (rouse_chan chan _)
  have parents : ∀ j, ((s.wakeup1 chan).proc j).parent = (s.proc j).parent := fun j =>
    (rouse_shuffled chan _).parent
  have woken : ∀ p, (s.proc i).parent = some p →
      ¬ ((u.proc p).state = .sleeping ∧ (u.proc p).chan = some (.proc p)) := by
    rintro p parent ⟨sleeping, same⟩
    have mine : chan = some (.proc p) := by
      rw [← call, parent]
      rfl
    refine rouse_awake chan (s.proc p) ⟨?_, ?_⟩
    · rcases passed.state p with same | ⟨asleep, awake⟩
      · exact same.symm.trans sleeping
      · exact asleep
    · rw [rouse_chan, mine, ← chans p, same]
  have awake : ∀ c, (s.proc c).parent = some i → (s.proc c).state = .zombie →
      ¬ ((u.proc initproc).state = .sleeping ∧
        (u.proc initproc).chan = some (.proc initproc)) := by
    intro c child zombie
    refine passed.awake c (List.mem_finRange c) ((parents c).trans child) ?_
    rcases rouse_state chan (s.proc c) with same | ⟨asleep, -⟩
    · exact same.trans zombie
    · rw [zombie] at asleep
      cases asleep
  obtain ⟨nextpid, forks, exits, waits⟩ := passed.history
  have births : ∀ j, (u.proc j).birth = (s.proc j).birth := fun j =>
    (passed.birth j).trans (rouse_shuffled chan _).birth
  refine ⟨?_, fun j other => ?_, fun j => ?_, fun j => ?_, fun j => ?_, fun j => ?_, fun j => ?_,
    fun p parent => ?_, fun c child zombie => ?_, nextpid, forks, ?_, waits⟩
  · rw [setProc_self]
  · rw [setProc_of_ne other]
    exact state j
  · rw [setState_proc]
    refine (passed.parent j).trans ?_
    rw [parents j]
    simp [List.mem_finRange]
  · rw [setState_proc]
    exact (passed.place j).trans (rouse_place chan _)
  · rw [setState_proc]
    exact chans j
  · rw [setState_proc]
    exact (passed.pid j).trans (rouse_shuffled chan _).pid
  · rw [setState_proc]
    exact births j
  · rintro ⟨sleeping, same⟩
    rw [setState_proc] at sleeping same
    dsimp only at sleeping same
    split_ifs at sleeping with here
    exact woken p parent ⟨sleeping, same⟩
  · rintro ⟨sleeping, same⟩
    rw [setProc_of_ne (Ne.symm isInit)] at sleeping same
    exact awake c child zombie ⟨sleeping, same⟩
  · show (u.proc i).birth :: u.exits = _
    rw [births i, exits]
    rfl

theorem Exited.inactive (exited : Exited s i t) (h : j ≠ i) {x : ProcState}
    (inactive : x.active = false) : (t.proc j).state = x ↔ (s.proc j).state = x := by
  rcases exited.state j h with same | ⟨asleep, awake⟩
  · rw [same]
  · rw [asleep, awake]
    constructor <;> rintro rfl <;> cases inactive

theorem Exited.active (exited : Exited s i t) (h : j ≠ i) :
    (t.proc j).state.active = (s.proc j).state.active := by
  rcases exited.state j h with same | ⟨asleep, awake⟩
  · rw [same]
  · rw [asleep, awake]
    rfl

/-- A parent that has not exited stays the parent. -/
theorem Exited.parent_cases (exited : Exited s i t) {p : Pslot} (h : (t.proc j).parent = some p) :
    ((s.proc j).parent = some i ∧ p = initproc) ∨ (p ≠ i ∧ (s.proc j).parent = some p) := by
  rw [exited.parent j] at h
  split_ifs at h with child
  · exact .inl ⟨child, (Option.some.inj h).symm⟩
  · refine .inr ⟨?_, h⟩
    rintro rfl
    exact child h

theorem Tree.exit (tree : s.Tree) (exited : Exited s i t) (notInit : i ≠ initproc)
    (running : (s.proc i).state = .running) (place : (s.proc i).place = .user) : t.Tree := by
  -- The process has no child that is not yet born, since it is not in `fork`.
  have noEmbryo : ∀ j, (s.proc j).state = .embryo → (s.proc j).parent ≠ some i := by
    intro j embryo child
    have linked := tree.embryo j i embryo child
    rw [place] at linked
    cases linked
  have notSelf : ∀ j, (t.proc j).state = .embryo ∨ (t.proc j).state = .unused → j ≠ i := by
    rintro j h rfl
    rw [exited.zombie] at h
    rcases h with h | h <;> cases h
  refine ⟨?_, ?_, fun j h => ?_, fun j h => ?_, fun j p h hp => ?_, fun j other used born => ?_,
    fun j h => ?_, fun k m h => ?_, fun k m h => ?_, fun k l m => ?_, fun p waits => ?_⟩
  · rw [exited.active notInit.symm]
    exact tree.init
  · rw [exited.parent, tree.root]
    rfl
  · rcases exited.parent_cases h with ⟨child, rfl⟩ | ⟨-, same⟩
    · rw [tree.root] at child
      cases child
    · exact tree.self j same
  · have unused := tree.unused j ((exited.inactive (notSelf j (.inr h)) rfl).mp h)
    rw [exited.parent, unused]
    rfl
  · have embryo := (exited.inactive (notSelf j (.inl h)) rfl).mp h
    rcases exited.parent_cases hp with ⟨child, -⟩ | ⟨-, same⟩
    · exact absurd child (noEmbryo j embryo)
    · rw [exited.place]
      exact tree.embryo j p embryo same
  · have before : (s.proc j).state ≠ .unused ∧ (s.proc j).state ≠ .embryo := by
      by_cases here : j = i
      · rw [here, running]
        exact ⟨nofun, nofun⟩
      · exact ⟨fun h => used ((exited.inactive here rfl).mpr h),
          fun h => born ((exited.inactive here rfl).mpr h)⟩
    obtain ⟨p, parent, active⟩ := tree.parent j other before.1 before.2
    rw [exited.parent]
    split_ifs with child
    · exact ⟨initproc, rfl, by rw [exited.active notInit.symm]; exact tree.init⟩
    · have notExited : p ≠ i := by
        rintro rfl
        exact child parent
      exact ⟨p, parent, by rw [exited.active notExited]; exact active⟩
  · rw [exited.place] at h
    have here : j ≠ i := by
      rintro rfl
      exact h place
    rw [exited.active here]
    exact tree.busy j h
  · rw [exited.place] at h
    obtain ⟨embryo, parent⟩ := tree.forking k m h
    have here : m ≠ i := by
      rintro rfl
      rw [running] at embryo
      cases embryo
    rw [exited.parent, parent]
    exact ⟨(exited.inactive here rfl).mpr embryo, rfl⟩
  · rw [exited.place] at h
    obtain ⟨embryo, parent⟩ := tree.linked k m h
    have here : m ≠ i := by
      rintro rfl
      rw [running] at embryo
      cases embryo
    rw [exited.parent, if_neg (noEmbryo m embryo)]
    exact ⟨(exited.inactive here rfl).mpr embryo, parent⟩
  · rw [exited.place, exited.place]
    exact tree.single k l m
  · have here : p ≠ i := by
      rintro rfl
      rw [TreeProc.Waits, exited.zombie] at waits
      cases waits.2
    have before : (s.proc p).Waits := by
      refine ⟨(exited.place p).symm.trans waits.1, ?_⟩
      rcases exited.state p here with same | ⟨asleep, -⟩
      · exact same.symm.trans waits.2
      · exact asleep
    obtain ⟨chan, children⟩ := tree.asleep p before
    have chan' : (t.proc p).chan = some (.proc p) := (exited.chan p).trans chan
    refine ⟨chan', fun c child zombie => ?_⟩
    by_cases self : c = i
    · subst self
      rcases exited.parent_cases child with ⟨own, -⟩ | ⟨-, same⟩
      · exact tree.self c own
      · exact exited.woken p same ⟨waits.2, chan'⟩
    · have was := (exited.inactive self rfl).mp zombie
      rcases exited.parent_cases child with ⟨abandoned, rfl⟩ | ⟨-, same⟩
      · exact exited.awake c abandoned was ⟨waits.2, chan'⟩
      · exact children c same was

/-! ## Steps -/

/-- What a step does.  A process that is resumed in `wait` does two of these at once. -/
inductive Acts (s : TreeSys) : TreeSys → Prop
  | roused (chan : Option TreeChan) : Acts s (s.wakeup1 chan)
  | shuffled (i : Pslot) (p : TreeProc) (mine : Shuffled (s.proc i) p) (awake : ¬ p.Waits) :
      Acts s (s.setProc i p)
  | taken (i n : Pslot) (running : (s.proc i).state = .running)
      (place : (s.proc i).place = .user) (unused : (s.proc n).state = .unused) :
      Acts s (({ s with nextpid := s.nextpid + 1 }.setProc n
        { s.proc n with state := .embryo, pid := .ofNat s.nextpid, birth := s.nextpid }).at_ i
          (.forking n))
  | failed (i n : Pslot) (running : (s.proc i).state = .running)
      (place : (s.proc i).place = .forking n) : Acts s (s.forkFail i n)
  | linked (i n : Pslot) (running : (s.proc i).state = .running)
      (place : (s.proc i).place = .forking n) : Acts s (s.forkLink i n)
  | started (i n : Pslot) (running : (s.proc i).state = .running)
      (place : (s.proc i).place = .linked n) : Acts s (s.forkRun i n)
  | exited (i : Pslot) (running : (s.proc i).state = .running) (place : (s.proc i).place = .user)
      (notInit : i ≠ initproc) (t : TreeSys) (exited : Exited s i t) : Acts s t
  | waited (i : Pslot) (running : (s.proc i).state = .running)
      (idle : (s.proc i).place.embryo = none) (t : TreeSys) (turn : WaitTurn s i t) : Acts s t

open Relation (ReflTransGen)

theorem kill_acts (pid : UInt32) (s : TreeSys) : ReflTransGen Acts s (s.kill pid) := by
  unfold TreeSys.kill
  split
  case h_1 => exact .refl
  case h_2 j _ =>
    refine .single ?_
    dsimp only
    split_ifs with sleeps
    · exact .shuffled j _ ⟨rfl, rfl, rfl, .inr ⟨by rw [sleeps]; rfl, rfl⟩, .inl rfl⟩
        (by rintro ⟨-, ⟨⟩⟩)
    · exact .shuffled j _ ⟨rfl, rfl, rfl, .inl rfl, .inl rfl⟩ fun waits => sleeps waits.2

theorem fork_acts (running : (s.proc i).state = .running) (place : (s.proc i).place = .user) :
    ReflTransGen Acts s (s.fork i) := by
  unfold TreeSys.fork
  split
  case h_1 => exact .refl
  case h_2 n found =>
    exact .single (.taken i n running place (by simpa using List.find?_some found))

theorem schedule_acts (runnable : (s.proc i).state = .runnable) :
    ReflTransGen Acts s (s.schedule i) := by
  have first : Acts s (s.setProc i { s.proc i with state := .running, chan := none }) :=
    .shuffled i _ ⟨rfl, rfl, rfl, .inr ⟨by rw [runnable]; rfl, rfl⟩, .inl rfl⟩ (by rintro ⟨-, ⟨⟩⟩)
  unfold TreeSys.schedule
  dsimp only
  split_ifs with waiting
  · refine .tail (.single first) (.waited i ?_ ?_ _ (waitLoop_turn i _))
    · rw [setProc_self]
    · rw [setProc_self, waiting]
      rfl
  · exact .single first

theorem Step.acts {a : TreeAct} (step : Step s a t) : ReflTransGen Acts s t := by
  unfold Step act at step
  cases a with
  | schedule i =>
    dsimp only at step
    split_ifs at step with runnable
    cases step
    exact schedule_acts runnable
  | yield i =>
    dsimp only at step
    split_ifs at step with running
    cases step
    refine .single (.shuffled i _ ⟨rfl, rfl, rfl, .inr ⟨by rw [running]; rfl, rfl⟩, .inl rfl⟩
      (by rintro ⟨-, ⟨⟩⟩))
  | sleep i c =>
    dsimp only at step
    split_ifs at step with user
    cases step
    refine .single (.shuffled i _ ⟨rfl, rfl, rfl, .inr ⟨by rw [user.1]; rfl, rfl⟩, .inl rfl⟩
      fun waits => ?_)
    have := waits.1
    rw [user.2] at this
    cases this
  | wakeup c =>
    cases step
    exact .single (.roused _)
  | fork i =>
    dsimp only at step
    split_ifs at step with user
    cases step
    exact fork_acts user.1 user.2
  | forkFail i =>
    dsimp only at step
    split at step
    case h_1 n place =>
      split_ifs at step with running
      cases step
      exact .single (.failed i n running place)
    case h_2 => cases step
  | forkLink i =>
    dsimp only at step
    split at step
    case h_1 n place =>
      split_ifs at step with running
      cases step
      exact .single (.linked i n running place)
    case h_2 => cases step
  | forkRun i =>
    dsimp only at step
    split at step
    case h_1 n place =>
      split_ifs at step with running
      cases step
      exact .single (.started i n running place)
    case h_2 => cases step
  | exit i =>
    dsimp only at step
    split_ifs at step with user
    obtain ⟨notInit, exited⟩ := exit_exited step
    exact .single (.exited i user.1 user.2 notInit t exited)
  | wait i =>
    dsimp only at step
    split_ifs at step with user
    cases step
    exact .single (.waited i user.1 (by rw [user.2]; rfl) _ (waitLoop_turn i s))
  | kill pid =>
    cases step
    exact kill_acts pid s

theorem Tree.acts (tree : s.Tree) (acts : Acts s t) : t.Tree := by
  cases acts with
  | roused chan => exact tree.wakeup1 chan
  | shuffled i p mine awake => exact tree.shuffle_one mine awake
  | taken i n running place unused =>
    exact tree.fork running place unused rfl rfl rfl rfl
  | failed i n running place => exact tree.forkFail running place
  | linked i n running place => exact tree.forkLink running place
  | started i n running place => exact tree.forkRun running place
  | exited i running place notInit _ exited => exact tree.exit exited notInit running place
  | waited i running idle _ turn => exact tree.waitTurn running idle turn

end TreeSys

end RandomRepo.Xv6

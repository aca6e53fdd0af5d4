import RandomRepo.Xv6.Log

/-!
# Crashes and the log

A disk stands for the contents that a recovery would leave behind
(`LogArea.recovered`): the blocks listed in its header are taken from the log.
None of the writes of a recovery changes what the disk stands for, and of the
writes of a commit only the one of the header does.  So a crash between any two
writes, and any number of crashes during the recoveries after it, leave the
contents after a whole number of transactions.
-/

namespace RandomRepo.Xv6

variable {A : LogArea} {s : Store} {d d' : Disk} {r : Nat → Block} {b tail : Nat}
  {ws vs : List (Nat × Block)} {bs lh : List UInt32}

/-! ## Writes of a store -/

def Store.perform (s : Store) (ws : List (Nat × Block)) : Store where
  disk := applyWrites s.disk ws
  dirty b := if b ∈ ws.map Prod.fst then none else s.dirty b
  lh := s.lh
  writes := s.writes ++ ws

theorem Store.perform_nil (s : Store) : s.perform [] = s := by
  simp [Store.perform, applyWrites]

theorem Store.perform_append : (s.perform ws).perform vs = s.perform (ws ++ vs) := by
  simp only [Store.perform, applyWrites_append, List.append_assoc, List.map_append,
    List.mem_append]
  congr 1
  funext b
  split_ifs <;> simp_all

theorem bwrite_eq (b : Nat) (v : Block) (s : Store) : bwrite b v s = s.perform [(b, v)] := by
  simp only [bwrite, Store.perform, applyWrites, List.map_cons, List.map_nil, List.mem_singleton]
  congr 1
  funext c
  by_cases here : c = b
  · subst here
    simp
  · simp [here]

/-- What is written is read back. -/
theorem bread_perform : bread (s.perform ws) = applyWrites (bread s) ws := by
  funext b
  unfold bread Store.perform
  dsimp only
  by_cases touched : ∃ w ∈ ws, w.1 = b
  · rw [if_pos (List.mem_map.mpr touched)]
    exact applyWrites_congr (.inr touched)
  · have other : ∀ w ∈ ws, w.1 ≠ b := fun w member at_ => touched ⟨w, member, at_⟩
    rw [if_neg (fun member => touched (List.mem_map.mp member)), applyWrites_other other,
      applyWrites_other other]

/-! ## The blocks of the log -/

theorem LogArea.Home.ne_start (home : A.Home b) : b ≠ A.start := by
  have := A.size_pos
  unfold LogArea.Home at home
  omega

theorem LogArea.Home.ne_slot (home : A.Home b) (fits : tail < A.size - 1) :
    b ≠ A.start + tail + 1 := by
  unfold LogArea.Home at home
  omega

/-- The writes of `write_log`. -/
def slotWrites (A : LogArea) : Nat → List Block → List (Nat × Block)
  | _, [] => []
  | tail, v :: vs => (A.start + tail + 1, v) :: slotWrites A (tail + 1) vs

/-- The writes of `install_trans`, with what it reads. -/
def installs (A : LogArea) (r : Nat → Block) : Nat → List UInt32 → List (Nat × Block)
  | _, [] => []
  | tail, b :: bs => (b.toNat, r (A.start + tail + 1)) :: installs A r (tail + 1) bs

theorem mem_slotWrites {w : Nat × Block} {vs : List Block} (member : w ∈ slotWrites A tail vs) :
    ∃ i, tail ≤ i ∧ i < tail + vs.length ∧ w.1 = A.start + i + 1 := by
  induction vs generalizing tail with
  | nil => cases member
  | cons v vs ih =>
    rw [List.length_cons]
    rcases List.mem_cons.mp member with rfl | later
    · exact ⟨tail, Nat.le_refl _, by omega, rfl⟩
    · obtain ⟨i, low, high, at_⟩ := ih later
      exact ⟨i, by omega, by omega, at_⟩

theorem mem_installs {w : Nat × Block} (member : w ∈ installs A r tail bs) :
    ∃ b ∈ bs, w.1 = b.toNat := by
  induction bs generalizing tail with
  | nil => cases member
  | cons b bs ih =>
    rcases List.mem_cons.mp member with rfl | later
    · exact ⟨b, List.mem_cons_self, rfl⟩
    · obtain ⟨c, old, at_⟩ := ih later
      exact ⟨c, List.mem_cons_of_mem _ old, at_⟩

/-- The blocks of a transaction are in the log. -/
theorem applyWrites_slot {vs : List Block} {i : Nat} (inside : i < vs.length) :
    applyWrites d (slotWrites A tail vs) (A.start + (tail + i) + 1) = vs[i] := by
  induction vs generalizing tail d i with
  | nil => cases inside
  | cons v vs ih =>
    rw [slotWrites, applyWrites]
    cases i with
    | zero =>
      rw [applyWrites_other]
      · simp
      · intro w member
        obtain ⟨j, low, -, at_⟩ := mem_slotWrites member
        omega
    | succ i =>
      have shift : A.start + (tail + (i + 1)) + 1 = A.start + (tail + 1 + i) + 1 := by omega
      rw [shift, ih (by simpa using inside)]
      rfl

theorem installs_eq_map {f : UInt32 → Block}
    (slots : ∀ i (h : i < bs.length), r (A.start + (tail + i) + 1) = f bs[i]) :
    installs A r tail bs = bs.map fun b => (b.toNat, f b) := by
  induction bs generalizing tail with
  | nil => rfl
  | cons b bs ih =>
    rw [installs, List.map_cons]
    congr 1
    · exact congrArg (Prod.mk _) (slots 0 (by simp))
    · refine ih fun i h => ?_
      have := slots (i + 1) (by simpa using h)
      rwa [show tail + (i + 1) = tail + 1 + i by omega] at this

theorem installs_congr {r' : Nat → Block} (fits : tail + bs.length ≤ A.size - 1)
    (same : ∀ b, ¬ A.Home b → r' b = r b) : installs A r' tail bs = installs A r tail bs := by
  induction bs generalizing tail with
  | nil => rfl
  | cons b bs ih =>
    rw [List.length_cons] at fits
    have inside : ¬ A.Home (A.start + tail + 1) := fun home =>
      home.ne_slot (show tail < A.size - 1 by omega) rfl
    rw [installs, installs, same _ inside, ih (by omega)]

theorem writeLogFrom_eq (home : ∀ b ∈ bs, A.Home b.toNat) (fits : tail + bs.length ≤ A.size - 1) :
    writeLogFrom A tail bs s =
      s.perform (slotWrites A tail (bs.map fun b => bread s b.toNat)) := by
  induction bs generalizing tail s with
  | nil => rw [writeLogFrom, List.map_nil, slotWrites, Store.perform_nil]
  | cons b bs ih =>
    rw [List.length_cons] at fits
    have later : ∀ c ∈ bs, A.Home c.toNat := fun c hc => home c (List.mem_cons_of_mem _ hc)
    rw [writeLogFrom, bwrite_eq, ih later (by omega), Store.perform_append, List.map_cons,
      slotWrites]
    have same : (bs.map fun c =>
        bread (s.perform [(A.start + tail + 1, bread s b.toNat)]) c.toNat) =
        bs.map fun c => bread s c.toNat := by
      refine List.map_congr_left fun c hc => ?_
      rw [bread_perform, applyWrites_other]
      intro w member
      rw [List.mem_singleton.mp member]
      exact ((later c hc).ne_slot (by omega)).symm
    rw [same]
    rfl

theorem installFrom_eq (home : ∀ b ∈ bs, A.Home b.toNat) (fits : tail + bs.length ≤ A.size - 1) :
    installFrom A tail bs s = s.perform (installs A (bread s) tail bs) := by
  induction bs generalizing tail s with
  | nil => rw [installFrom, installs, Store.perform_nil]
  | cons b bs ih =>
    rw [List.length_cons] at fits
    rw [installFrom, bwrite_eq, ih (fun c hc => home c (List.mem_cons_of_mem _ hc)) (by omega),
      Store.perform_append, installs]
    have same : installs A (bread (s.perform [(b.toNat, bread s (A.start + tail + 1))]))
        (tail + 1) bs = installs A (bread s) (tail + 1) bs := by
      refine installs_congr (by omega) fun c inLog => ?_
      rw [bread_perform, applyWrites_other]
      intro w member at_
      rw [List.mem_singleton.mp member] at at_
      exact inLog (at_ ▸ home b List.mem_cons_self)
    rw [same]
    rfl

/-! ## What a disk stands for -/

/-- The updates that the header on the disk lists. -/
def LogArea.logged (A : LogArea) (d : Disk) : List (Nat × Block) :=
  installs A d 0 ((d A.start).numbers (d A.start).count)

/-- The contents after a recovery. -/
def LogArea.recovered (A : LogArea) (d : Disk) : Disk := applyWrites d (A.logged d)

/-- The header lists blocks of the file system that the log has room for. -/
structure LogArea.Sound (A : LogArea) (d : Disk) : Prop where
  few : (d A.start).count ≤ logsize
  fits : (d A.start).count ≤ A.size - 1
  home : ∀ b ∈ (d A.start).numbers (d A.start).count, A.Home b.toNat

theorem Block.numbers_length (h : Block) (n : Nat) : (h.numbers n).length = n := by
  rw [Block.numbers, List.length_map, List.length_range]

theorem Block.count_header (old : Block) (few : lh.length ≤ logsize) :
    (Block.header lh old).count = lh.length := by
  have size : logsize = 30 := rfl
  have word : (UInt32.ofNat lh.length).toNat = lh.length := by
    rw [UInt32.toNat_ofNat']
    omega
  rw [Block.count, Block.header, if_pos rfl, word, if_pos (by omega)]

theorem Block.numbers_header (old : Block) (few : lh.length ≤ logsize) :
    (Block.header lh old).numbers lh.length = lh := by
  have size : logsize = 30 := rfl
  refine List.ext_getElem (Block.numbers_length _ _) fun i _ inside => ?_
  have at_ : (Fin.ofNat 128 (i + 1)).val = i + 1 := Nat.mod_eq_of_lt (by omega)
  have notFirst : Fin.ofNat 128 (i + 1) ≠ 0 := by
    intro zero
    rw [zero] at at_
    cases at_
  simp only [Block.numbers, List.getElem_map, List.getElem_range, Block.header]
  rw [if_neg notFirst, at_, Nat.add_sub_cancel, List.getElem?_eq_getElem inside, Option.getD_some]

theorem LogArea.logged_clean (clean : (d A.start).count = 0) : A.logged d = [] := by
  rw [LogArea.logged, clean]
  rfl

theorem LogArea.recovered_clean (clean : (d A.start).count = 0) : A.recovered d = d := by
  rw [LogArea.recovered, LogArea.logged_clean clean]
  rfl

theorem LogArea.Sound.of_clean (clean : (d A.start).count = 0) : A.Sound d := by
  refine ⟨by omega, by omega, fun b member => ?_⟩
  rw [clean] at member
  cases member

theorem LogArea.Sound.logged_home {w : Nat × Block} (sound : A.Sound d) (member : w ∈ A.logged d) :
    A.Home w.1 := by
  obtain ⟨b, listed, at_⟩ := mem_installs member
  rw [at_]
  exact sound.home b listed

/-- The blocks outside of the log do not matter for what is logged. -/
theorem LogArea.Sound.congr (sound : A.Sound d) (same : ∀ b, ¬ A.Home b → d' b = d b) :
    A.Sound d' ∧ A.logged d' = A.logged d := by
  have header : d' A.start = d A.start := same _ fun home => home.ne_start rfl
  refine ⟨⟨?_, ?_, ?_⟩, ?_⟩
  · rw [header]; exact sound.few
  · rw [header]; exact sound.fits
  · rw [header]; exact sound.home
  · rw [LogArea.logged, LogArea.logged, header]
    refine installs_congr ?_ same
    rw [Block.numbers_length, Nat.zero_add]
    exact sound.fits

/-- Some of the logged updates have been installed. -/
theorem LogArea.Sound.install (sound : A.Sound d) (n : Nat) :
    A.Sound (applyWrites d ((A.logged d).take n)) ∧
      A.recovered (applyWrites d ((A.logged d).take n)) = A.recovered d := by
  have same : ∀ b, ¬ A.Home b → applyWrites d ((A.logged d).take n) b = d b := by
    intro b inLog
    refine applyWrites_other fun w member at_ => inLog ?_
    rw [← at_]
    exact sound.logged_home (List.mem_of_mem_take member)
  obtain ⟨sound', logged⟩ := sound.congr same
  refine ⟨sound', ?_⟩
  rw [LogArea.recovered, logged]
  exact applyWrites_replay n

/-! ## Recovery -/

/-- The writes of a recovery. -/
def LogArea.recoverWrites (A : LogArea) (d : Disk) : List (Nat × Block) :=
  A.logged d ++ [(A.start, Block.header [] (d A.start))]

theorem recoverFromLog_eq (sound : A.Sound d) :
    ∃ s, recoverFromLog A (.fresh d) = some s ∧ s.writes = A.recoverWrites d ∧
      s.disk = applyWrites d (A.recoverWrites d) := by
  let s₁ : Store := { Store.fresh d with lh := (d A.start).numbers (d A.start).count }
  have read : readHead A (.fresh d) = some s₁ := if_neg (Nat.not_lt.mpr sound.few)
  have install : installTrans A s₁ = s₁.perform (A.logged d) := by
    refine installFrom_eq sound.home ?_
    rw [Block.numbers_length, Nat.zero_add]
    exact sound.fits
  let s₂ : Store := { s₁.perform (A.logged d) with lh := [] }
  have header : bread s₂ A.start = d A.start := by
    show bread (s₁.perform (A.logged d)) A.start = _
    rw [bread_perform, applyWrites_other fun w member => (sound.logged_home member).ne_start]
    rfl
  refine ⟨s₂.perform [(A.start, Block.header [] (d A.start))], ?_, rfl, applyWrites_append.symm⟩
  rw [recoverFromLog, read, Option.map_some, install, ← header, ← bwrite_eq]
  rfl

theorem take_append_singleton {α : Type} (xs : List α) (x : α) (n : Nat) :
    (xs ++ [x]).take n = xs.take n ∨ (xs ++ [x]).take n = xs ++ [x] := by
  rcases Nat.lt_or_ge xs.length n with all | part
  · exact .inr (List.take_of_length_le (by rw [List.length_append, List.length_singleton]; omega))
  · exact .inl (List.take_append_of_le_length part)

/-- A recovery that runs to its end. -/
theorem LogArea.recover_complete (A : LogArea) (d : Disk) :
    (applyWrites d (A.recoverWrites d) A.start).count = 0 ∧
      ∀ b, A.Home b → applyWrites d (A.recoverWrites d) b = A.recovered d b := by
  rw [LogArea.recoverWrites, applyWrites_append]
  constructor
  · rw [applyWrites, applyWrites, Function.update_self]
    exact Block.count_header _ (Nat.zero_le _)
  · intro b home
    exact Function.update_of_ne home.ne_start _ _

/-- A crash during a recovery. -/
theorem LogArea.Sound.crash (sound : A.Sound d) (n : Nat) :
    A.Sound (applyWrites d ((A.recoverWrites d).take n)) ∧
      ∀ b, A.Home b →
        A.recovered (applyWrites d ((A.recoverWrites d).take n)) b = A.recovered d b := by
  rcases take_append_singleton (A.logged d) (A.start, Block.header [] (d A.start)) n with
    part | all
  · rw [LogArea.recoverWrites, part]
    obtain ⟨sound', same⟩ := sound.install n
    exact ⟨sound', fun b _ => by rw [same]⟩
  · obtain ⟨clean, same⟩ := A.recover_complete d
    rw [LogArea.recoverWrites] at clean same ⊢
    rw [all]
    refine ⟨.of_clean clean, fun b home => ?_⟩
    rw [LogArea.recovered_clean clean]
    exact same b home

/-- The disk after a recovery that is cut off after `n` writes. -/
def crashedRecovery (A : LogArea) (d : Disk) (n : Nat) : Disk :=
  match recoverFromLog A (.fresh d) with
  | some s => applyWrites d (s.writes.take n)
  | none => d

theorem LogArea.Sound.recoveries (sound : A.Sound d) (crashes : List Nat) :
    A.Sound (crashes.foldl (crashedRecovery A) d) ∧
      ∀ b, A.Home b → A.recovered (crashes.foldl (crashedRecovery A) d) b = A.recovered d b := by
  induction crashes generalizing d with
  | nil => exact ⟨sound, fun _ _ => rfl⟩
  | cons n crashes ih =>
    obtain ⟨s, recovers, writes, -⟩ := recoverFromLog_eq sound
    have crash : crashedRecovery A d n = applyWrites d ((A.recoverWrites d).take n) := by
      rw [crashedRecovery, recovers, ← writes]
    obtain ⟨sound₁, same₁⟩ := sound.crash n
    rw [← crash] at sound₁ same₁
    obtain ⟨sound', same⟩ := ih sound₁
    exact ⟨sound', fun b home => (same b home).trans (same₁ b home)⟩

/-! ## Commit -/

/-- The updates of the transaction in memory. -/
def Store.updates (s : Store) : List (Nat × Block) :=
  s.lh.map fun b => (b.toNat, bread s b.toNat)

/-- A transaction in memory over a disk without one. -/
structure Ready (A : LogArea) (s : Store) : Prop where
  few : s.lh.length ≤ logsize
  fits : s.lh.length ≤ A.size - 1
  home : ∀ b ∈ s.lh, A.Home b.toNat
  pinned : ∀ b, s.dirty b ≠ none → b ∈ s.lh.map UInt32.toNat
  clean : (s.disk A.start).count = 0

def Store.header (A : LogArea) (s : Store) : Block := Block.header s.lh (s.disk A.start)

def commitWrites (A : LogArea) (s : Store) : List (Nat × Block) :=
  slotWrites A 0 (s.lh.map fun b => bread s b.toNat) ++
    (A.start, s.header A) :: (s.updates ++ [(A.start, Block.header [] (s.header A))])

theorem mem_updates {w : Nat × Block} (member : w ∈ s.updates) : ∃ b ∈ s.lh, w.1 = b.toNat := by
  obtain ⟨b, listed, rfl⟩ := List.mem_map.mp member
  exact ⟨b, listed, rfl⟩

theorem Ready.updates_home {w : Nat × Block} (ready : Ready A s) (member : w ∈ s.updates) :
    A.Home w.1 := by
  obtain ⟨b, listed, at_⟩ := mem_updates member
  rw [at_]
  exact ready.home b listed

theorem Ready.apply_updates (ready : Ready A s) : applyWrites s.disk s.updates = bread s := by
  funext b
  rw [Store.updates, applyWrites_map UInt32.toNat (bread s)]
  split_ifs with listed
  · rfl
  · have notDirty : s.dirty b = none := by
      by_contra dirty
      exact listed (ready.pinned b dirty)
    rw [bread, notDirty, Option.getD_none]

theorem Ready.bread_start (ready : Ready A s) : bread s A.start = s.disk A.start := by
  have notDirty : s.dirty A.start = none := by
    by_contra dirty
    obtain ⟨b, listed, at_⟩ := List.mem_map.mp (ready.pinned _ dirty)
    exact (ready.home b listed).ne_start at_
  rw [bread, notDirty, Option.getD_none]

theorem slot_not_start {w : Nat × Block} {vs : List Block} (member : w ∈ slotWrites A tail vs) :
    w.1 ≠ A.start := by
  obtain ⟨i, -, -, at_⟩ := mem_slotWrites member
  omega

theorem slot_not_home {w : Nat × Block} {vs : List Block} (fits : vs.length ≤ A.size - 1)
    (member : w ∈ slotWrites A 0 vs) : ¬ A.Home w.1 := by
  obtain ⟨i, -, high, at_⟩ := mem_slotWrites member
  rw [at_]
  exact fun home => home.ne_slot (by omega) rfl

/-- The log holds what the header lists. -/
theorem installs_logged (r : Nat → Block) (h : Block) (f : UInt32 → Block) (lh : List UInt32) :
    installs A (applyWrites r (slotWrites A 0 (lh.map f) ++ [(A.start, h)])) 0 lh =
      lh.map fun b => (b.toNat, f b) := by
  refine installs_eq_map fun i inside => ?_
  rw [applyWrites_append, applyWrites, applyWrites, Function.update_of_ne (by omega),
    applyWrites_slot (by rw [List.length_map]; exact inside), List.getElem_map]

theorem commit_eq (ready : Ready A s) (some_ : 0 < s.lh.length) :
    commit A s = { s with lh := [] }.perform (commitWrites A s) := by
  let slots := slotWrites A 0 (s.lh.map fun b => bread s b.toNat)
  have log : writeLog A s = s.perform slots := writeLogFrom_eq ready.home (by
    rw [Nat.zero_add]
    exact ready.fits)
  have start : bread (s.perform slots) A.start = s.disk A.start := by
    rw [bread_perform, applyWrites_other fun w => slot_not_start, ready.bread_start]
  have head : writeHead A (s.perform slots) = s.perform (slots ++ [(A.start, s.header A)]) := by
    rw [writeHead, bwrite_eq, start, Store.perform_append]
    rfl
  have install : installTrans A (s.perform (slots ++ [(A.start, s.header A)])) =
      s.perform (slots ++ [(A.start, s.header A)] ++ s.updates) := by
    show installFrom A 0 s.lh _ = _
    rw [installFrom_eq ready.home (by rw [Nat.zero_add]; exact ready.fits),
      Store.perform_append, bread_perform]
    exact congrArg (fun ws => s.perform (slots ++ [(A.start, s.header A)] ++ ws))
      (installs_logged _ _ _ s.lh)
  have header : bread (s.perform (slots ++ [(A.start, s.header A)] ++ s.updates)) A.start =
      s.header A := by
    rw [bread_perform, applyWrites_append,
      applyWrites_other fun w member => (ready.updates_home member).ne_start, applyWrites_append,
      applyWrites, applyWrites, Function.update_self]
  rw [commit, if_pos some_, log, head, install]
  show bwrite A.start (Block.header [] (bread (s.perform _) A.start)) _ = _
  rw [header, bwrite_eq]
  show Store.perform (Store.perform { s with lh := [] } _) _ = _
  rw [Store.perform_append, commitWrites, List.append_assoc, List.append_assoc]
  rfl

/-- The number of headers of transactions among the writes. -/
def headerWrites (A : LogArea) (ws : List (Nat × Block)) : Nat :=
  ws.countP fun w => decide (w.1 = A.start) && decide (0 < w.2.count)

theorem headerWrites_append :
    headerWrites A (ws ++ vs) = headerWrites A ws + headerWrites A vs :=
  List.countP_append

theorem headerWrites_none (other : ∀ w ∈ ws, w.1 ≠ A.start) : headerWrites A ws = 0 := by
  rw [headerWrites, List.countP_eq_zero]
  intro w member
  simp [other w member]

theorem take_append_cons {α : Type} (xs : List α) (y : α) (ys : List α) (n : Nat) :
    (xs ++ y :: ys).take n = xs.take n ∨ ∃ k, (xs ++ y :: ys).take n = xs ++ [y] ++ ys.take k := by
  rcases Nat.lt_or_ge xs.length n with more | part
  · refine .inr ⟨n - xs.length - 1, ?_⟩
    rw [List.take_append, List.take_of_length_le (by omega), List.append_assoc,
      show n - xs.length = n - xs.length - 1 + 1 by omega]
    rfl
  · exact .inl (List.take_append_of_le_length part)

/-- The disk with the header written and a part of the updates installed. -/
theorem Ready.committed (ready : Ready A s) {d₁ : Disk}
    (log : d₁ = applyWrites s.disk (slotWrites A 0 (s.lh.map fun b => bread s b.toNat) ++
      [(A.start, s.header A)])) :
    A.Sound d₁ ∧ A.logged d₁ = s.updates ∧ ∀ b, A.Home b → A.recovered d₁ b = bread s b := by
  have start : d₁ A.start = s.header A := by
    rw [log, applyWrites_append, applyWrites, applyWrites, Function.update_self]
  have count : (s.header A).count = s.lh.length := Block.count_header _ ready.few
  have numbers : (s.header A).numbers s.lh.length = s.lh := Block.numbers_header _ ready.few
  have logged : A.logged d₁ = s.updates := by
    rw [LogArea.logged, start, count, numbers, log]
    exact installs_logged _ _ _ s.lh
  refine ⟨⟨?_, ?_, ?_⟩, logged, fun b home => ?_⟩
  · rw [start, count]; exact ready.few
  · rw [start, count]; exact ready.fits
  · rw [start, count, numbers]; exact ready.home
  · rw [LogArea.recovered, logged, ← ready.apply_updates]
    refine applyWrites_congr (.inl ?_)
    rw [log, applyWrites_other]
    intro w member at_
    rcases List.mem_append.mp member with slot | header
    · exact slot_not_home (by rw [List.length_map]; exact ready.fits) slot (at_ ▸ home)
    · rw [List.mem_singleton.mp header] at at_
      exact home.ne_start at_.symm

/-- A crash during a commit: the transaction counts if its header has been written. -/
theorem Ready.crash (ready : Ready A s) (some_ : 0 < s.lh.length) (n : Nat) :
    A.Sound (applyWrites s.disk ((commitWrites A s).take n)) ∧
      ((headerWrites A ((commitWrites A s).take n) = 0 ∧ ∀ b, A.Home b →
          A.recovered (applyWrites s.disk ((commitWrites A s).take n)) b = s.disk b) ∨
        (headerWrites A ((commitWrites A s).take n) = 1 ∧ ∀ b, A.Home b →
          A.recovered (applyWrites s.disk ((commitWrites A s).take n)) b = bread s b)) := by
  rcases take_append_cons (slotWrites A 0 (s.lh.map fun b => bread s b.toNat))
    (A.start, s.header A) (s.updates ++ [(A.start, Block.header [] (s.header A))]) n with
    early | ⟨k, late⟩
  · -- the header is still the old one
    rw [commitWrites, early]
    have start : applyWrites s.disk ((slotWrites A 0 (s.lh.map fun b => bread s b.toNat)).take n)
        A.start = s.disk A.start :=
      applyWrites_other fun w member => slot_not_start (List.mem_of_mem_take member)
    have clean := ready.clean
    rw [← start] at clean
    refine ⟨.of_clean clean, .inl ⟨?_, fun b home => ?_⟩⟩
    · exact headerWrites_none fun w member => slot_not_start (List.mem_of_mem_take member)
    · rw [LogArea.recovered_clean clean]
      refine applyWrites_other fun w member at_ => ?_
      exact slot_not_home (by rw [List.length_map]; exact ready.fits)
        (List.mem_of_mem_take member) (at_ ▸ home)
  · rw [commitWrites, late, applyWrites_append, headerWrites_append, headerWrites_append,
      headerWrites_none fun w => slot_not_start]
    generalize log : applyWrites s.disk _ = d₁
    obtain ⟨sound, logged, contents⟩ := ready.committed log.symm
    have one : headerWrites A [(A.start, s.header A)] = 1 := by
      have count : (s.header A).count = s.lh.length := Block.count_header _ ready.few
      simp [headerWrites, count, some_]
    have installing : ∀ w ∈ s.updates, w.1 ≠ A.start := fun w member =>
      (ready.updates_home member).ne_start
    rcases take_append_singleton s.updates (A.start, Block.header [] (s.header A)) k with
      part | all
    · rw [part, one, headerWrites_none fun w member => installing w (List.mem_of_mem_take member)]
      have installed := sound.install k
      rw [logged] at installed
      refine ⟨installed.1, .inr ⟨rfl, fun b home => ?_⟩⟩
      rw [installed.2]
      exact contents b home
    · have start : d₁ A.start = s.header A := by
        rw [← log, applyWrites_append, applyWrites, applyWrites, Function.update_self]
      obtain ⟨clean, same⟩ := A.recover_complete d₁
      rw [LogArea.recoverWrites, logged, start] at clean same
      have cleared : headerWrites A [(A.start, Block.header [] (s.header A))] = 0 := by
        have count : (Block.header [] (s.header A)).count = 0 := Block.count_header _ (Nat.zero_le _)
        simp [headerWrites, count]
      rw [all, one, headerWrites_append, headerWrites_none installing, cleared]
      refine ⟨.of_clean clean, .inr ⟨rfl, fun b home => ?_⟩⟩
      rw [LogArea.recovered_clean clean, same b home]
      exact contents b home

/-! ## Logging -/

theorem mem_absorb {x b : UInt32} : x ∈ absorb b lh ↔ x = b ∨ x ∈ lh := by
  induction lh with
  | nil => simp [absorb]
  | cons y lh ih =>
    rw [absorb]
    split_ifs with here
    · subst here
      simp
    · rw [List.mem_cons, ih, List.mem_cons]
      tauto

theorem length_absorb (b : UInt32) (lh : List UInt32) : (absorb b lh).length ≤ lh.length + 1 := by
  induction lh with
  | nil => exact Nat.le_refl _
  | cons y lh ih =>
    rw [absorb]
    split_ifs
    · exact Nat.le_succ _
    · exact Nat.succ_le_succ ih

theorem logWrite_spec {u : Update A} {s' : Store} (ready : Ready A s)
    (h : logWrite A u.blockno u.data s = .ok s') :
    Ready A s' ∧ s'.lh ≠ [] ∧ s'.disk = s.disk ∧ s'.writes = s.writes ∧
      bread s' = Function.update (bread s) u.blockno.toNat u.data := by
  rw [logWrite] at h
  split_ifs at h with full
  cases h
  have size : logsize = 30 := rfl
  have longer := length_absorb u.blockno s.lh
  rw [LogArea.Full, not_or] at full
  refine ⟨⟨by dsimp only; omega, by dsimp only; omega, fun b listed => ?_, fun b dirty => ?_,
    ready.clean⟩, fun empty => ?_, rfl, rfl, ?_⟩
  · rcases mem_absorb.mp listed with rfl | old
    · exact u.home
    · exact ready.home b old
  · by_cases here : b = u.blockno.toNat
    · exact List.mem_map.mpr ⟨u.blockno, mem_absorb.mpr (.inl rfl), here.symm⟩
    · dsimp only at dirty
      rw [Function.update_of_ne here] at dirty
      obtain ⟨c, old, at_⟩ := List.mem_map.mp (ready.pinned b dirty)
      exact List.mem_map.mpr ⟨c, mem_absorb.mpr (.inr old), at_⟩
  · have listed : u.blockno ∈ absorb u.blockno s.lh := mem_absorb.mpr (.inl rfl)
    dsimp only at empty
    rw [empty] at listed
    cases listed
  · funext b
    unfold bread
    dsimp only
    by_cases here : b = u.blockno.toNat
    · subst here
      rw [ Function.update_self, Function.update_self, Option.getD_some]
    · rw [Function.update_of_ne here, Function.update_of_ne here]

/-- The updates of a transaction, in their order. -/
def Txn.writes (t : Txn A) : List (Nat × Block) := t.map fun u => (u.blockno.toNat, u.data)

theorem logAll_spec {t : Txn A} {s' : Store} (ready : Ready A s) (h : logAll A t s = .ok s') :
    Ready A s' ∧ (t ≠ [] → s'.lh ≠ []) ∧ (t = [] → s' = s) ∧ s'.disk = s.disk ∧
      s'.writes = s.writes ∧ bread s' = applyWrites (bread s) t.writes := by
  induction t generalizing s with
  | nil =>
    cases h
    exact ⟨ready, fun none_ => absurd rfl none_, fun _ => rfl, rfl, rfl, rfl⟩
  | cons u t ih =>
    obtain ⟨s₁, first, rest⟩ := bind_ok_iff.mp h
    obtain ⟨ready₁, some_, disk₁, writes₁, reads₁⟩ := logWrite_spec ready first
    obtain ⟨ready', more, same, disk, writes, reads⟩ := ih ready₁ rest
    refine ⟨ready', fun _ => ?_, fun none_ => (by cases none_), disk.trans disk₁,
      writes.trans writes₁, ?_⟩
    · by_cases last : t = []
      · rw [same last]
        exact some_
      · exact more last
    · rw [reads, reads₁]
      rfl

theorem Ready.bread_idle (ready : Ready A s) (idle : s.lh = []) : bread s = s.disk := by
  rw [← ready.apply_updates, Store.updates, idle]
  rfl

/-- After a commit there is no transaction, and the disk holds what the buffers held. -/
theorem Ready.commit (ready : Ready A s) (some_ : 0 < s.lh.length) :
    Ready A (Xv6.commit A s) ∧ (Xv6.commit A s).lh = [] ∧
      (Xv6.commit A s).disk = applyWrites s.disk (commitWrites A s) ∧
      (Xv6.commit A s).writes = s.writes ++ commitWrites A s := by
  rw [commit_eq ready some_]
  refine ⟨⟨Nat.zero_le _, Nat.zero_le _, nofun, fun b dirty => ?_, ?_⟩, rfl, rfl, rfl⟩
  · refine absurd ?_ dirty
    show (if b ∈ (commitWrites A s).map Prod.fst then none else s.dirty b) = none
    split_ifs with written
    · rfl
    · by_contra pinned
      obtain ⟨c, listed, rfl⟩ := List.mem_map.mp (ready.pinned b pinned)
      refine written (List.mem_map.mpr ⟨(c.toNat, bread s c.toNat), ?_, rfl⟩)
      refine List.mem_append_right _ (List.mem_cons_of_mem _ (List.mem_append_left _ ?_))
      exact List.mem_map.mpr ⟨c, listed, rfl⟩
  · show (applyWrites s.disk (commitWrites A s) A.start).count = 0
    rw [commitWrites, List.append_cons, ← List.append_assoc, applyWrites_append, applyWrites,
      applyWrites, Function.update_self]
    exact Block.count_header _ (Nat.zero_le _)

/-- The disk contents after transactions one after the other. -/
def contents (d : Disk) (ts : List (Txn A)) : Disk := ts.foldl (fun d t => applyWrites d t.writes) d

theorem contents_congr {ts : List (Txn A)} (same : d b = d' b) :
    contents d ts b = contents d' ts b := by
  induction ts generalizing d d' with
  | nil => exact same
  | cons t ts ih => exact ih (applyWrites_congr (.inl same))

/-- The transactions that update something. -/
def nonempty (ts : List (Txn A)) : List (Txn A) := ts.filter fun t => !t.isEmpty

/-- A crash after any of the writes leaves the contents after a whole number of transactions. -/
def CrashSafe (A : LogArea) (d : Disk) (ts : List (Txn A)) (ws : List (Nat × Block)) : Prop :=
  ∀ n, A.Sound (applyWrites d (ws.take n)) ∧ ∀ b, A.Home b →
    A.recovered (applyWrites d (ws.take n)) b =
      contents d (ts.take (headerWrites A (ws.take n))) b

theorem CrashSafe.nil {ts : List (Txn A)} (clean : (d A.start).count = 0) : CrashSafe A d ts [] := by
  intro n
  rw [List.take_nil]
  refine ⟨.of_clean clean, fun b _ => ?_⟩
  show A.recovered d b = _
  rw [LogArea.recovered_clean clean]
  rfl

/-- The writes of a commit come before those of the next transactions. -/
theorem CrashSafe.commit {t : Txn A} {ts : List (Txn A)} (ready : Ready A s)
    (some_ : 0 < s.lh.length) (reads : bread s = applyWrites s.disk t.writes)
    (rest : CrashSafe A (applyWrites s.disk (commitWrites A s)) ts ws) :
    CrashSafe A s.disk (t :: ts) (commitWrites A s ++ ws) := by
  intro n
  rcases Nat.lt_or_ge (commitWrites A s).length n with after | during
  · obtain ⟨sound, same⟩ := rest (n - (commitWrites A s).length)
    have all := ready.crash some_ (commitWrites A s).length
    rw [List.take_length] at all
    obtain ⟨-, ⟨none_, old⟩ | ⟨one, new⟩⟩ := all
    · -- the whole commit contains the header
      exfalso
      have header : (A.start, s.header A) ∈ commitWrites A s :=
        List.mem_append_right _ List.mem_cons_self
      have count : (s.header A).count = s.lh.length := Block.count_header _ ready.few
      have positive : 0 < (s.header A).count := by
        rw [count]
        exact some_
      have := List.countP_eq_zero.mp none_ _ header
      simp [positive] at this
    · rw [List.take_append, List.take_of_length_le (Nat.le_of_lt after), applyWrites_append,
        headerWrites_append, one, Nat.add_comm]
      refine ⟨sound, fun b home => ?_⟩
      have clean : (applyWrites s.disk (commitWrites A s) A.start).count = 0 := by
        have := (ready.commit some_).1.clean
        rwa [(ready.commit some_).2.2.1] at this
      have done := new b home
      rw [LogArea.recovered_clean clean, reads] at done
      rw [same b home, List.take_succ_cons]
      exact contents_congr done
  · rw [List.take_append_of_le_length during]
    obtain ⟨sound, ⟨none_, old⟩ | ⟨one, new⟩⟩ := ready.crash some_ n
    · rw [none_]
      exact ⟨sound, old⟩
    · rw [one]
      refine ⟨sound, fun b home => ?_⟩
      rw [new b home, reads]
      rfl

/-- A crash during any of the transactions. -/
theorem transactions_crash (ts : List (Txn A)) (ready : Ready A s) (idle : s.lh = []) :
    ∃ ws, (transactions A ts s).writes = s.writes ++ ws ∧
      CrashSafe A s.disk (nonempty ts) ws := by
  induction ts generalizing s with
  | nil => exact ⟨[], (List.append_nil _).symm, .nil ready.clean⟩
  | cons t ts ih =>
    rw [transactions]
    cases logs : logAll A t s with
    | error halt => exact ⟨[], (List.append_nil _).symm, .nil ready.clean⟩
    | ok s₁ =>
      obtain ⟨ready₁, some_, same, disk, writes, reads⟩ := logAll_spec ready logs
      rw [ready.bread_idle idle] at reads
      dsimp only
      by_cases empty : t = []
      · -- nothing to commit
        have stays : commit A s₁ = s := by
          rw [same empty, commit, if_neg]
          rw [idle]
          exact Nat.lt_irrefl 0
        rw [stays, empty]
        exact ih ready idle
      · have positive : 0 < s₁.lh.length := List.length_pos_of_ne_nil (some_ empty)
        obtain ⟨ready₂, idle₂, disk₂, writes₂⟩ := ready₁.commit positive
        obtain ⟨ws, after, safe⟩ := ih ready₂ idle₂
        refine ⟨commitWrites A s₁ ++ ws, ?_, ?_⟩
        · rw [after, writes₂, writes, List.append_assoc]
        · have first : nonempty (t :: ts) = t :: nonempty ts := by
            simp [nonempty, empty]
          rw [disk₂] at safe
          rw [first, ← disk]
          rw [← disk] at reads
          exact .commit ready₁ positive reads safe

/-- **Crash atomicity.**  On a disk without a transaction in its log, run any transactions, and
let the machine crash after any number of disk writes, and again during the recoveries.  The
recovery that runs to its end leaves every block outside of the log as it is after the first `k`
transactions, where `k` is the number of headers that have reached the disk. -/
theorem crash_atomicity (clean : (d A.start).count = 0) (ts : List (Txn A)) (n : Nat)
    (crashes : List Nat) :
    ∃ s, recoverFromLog A (.fresh (crashes.foldl (crashedRecovery A)
        (applyWrites d ((transactions A ts (.fresh d)).writes.take n)))) = some s ∧
      (s.disk A.start).count = 0 ∧
      ∀ b, A.Home b → s.disk b = contents d ((nonempty ts).take
        (headerWrites A ((transactions A ts (.fresh d)).writes.take n))) b := by
  have ready : Ready A (.fresh d) :=
    ⟨Nat.zero_le _, Nat.zero_le _, nofun, fun b dirty => absurd rfl dirty, clean⟩
  obtain ⟨ws, writes, safe⟩ := transactions_crash ts ready rfl
  rw [show (transactions A ts (.fresh d)).writes = ws from writes]
  have safe : CrashSafe A d (nonempty ts) ws := safe
  obtain ⟨sound, stands⟩ := safe n
  obtain ⟨sound', same⟩ := LogArea.Sound.recoveries sound crashes
  obtain ⟨s, recovers, -, disk⟩ := recoverFromLog_eq sound'
  obtain ⟨clean', done⟩ := A.recover_complete
    (crashes.foldl (crashedRecovery A) (applyWrites d (ws.take n)))
  rw [← disk] at clean' done
  exact ⟨s, recovers, clean', fun b home => (done b home).trans
    ((same b home).trans (stands b home))⟩

/-- The log that `mkfs` lays out. -/
def mkfsLog : LogArea := ⟨2, logsize, by decide⟩

/-- One block is updated.  The machine crashes after the header has been written, and once more
during the recovery. -/
theorem crash_atomicity_header : ∃ s, recoverFromLog mkfsLog (.fresh ([1].foldl
      (crashedRecovery mkfsLog) (applyWrites (fun _ _ => 0) ((transactions mkfsLog
        [[⟨40, fun _ => 7, by decide⟩]] (.fresh fun _ _ => 0)).writes.take 2)))) = some s ∧
    s.disk 40 = fun _ => 7 := by
  obtain ⟨s, recovers, -, home⟩ := crash_atomicity (A := mkfsLog) (d := fun _ _ => 0) rfl
    [[⟨40, fun _ => 7, by decide⟩]] 2 [1]
  exact ⟨s, recovers, home 40 (by decide)⟩

end RandomRepo.Xv6

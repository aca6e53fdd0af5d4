import RandomRepo.Lib.Lock
import RandomRepo.Xv6.DirSys

/-!
# A directory is a finite map

The scans that look for a name and for a free entry are apart from the write that adds the
entry, but the sleep lock of the directory is held from the first scan to the write.
So what a process has found out stays true until it writes (`DirPlace.Knows`): the
name is still absent and the entry is still the first free one.

`latest` is what the directory stands for: the value of a name is set by the last
successful change to a name that agrees with it.
-/

namespace RandomRepo.Xv6

/-- What the changes have made of the name `t` in a directory that was `start`. -/
def latest (start : List Dirent) (t : List UInt8) : List DirEvent → Option Nat
  | [] => (dirlookup start t).map fun r => r.2.toNat
  | .linked name inum :: rest => if nameKey t = nameKey name then some inum else latest start t rest
  | .unlinked name :: rest => if nameKey t = nameKey name then none else latest start t rest

/-- The numbers that are going to be stored are numbers of inodes, and what `create` has
looked for in vain is still not there. -/
def DirTask.Knows (ninodes : Nat) (ents : List Dirent) (name : List UInt8) : DirTask → Prop
  | link inum => IsInode ninodes inum
  | made inum => IsInode ninodes inum ∧ Absent ents (nameKey name)
  | _ => True

namespace DirPlace

/-- The places with the lock of the directory held. -/
def Holds : DirPlace → Prop
  | out | want _ _ => False
  | _ => True

/-- What a process at the place knows of the directory. -/
def Knows (ninodes : Nat) (ents : List Dirent) : DirPlace → Prop
  | want task name => ∀ ents, task.Knows ninodes ents name
  | look task name off =>
    off ≤ ents.length ∧ task.Knows ninodes ents name ∧
      ∀ (j : Nat) (de : Dirent), j < off → ents[j]? = some de → de.key ≠ some (nameKey name)
  | alloc name => Absent ents (nameKey name)
  | seek name inum off =>
    off ≤ ents.length ∧ IsInode ninodes inum ∧ Absent ents (nameKey name) ∧
      ∀ (j : Nat) (de : Dirent), j < off → ents[j]? = some de → de.inum ≠ 0
  | write name inum off =>
    off = emptySlot ents ∧ IsInode ninodes inum ∧ Absent ents (nameKey name)
  | judge name off => ∃ de, ents[off]? = some de ∧ de.key = some (nameKey name)
  | answer name r => r = dirlookup ents name
  | panic p => p ≠ .createDirlink
  | _ => True

end DirPlace

namespace DirSys

variable {n ninodes : Nat} {s s' : DirSys n} {i : Fin n} {a : DirAct n} {ents : List Dirent}
  {task : DirTask} {name : List UInt8} {inum off : Nat}

/-! ## The scans -/

theorem miss_knows (known : (DirPlace.look task name off).Knows ninodes ents)
    (last : ents[off]? = none) : (task.miss name).Knows ninodes ents := by
  obtain ⟨bound, knows, before⟩ := known
  have absent : Absent ents (nameKey name) := by
    intro j de at_
    have inside := (List.getElem?_eq_some_iff.mp at_).1
    have beyond := List.getElem?_eq_none_iff.mp last
    exact before j de (by omega) at_
  have fresh : ∀ inum, IsInode ninodes inum →
      (DirPlace.seek name inum 0).Knows ninodes ents := by
    intro inum number
    exact ⟨Nat.zero_le _, number, absent, fun j de lt => absurd lt (Nat.not_lt_zero j)⟩
  cases task with
  | lookup => exact (dirlookup_none.mpr absent).symm
  | link inum => exact fresh inum knows
  | create => exact absent
  | made inum => exact fresh inum knows.1
  | unlink => trivial

theorem hit_knows {de : Dirent} (known : (DirPlace.look task name off).Knows ninodes ents)
    (at_ : ents[off]? = some de) (key : de.key = some (nameKey name)) :
    (task.hit name off de).Knows ninodes ents := by
  obtain ⟨bound, knows, before⟩ := known
  cases task with
  | lookup => exact (dirlookup_first at_ key before).symm
  | made inum => exact absurd key (knows.2 off de at_)
  | unlink => exact ⟨de, at_, key⟩
  | _ => trivial

theorem lookTurn_knows (known : (DirPlace.look task name off).Knows ninodes ents) :
    (lookTurn ents task name off).Knows ninodes ents := by
  have next : ∀ de, ents[off]? = some de → de.key ≠ some (nameKey name) →
      (DirPlace.look task name (off + 1)).Knows ninodes ents := by
    intro de at_ other
    refine ⟨(List.getElem?_eq_some_iff.mp at_).1, known.2.1, fun j b lt hb => ?_⟩
    rcases Nat.lt_succ_iff_lt_or_eq.mp lt with before | rfl
    · exact known.2.2 j b before hb
    · rw [at_] at hb
      cases hb
      exact other
  unfold lookTurn
  cases at_ : ents[off]? with
  | none => exact miss_knows known at_
  | some de =>
    dsimp only
    split_ifs with free same
    · exact next de at_ fun key => (Dirent.key_eq_some.mp key).1 free
    · refine hit_knows known at_ (Dirent.key_eq_some.mpr ⟨free, ?_⟩)
      exact ((namecmp_eq_zero_iff _ _).mp same).symm
    · refine next de at_ fun key => same ?_
      exact (namecmp_eq_zero_iff _ _).mpr (Dirent.key_eq_some.mp key).2.symm

theorem seekTurn_knows (known : (DirPlace.seek name inum off).Knows ninodes ents) :
    (seekTurn ents name inum off).Knows ninodes ents := by
  obtain ⟨bound, number, absent, before⟩ := known
  unfold seekTurn
  cases at_ : ents[off]? with
  | none =>
    have last : off = ents.length := by
      have := List.getElem?_eq_none_iff.mp at_
      omega
    refine ⟨last.trans (Eq.symm ?_), number, absent⟩
    refine List.findIdx_eq_length.mpr fun de member => ?_
    obtain ⟨j, lt, rfl⟩ := List.getElem_of_mem member
    exact decide_eq_false (before j _ (by omega) (List.getElem?_eq_getElem lt))
  | some de =>
    obtain ⟨inside, rfl⟩ := List.getElem?_eq_some_iff.mp at_
    dsimp only
    split_ifs with free
    · refine ⟨Eq.symm ((List.findIdx_eq inside).mpr ⟨decide_eq_true free, ?_⟩), number, absent⟩
      intro j lt
      exact decide_eq_false (before j _ lt (List.getElem?_eq_getElem (by omega)))
    · refine ⟨inside, number, absent, fun j b lt hb => ?_⟩
      rcases Nat.lt_succ_iff_lt_or_eq.mp lt with earlier | rfl
      · exact before j b earlier hb
      · rw [at_] at hb
        cases hb
        exact free

theorem lookTurn_holds (ents : List Dirent) (task : DirTask) (name : List UInt8) (off : Nat) :
    (lookTurn ents task name off).Holds := by
  unfold lookTurn
  cases ents[off]? with
  | none => cases task <;> trivial
  | some de =>
    dsimp only
    split_ifs
    · trivial
    · cases task <;> trivial
    · trivial

theorem seekTurn_holds (ents : List Dirent) (name : List UInt8) (inum off : Nat) :
    (seekTurn ents name inum off).Holds := by
  unfold seekTurn
  cases ents[off]? with
  | none => trivial
  | some de =>
    dsimp only
    split_ifs <;> trivial

/-! ## What a step can do -/

inductive Acts (ninodes : Nat) (s : DirSys n) (i : Fin n) : DirSys n → Prop
  | call (task : DirTask) (name : List UInt8) (place : s.place i = .out)
      (knows : (DirPlace.want task name).Knows ninodes s.ents) :
      Acts ninodes s i (s.at_ i (.want task name))
  | enter (x : DirPlace) (free : s.lock = none) (holds : x.Holds)
      (knows : (s.place i).Knows ninodes s.ents → x.Knows ninodes s.ents) :
      Acts ninodes s i ({ s with lock := some i }.at_ i x)
  | inside (x : DirPlace) (held : (s.place i).Holds) (holds : x.Holds)
      (knows : (s.place i).Knows ninodes s.ents → x.Knows ninodes s.ents) :
      Acts ninodes s i (s.at_ i x)
  | link (name : List UInt8) (inum off : Nat) (place : s.place i = .write name inum off) :
      Acts ninodes s i (s.change i off (.mk_ name inum) (.linked name inum))
  | clear (name : List UInt8) (off : Nat) (place : s.place i = .judge name off) :
      Acts ninodes s i (s.change i off .zero (.unlinked name))
  | leave (held : (s.place i).Holds) : Acts ninodes s i ({ s with lock := none }.at_ i .out)

theorem run_acts (h : s.run i = some s') : Acts ninodes s i s' := by
  have same : ∀ {x}, s.place i = x → x.Holds → (s.place i).Holds := fun at_ holds => at_ ▸ holds
  unfold run at h
  split at h
  · cases h
  · cases h
  · cases h
  · cases h
  · rename_i task name place
    split_ifs at h with free
    cases h
    refine .enter _ free ?_ fun known => ?_
    · unfold enter
      split_ifs <;> trivial
    · rw [place] at known
      unfold enter
      split_ifs
      · trivial
      · exact ⟨Nat.zero_le _, known _, fun j de lt => absurd lt (Nat.not_lt_zero j)⟩
  · rename_i task name off place
    cases h
    exact .inside _ (same place trivial) (lookTurn_holds ..) fun known =>
      lookTurn_knows (place ▸ known)
  · rename_i name inum off place
    cases h
    exact .inside _ (same place trivial) (seekTurn_holds ..) fun known =>
      seekTurn_knows (place ▸ known)
  · rename_i name inum off place
    split_ifs at h with full
    · cases h
      exact .inside _ (same place trivial) trivial fun _ => nofun
    · cases h
      exact .link name inum off place
  · rename_i name r place
    cases h
    exact .leave (same place trivial)
  · rename_i place
    cases h
    exact .leave (same place trivial)

theorem call_acts (h : s.call i task name = some s')
    (knows : (DirPlace.want task name).Knows ninodes s.ents) : Acts ninodes s i s' := by
  unfold call at h
  split_ifs at h with place
  cases h
  exact .call task name place knows

theorem Step.acts (step : s.Step ninodes a s') : ∃ i, Acts ninodes s i s' := by
  unfold Step act at step
  cases a with
  | lookup i name | create i name | unlink i name =>
    exact ⟨i, call_acts step fun _ => trivial⟩
  | link i name inum =>
    dsimp only at step
    split_ifs at step with number
    exact ⟨i, call_acts step fun _ => number⟩
  | alloc i inum =>
    dsimp only at step
    split at step
    · rename_i name place
      split_ifs at step with number
      cases step
      refine ⟨i, .inside _ (place ▸ trivial) trivial fun known => ?_⟩
      rw [place] at known
      exact ⟨Nat.zero_le _, ⟨number, known⟩, fun j de lt => absurd lt (Nat.not_lt_zero j)⟩
    · cases step
  | judge i go =>
    dsimp only at step
    split at step
    · rename_i name off place
      refine ⟨i, ?_⟩
      split_ifs at step
      · cases step
        exact .inside _ (place ▸ trivial) trivial fun _ => trivial
      · cases step
        exact .inside _ (place ▸ trivial) trivial fun _ => nofun
      · cases step
        exact .clear name off place
    · cases step
  | run i => exact ⟨i, run_acts step⟩

/-! ## The invariant -/

structure Mapped (ninodes : Nat) (start : List Dirent) (s : DirSys n) : Prop where
  held : HeldBy DirPlace.Holds s.place s.lock
  known : ∀ i, (s.place i).Knows ninodes s.ents
  distinct : Distinct Dirent.key s.ents
  values : ∀ t, (dirlookup s.ents t).map (fun r => r.2.toNat) = latest start t s.done

variable {start : List Dirent}

/-- Whoever does not hold the lock knows nothing of the directory. -/
theorem Mapped.others (inv : s.Mapped ninodes start) (held : (s.place i).Holds) {j : Fin n}
    (other : j ≠ i) (ents : List Dirent) : (s.place j).Knows ninodes ents := by
  have known := inv.known j
  have out : ¬ (s.place j).Holds := fun holds => other (inv.held.unique holds held)
  cases place : s.place j with
  | out => trivial
  | want task name =>
    rw [place] at known
    exact known
  | _ =>
    rw [place] at out
    exact absurd trivial out

/-- The directory stays as it is. -/
theorem Mapped.move (inv : s.Mapped ninodes start) {x : DirPlace} {lock : Option (Fin n)}
    (move : LockMove i (s.place i).Holds x.Holds s.lock lock)
    (knows : x.Knows ninodes s.ents) :
    ({ s with lock := lock }.at_ i x).Mapped ninodes start where
  held := inv.held.update move
  known := (Function.forall_update_iff s.place fun _ y => y.Knows ninodes s.ents).mpr
    ⟨knows, fun j _ => inv.known j⟩
  distinct := inv.distinct
  values := inv.values

theorem Mapped.change {de : Dirent} {e : DirEvent} (inv : s.Mapped ninodes start)
    (held : (s.place i).Holds) (distinct : Distinct Dirent.key (put s.ents off de))
    (values : ∀ t, (dirlookup (put s.ents off de) t).map (fun r => r.2.toNat) =
      latest start t (e :: s.done)) :
    (s.change i off de e).Mapped ninodes start where
  held := inv.held.update (.keep held trivial _)
  known := (Function.forall_update_iff s.place fun _ y => y.Knows ninodes _).mpr
    ⟨trivial, fun _ other => inv.others held other _⟩
  distinct := distinct
  values := values

theorem Mapped.dirlookup_link (inv : s.Mapped ninodes start) (few : ninodes ≤ 65536)
    (place : s.place i = .write name inum off) (t : List UInt8) :
    dirlookup (put s.ents off (.mk_ name inum)) t =
      if nameKey t = nameKey name then some (off, (Dirent.mk_ name inum).inum)
      else dirlookup s.ents t := by
  have known := inv.known i
  rw [place] at known
  obtain ⟨rfl, number, absent⟩ := known
  exact Xv6.dirlookup_link inv.distinct absent (emptySlot_le _) (fun _ => emptySlot_free) number.1
    (Nat.lt_of_lt_of_le number.2 few) t

theorem Mapped.acts (inv : s.Mapped ninodes start) (few : ninodes ≤ 65536)
    (acts : Acts ninodes s i s') : s'.Mapped ninodes start := by
  cases acts with
  | call task name place knows =>
    refine inv.move (.stay ?_ id _) knows
    rw [place]
    exact id
  | enter x free holds knows =>
    refine inv.move ?_ (knows (inv.known i))
    rw [free]
    exact .take holds
  | inside x held holds knows => exact inv.move (.keep held holds _) (knows (inv.known i))
  | link name inum off place =>
    have known := inv.known i
    rw [place] at known
    have small : inum < 65536 := Nat.lt_of_lt_of_le known.2.1.2 few
    refine inv.change (place ▸ trivial) ?_ fun t => ?_
    · rw [known.1]
      exact distinct_link inv.distinct known.2.2 (emptySlot_le _) known.2.1.1 small
    · rw [inv.dirlookup_link few place, latest]
      split_ifs
      · exact congrArg some (Dirent.inum_mk_ name small)
      · exact inv.values t
  | clear name off place =>
    have known := inv.known i
    rw [place] at known
    obtain ⟨de, at_, key⟩ := known
    refine inv.change (place ▸ trivial) ?_ fun t => ?_
    · exact distinct_clear inv.distinct (List.getElem?_eq_some_iff.mp at_).1
    · rw [dirlookup_clear inv.distinct at_ key, latest]
      split_ifs
      · rfl
      · exact inv.values t
  | leave held => exact inv.move (.drop held id _) trivial

theorem mapped_init (n ninodes : Nat) (distinct : Distinct Dirent.key start) :
    (init n start).Mapped ninodes start where
  held := fun _ => ⟨False.elim, nofun⟩
  known := fun _ => trivial
  distinct := distinct
  values := fun _ => rfl

theorem Mapped.of_run (few : ninodes ≤ 65536) (distinct : Distinct Dirent.key start)
    (run : Run (Step ninodes) anyStep (init n start) s) : s.Mapped ninodes start := by
  refine Run.invariant run _ (mapped_init n ninodes distinct) fun s a s' inv _ step => ?_
  obtain ⟨i, acts⟩ := step.acts
  exact inv.acts few acts

/-- What one step does to the lookups and to the size. -/
structure Kept (s s' : DirSys n) : Prop where
  size : s.ents.length ≤ s'.ents.length
  reuse : s.ents.length < s'.ents.length → ∀ de ∈ s.ents, de.inum ≠ 0
  others : ∃ new, s'.done = new ++ s.done ∧ ∀ t, (∀ e ∈ new, nameKey t ≠ nameKey e.name) →
    dirlookup s'.ents t = dirlookup s.ents t

theorem Kept.of_same (ents : s'.ents = s.ents) (done : s'.done = s.done) : Kept s s' where
  size := ents ▸ Nat.le_refl _
  reuse := fun more => absurd more (ents ▸ Nat.lt_irrefl _)
  others := ⟨[], done, fun _ _ => ents ▸ rfl⟩

theorem Mapped.kept (inv : s.Mapped ninodes start) (few : ninodes ≤ 65536)
    (acts : Acts ninodes s i s') : Kept s s' := by
  have known := inv.known i
  cases acts with
  | link name inum off place =>
    rw [place] at known
    refine ⟨length_put_le .., fun more de member free => ?_, [.linked name inum], rfl, ?_⟩
    · have inside : emptySlot s.ents < s.ents.length :=
        List.findIdx_lt_length_of_exists ⟨de, member, decide_eq_true free⟩
      rw [← known.1] at inside
      exact absurd more (Nat.not_lt.mpr (Nat.le_of_eq (length_put inside _)))
    · intro t apart
      exact (inv.dirlookup_link few place t).trans (if_neg (apart _ List.mem_cons_self))
  | clear name off place =>
    rw [place] at known
    obtain ⟨de, at_, key⟩ := known
    have inside := (List.getElem?_eq_some_iff.mp at_).1
    refine ⟨length_put_le .., fun more => ?_, [.unlinked name], rfl, fun t apart => ?_⟩
    · exact absurd more (Nat.not_lt.mpr (Nat.le_of_eq (length_put inside _)))
    · exact (dirlookup_clear inv.distinct at_ key t).trans (if_neg (apart _ List.mem_cons_self))
  | _ => exact .of_same rfl rfl

/-- **A directory is a finite map.**  In a file system with at most 65536 inodes, whatever
processes do in a directory whose names are distinct, the names stay distinct, and `dirlookup`
finds a number for a name exactly if the last successful change to a name that agrees with it
has linked that number.  A step changes the lookups of the names of its own changes only, the
directory never shrinks, and it grows only if it has no free entry. -/
theorem directory_map (few : ninodes ≤ 65536) (distinct : Distinct Dirent.key start)
    (run : Run (Step ninodes) anyStep (init n start) s) :
    Distinct Dirent.key s.ents ∧
      (∀ t i, (∃ off, dirlookup s.ents t = some (off, i)) ↔
        latest start t s.done = some i.toNat) ∧
      (∀ i t r, s.place i = .answer t r → r = dirlookup s.ents t) ∧
      (∀ i, s.place i ≠ .panic .createDirlink) ∧
      ∀ a s', s.Step ninodes a s' → Kept s s' := by
  have inv := Mapped.of_run few distinct run
  refine ⟨inv.distinct, fun t i => ?_, fun i t r place => ?_, fun i place => ?_, fun a s' step => ?_⟩
  · rw [← inv.values t, Option.map_eq_some_iff]
    constructor
    · rintro ⟨off, found⟩
      exact ⟨(off, i), found, rfl⟩
    · rintro ⟨⟨off, j⟩, found, same⟩
      obtain rfl : j = i := UInt16.toNat_inj.mp same
      exact ⟨off, found⟩
  · have known := inv.known i
    rw [place] at known
    exact known
  · have known := inv.known i
    rw [place] at known
    exact known rfl
  · obtain ⟨j, acts⟩ := step.acts
    exact inv.kept few acts

/-- The digits from 1 on. -/
def digits (n : Nat) : List UInt8 := (List.range n).map fun i => .ofNat (49 + i % 9)

/-- A name of 15 bytes is linked; the first 14 of them find the inode. -/
theorem directory_map_fourteen : ∃ s : DirSys 2,
    Run (Step 200) anyStep (init 2 []) s ∧ latest [] (digits 14) s.done = some 7 ∧
      ∃ off, dirlookup s.ents (digits 14) = some (off, 7) := by
  have found : (follow (act 200) [.link 0 (digits 15) 7, .run 0, .run 0, .run 0, .run 0, .run 0]
      (init 2 [])).any (fun s => latest [] (digits 14) s.done = some 7) = true := by
    decide +kernel
  obtain ⟨s, run, linked⟩ := Run.follow_any (Step 200) anyStep (fun _ _ _ h => ⟨trivial, h⟩) found
  have empty : Distinct Dirent.key [] := nofun
  refine ⟨s, run, of_decide_eq_true linked, ?_⟩
  exact ((directory_map (by decide) empty run).2.1 (digits 14) 7).mpr (of_decide_eq_true linked)

end DirSys

end RandomRepo.Xv6

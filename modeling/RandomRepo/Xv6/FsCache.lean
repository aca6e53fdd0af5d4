import Mathlib.Algebra.Order.BigOperators.Group.Finset
import RandomRepo.Xv6.Fs

/-!
# References to cached inodes

The reference count of a slot of the inode cache is the number of open files and current
directories that stand for it, plus the references that the running call has in its local
variables.  `Mid T H s` says so in the middle of a call: `T` are the tables, which the functions of
`fs.c` leave alone, and `H` are the references in local variables.

Each function below has one triple: what `H` is before it and what it is when it returns.
-/

namespace RandomRepo.Xv6

variable {T : Tables} {U : Nat → Nat} {H H' : Multiset Nat} {s s' : Fs} {x n ninodes i : Nat}

/-- One reference, if the file holds it to `r`. -/
def File.holds (ff : File) (r : Resource) : Nat := if Resource.ofFile ff = some r then 1 else 0

/-- The open files that stand for a resource. -/
@[irreducible] def Files.live (fs : Files) (r : Resource) : Nat :=
  ∑ f ∈ Finset.range nfile, (fs.file f).holds r

/-- The processes with slot `x` as their current directory. -/
@[irreducible] def cwdRefs (cwd : Nat → Option Nat) (x : Nat) : Nat :=
  ∑ i ∈ Finset.range nproc, if cwd i = some x then 1 else 0

def Tables.users (t : Tables) (x : Nat) : Nat := t.files.live (.inode x) + cwdRefs t.cwd x

/-- The reference counts, `U x` being the number of files and current directories for slot `x`. -/
structure Balanced (U : Nat → Nat) (H : Multiset Nat) (s : Fs) : Prop where
  balanced : ∀ x, (s.inode x).ref = U x + H.count x
  unique : ∀ x y, 0 < (s.inode x).ref → 0 < (s.inode y).ref →
    (s.inode x).inum = (s.inode y).inum → x = y
  bound : ∀ x, 0 < (s.inode x).ref → x < ninode

structure Mid (T : Tables) (H : Multiset Nat) (s : Fs) : Prop where
  tab : s.tab = T
  refs : Balanced T.users H s

/-- The reasons to halt that are not panics of `filedup` and `fileclose`. -/
def Tame (e : FsHalt) : Prop :=
  e ≠ .kernel (.panic .filedup) ∧ e ≠ .kernel (.panic .fileclose)

theorem Tame.panic (p : FsPanic) : Tame (.panic p) := ⟨nofun, nofun⟩

theorem Tame.hang : Tame (.kernel .hang) := ⟨nofun, nofun⟩

theorem Tame.null : Tame (.kernel .null) := ⟨nofun, nofun⟩

/-! ## Changes of one slot -/

theorem Fs.setInode_self {ip : Inode} : (s.setInode x ip).inode x = ip :=
  Function.update_self _ _ _

theorem Fs.setInode_other {ip : Inode} {y : Nat} (other : y ≠ x) :
    (s.setInode x ip).inode y = s.inode y :=
  Function.update_of_ne other _ _

/-- What the new inode has in common with the old one is the same in every slot. -/
theorem Fs.setInode_keeps {β : Type} {ip : Inode} (f : Inode → β) (same : f ip = f (s.inode x))
    (y : Nat) : f ((s.setInode x ip).inode y) = f (s.inode y) := by
  by_cases here : y = x
  · rw [here, setInode_self, same]
  · rw [setInode_other here]

/-- The slot keeps its inode, or it was free and gets one that is not cached. -/
theorem Balanced.setInode {ip : Inode} (mid : Balanced U H s) (hx : x < ninode)
    (here : ip.ref = U x + H'.count x) (others : ∀ y, y ≠ x → H'.count y = H.count y)
    (inum : 0 < ip.ref → ip.inum = (s.inode x).inum ∧ 0 < (s.inode x).ref ∨
      ∀ y, y ≠ x → 0 < (s.inode y).ref → (s.inode y).inum ≠ ip.inum) :
    Balanced U H' (s.setInode x ip) := by
  have apart : ∀ y, y ≠ x → 0 < (s.inode y).ref → 0 < ip.ref →
      (s.inode y).inum ≠ ip.inum := by
    intro y other used live same
    rcases inum live with ⟨old, was⟩ | new
    · exact other (mid.unique y x used was (same.trans old))
    · exact new y other used same
  refine ⟨fun y => ?_, fun y z => ?_, fun y => ?_⟩
  · by_cases hy : y = x
    · rw [hy, Fs.setInode_self]
      exact here
    · rw [Fs.setInode_other hy, others y hy]
      exact mid.balanced y
  · by_cases hy : y = x <;> by_cases hz : z = x
    · exact fun _ _ _ => hy.trans hz.symm
    · rw [hy, Fs.setInode_self, Fs.setInode_other hz]
      exact fun live used same => absurd same.symm (apart z hz used live)
    · rw [hz, Fs.setInode_self, Fs.setInode_other hy]
      exact fun used live same => absurd same (apart y hy used live)
    · rw [Fs.setInode_other hy, Fs.setInode_other hz]
      exact mid.unique y z
  · by_cases hy : y = x
    · exact fun _ => hy ▸ hx
    · rw [Fs.setInode_other hy]
      exact mid.bound y

theorem Balanced.setDisk (mid : Balanced U H s) (D : FsDisk) : Balanced U H { s with disk := D } :=
  ⟨mid.balanced, mid.unique, mid.bound⟩

/-- What is not counted may change. -/
theorem Balanced.same {ip : Inode} (mid : Balanced U H s) (ref : ip.ref = (s.inode x).ref)
    (inum : ip.inum = (s.inode x).inum) : Balanced U H (s.setInode x ip) := by
  have refs := Fs.setInode_keeps Inode.ref ref
  have inums := Fs.setInode_keeps Inode.inum inum
  refine ⟨fun y => ?_, fun y z => ?_, fun y => ?_⟩
  · rw [refs]
    exact mid.balanced y
  · rw [refs, refs, inums, inums]
    exact mid.unique y z
  · rw [refs]
    exact mid.bound y

theorem Balanced.take {ip : Inode} (mid : Balanced U H s) (live : 0 < (s.inode x).ref)
    (ref : ip.ref = (s.inode x).ref + 1) (inum : ip.inum = (s.inode x).inum) :
    Balanced U (x ::ₘ H) (s.setInode x ip) := by
  refine mid.setInode (mid.bound x live) ?_ (fun y other => ?_) fun _ => .inl ⟨inum, live⟩
  · rw [ref, mid.balanced, Multiset.count_cons_self, Nat.add_assoc]
  · rw [Multiset.count_cons_of_ne other]

theorem Balanced.drop {ip : Inode} (mid : Balanced U (x ::ₘ H) s)
    (ref : ip.ref = (s.inode x).ref - 1) (inum : ip.inum = (s.inode x).inum) :
    Balanced U H (s.setInode x ip) := by
  have here := mid.balanced x
  rw [Multiset.count_cons_self] at here
  refine mid.setInode (mid.bound x (by omega)) (by omega) (fun y other => ?_) ?_
  · rw [Multiset.count_cons_of_ne other]
  · exact fun _ => .inl ⟨inum, by omega⟩

/-! ## Inodes -/

theorem iget_cases (h : iget n s = .ok (x, s')) :
    x < ninode ∧
      (0 < (s.inode x).ref ∧ (s.inode x).inum = n ∧
          s' = s.setInode x { s.inode x with ref := (s.inode x).ref + 1 } ∨
        (s.inode x).ref = 0 ∧ (∀ y, y < ninode → 0 < (s.inode y).ref → (s.inode y).inum ≠ n) ∧
          s' = s.setInode x { s.inode x with inum := n, ref := 1, valid := false }) := by
  unfold iget at h
  rw [get_bind_run] at h
  cases hit : (List.range ninode).find? fun x => 0 < (s.inode x).ref ∧ (s.inode x).inum = n with
  | some y =>
    rw [hit] at h
    cases h
    have here : 0 < (s.inode x).ref ∧ (s.inode x).inum = n := by simpa using List.find?_some hit
    exact ⟨List.mem_range.mp (List.mem_of_find?_eq_some hit), .inl ⟨here.1, here.2, rfl⟩⟩
  | none =>
    rw [hit] at h
    cases empty : (List.range ninode).find? fun x => (s.inode x).ref = 0 with
    | none =>
      dsimp only at h
      rw [empty] at h
      cases h
    | some y =>
      dsimp only at h
      rw [empty] at h
      cases h
      have free : (s.inode x).ref = 0 := by simpa using List.find?_some empty
      refine ⟨List.mem_range.mp (List.mem_of_find?_eq_some empty), .inr ⟨free, ?_, rfl⟩⟩
      intro y hy used same
      have := List.find?_eq_none.mp hit y (List.mem_range.mpr hy)
      simp only [decide_eq_true_eq] at this
      exact this ⟨used, same⟩

theorem iget_error {e : FsHalt} (h : iget n s = .error e) : e = .panic .igetNoInodes := by
  unfold iget at h
  rw [get_bind_run] at h
  cases hit : (List.range ninode).find? fun x => 0 < (s.inode x).ref ∧ (s.inode x).inum = n with
  | some y =>
    rw [hit] at h
    cases h
  | none =>
    rw [hit] at h
    dsimp only at h
    cases empty : (List.range ninode).find? fun x => (s.inode x).ref = 0 with
    | none =>
      rw [empty] at h
      cases h
      rfl
    | some y =>
      rw [empty] at h
      cases h

theorem iget_tame (s : Fs) (e : FsHalt) (h : iget n s = .error e) : Tame e :=
  iget_error h ▸ .panic _

theorem iget_refs : Triple (Mid T H) (iget n) (fun x => Mid T (x ::ₘ H)) Tame := by
  refine .of_runs iget_tame fun s x s' mid run => ?_
  obtain ⟨hx, ⟨live, -, rfl⟩ | ⟨free, new, rfl⟩⟩ := iget_cases run
  · exact ⟨mid.tab, mid.refs.take live rfl rfl⟩
  · have here := mid.refs.balanced x
    refine ⟨mid.tab, mid.refs.setInode hx ?_ (fun y other => ?_) fun _ => .inr fun y _ used => ?_⟩
    · rw [Multiset.count_cons_self]
      show 1 = _
      omega
    · rw [Multiset.count_cons_of_ne other]
    · exact new y (mid.refs.bound y used) used

theorem inodeAt_run {α : Type} (x : Nat) (g : Inode → FsM α) (s : Fs) :
    (inodeAt x >>= g) s = g (s.inode x) s := rfl

theorem inodeAt_refs : Triple (Mid T H) (inodeAt x) (fun _ => Mid T H) Tame := by
  refine .of_runs (fun s e halt => nomatch halt) fun s ip s' mid run => ?_
  cases run
  exact mid

theorem ilock_cases (h : ilock x s = .ok ((), s')) :
    0 < (s.inode x).ref ∧
      ((s.inode x).valid = true ∧ s' = s.setInode x { s.inode x with locked := true } ∨
        (s.inode x).valid = false ∧ (s.disk.dinode (s.inode x).inum).type ≠ .none ∧
          s' = s.setInode x { s.inode x with
            locked := true, valid := true, copy := s.disk.dinode (s.inode x).inum }) := by
  unfold ilock at h
  rw [get_bind_run] at h
  dsimp only at h
  split_ifs at h with none_ held valid free
  · cases h
  · cases h
  · cases h
    exact ⟨by omega, .inl ⟨valid, rfl⟩⟩
  · cases h
  · cases h
    exact ⟨by omega, .inr ⟨by simpa using valid, free, rfl⟩⟩

theorem ilock_tame (s : Fs) (e : FsHalt) (h : ilock x s = .error e) : Tame e := by
  unfold ilock at h
  rw [get_bind_run] at h
  dsimp only at h
  split_ifs at h
  · cases h
    exact .panic _
  · cases h
    exact .hang
  · cases h
  · cases h
    exact .panic _
  · cases h

theorem ilock_refs : Triple (Mid T H) (ilock x) (fun _ => Mid T H) Tame := by
  refine .of_runs ilock_tame fun s _ s' mid run => ?_
  obtain ⟨-, ⟨-, rfl⟩ | ⟨-, -, rfl⟩⟩ := ilock_cases run
  · exact ⟨mid.tab, mid.refs.same rfl rfl⟩
  · exact ⟨mid.tab, mid.refs.same rfl rfl⟩

theorem iunlock_cases (h : iunlock x s = .ok ((), s')) :
    s' = s.setInode x { s.inode x with locked := false } := by
  unfold iunlock at h
  rw [inodeAt_run] at h
  split_ifs at h
  · cases h
  · cases h
    rfl

theorem iunlock_error {e : FsHalt} (h : iunlock x s = .error e) : e = .panic .iunlock := by
  unfold iunlock at h
  rw [inodeAt_run] at h
  split_ifs at h
  · cases h
    rfl
  · cases h

theorem iunlock_tame (s : Fs) (e : FsHalt) (h : iunlock x s = .error e) : Tame e :=
  iunlock_error h ▸ .panic _

theorem iunlock_refs : Triple (Mid T H) (iunlock x) (fun _ => Mid T H) Tame := by
  refine .of_runs iunlock_tame fun s _ s' mid run => ?_
  obtain rfl := iunlock_cases run
  exact ⟨mid.tab, mid.refs.same rfl rfl⟩

theorem idup_cases (h : idup x s = .ok ((), s')) :
    s' = s.setInode x { s.inode x with ref := (s.inode x).ref + 1 } := by
  cases h
  rfl

theorem iput_cases (h : iput x s = .ok ((), s')) :
    (s.inode x).valid = true ∧ (s.inode x).copy.nlink = 0 ∧ (s.inode x).ref = 1 ∧
        s' = { s with disk := s.disk.free (s.inode x).inum (s.inode x).copy }.setInode x
          { s.inode x with
            copy := { (s.inode x).copy with type := .none }, valid := false, ref := 0 } ∨
      ¬ ((s.inode x).valid = true ∧ (s.inode x).copy.nlink = 0 ∧ (s.inode x).ref = 1) ∧
        s' = s.setInode x { s.inode x with ref := (s.inode x).ref - 1 } := by
  unfold iput at h
  rw [get_bind_run] at h
  dsimp only at h
  split_ifs at h with held last
  · cases h
  · cases h
    exact .inl ⟨last.1, last.2.1, last.2.2, rfl⟩
  · cases h
    exact .inr ⟨last, rfl⟩

theorem iput_error {e : FsHalt} (h : iput x s = .error e) : e = .kernel .hang := by
  unfold iput at h
  rw [get_bind_run] at h
  dsimp only at h
  split_ifs at h
  · cases h
    rfl
  · cases h
  · cases h

theorem iput_tame (s : Fs) (e : FsHalt) (h : iput x s = .error e) : Tame e :=
  iput_error h ▸ .hang

theorem Balanced.iput (refs : Balanced U (x ::ₘ H) s) (run : Xv6.iput x s = .ok ((), s')) :
    s'.tab = s.tab ∧ Balanced U H s' := by
  rcases iput_cases run with ⟨-, -, one, rfl⟩ | ⟨-, rfl⟩
  · exact ⟨rfl, (refs.setDisk _).drop (by show 0 = (s.inode x).ref - 1; omega) rfl⟩
  · exact ⟨rfl, refs.drop rfl rfl⟩

theorem iput_refs : Triple (Mid T (x ::ₘ H)) (iput x) (fun _ => Mid T H) Tame := by
  refine .of_runs iput_tame fun s _ s' mid run => ?_
  obtain ⟨tab, refs⟩ := mid.refs.iput run
  exact ⟨tab.trans mid.tab, refs⟩

theorem iunlockput_refs : Triple (Mid T (x ::ₘ H)) (iunlockput x) (fun _ => Mid T H) Tame :=
  .bind iunlock_refs fun _ => iput_refs

theorem setNlink_cases {k : Int} (h : setNlink x k s = .ok ((), s')) :
    s' = { s.setInode x { s.inode x with copy := { (s.inode x).copy with nlink := k } } with
      disk := s.disk.setDinode (s.inode x).inum { (s.inode x).copy with nlink := k } } := by
  cases h
  simp [Fs.setInode]

theorem setNlink_refs {k : Int} : Triple (Mid T H) (setNlink x k) (fun _ => Mid T H) Tame := by
  refine .of_runs (fun s e halt => nomatch halt) fun s _ s' mid run => ?_
  obtain rfl := setNlink_cases run
  refine ⟨mid.tab, Balanced.setDisk (s := s.setInode x _) (mid.refs.same ?_ ?_) _⟩ <;> rfl

theorem ialloc_refs {type : Itype} :
    Triple (Mid T H) (ialloc ninodes type) (fun x => Mid T (x ::ₘ H)) Tame := by
  refine .get_bind fun s mid => ?_
  split
  · exact .throw (.panic _)
  · refine .bind (R := fun _ => Mid T H) (.modify fun t same => ?_) fun _ => iget_refs
    rw [same]
    exact ⟨mid.tab, mid.refs.setDisk _⟩

/-! ## Directories and path names -/

theorem dirget_refs {name : List UInt8} : Triple (Mid T H) (dirget x name)
    (fun r => match r with
      | none => Mid T H
      | some (_, y) => Mid T (y ::ₘ H)) Tame := by
  refine .get_bind fun s mid => ?_
  dsimp only
  split_ifs
  · exact .throw (.panic _)
  · split
    · exact .pure fun t same => same ▸ mid
    · exact .bind (iget_refs.pre fun t same => same ▸ mid) fun y => .pure fun t => id

theorem dirlink_refs {name : List UInt8} :
    Triple (Mid T H) (dirlink x name n) (fun _ => Mid T H) Tame := by
  refine .bind dirget_refs fun r => ?_
  cases r with
  | some found => exact .bind iput_refs fun _ => .pure fun t => id
  | none =>
    refine .get_bind fun s mid => ?_
    dsimp only
    split_ifs
    · exact .throw (.panic _)
    · refine .bind (R := fun _ => Mid T H) (.modify fun t same => ?_) fun _ => .pure fun t => id
      rw [same]
      exact ⟨mid.tab, mid.refs.setDisk _⟩

theorem namexLoop_refs {parent : Bool} (fuel : Nat) (path : List UInt8) (x : Nat) :
    Triple (Mid T (x ::ₘ H)) (namexLoop parent fuel path x)
      (fun r => match r with
        | none => Mid T H
        | some (y, _) => Mid T (y ::ₘ H)) Tame := by
  induction fuel generalizing path x with
  | zero => exact .throw .hang
  | succ fuel ih =>
    rw [namexLoop]
    split
    · split_ifs
      · exact .bind iput_refs fun _ => .pure fun t => id
      · exact .pure fun t => id
    · rename_i name rest _
      refine .bind ilock_refs fun _ => .bind inodeAt_refs fun d => ?_
      split_ifs
      · exact .bind iunlockput_refs fun _ => .pure fun t => id
      · exact .bind iunlock_refs fun _ => .pure fun t => id
      · refine .bind dirget_refs fun r => ?_
        cases r with
        | none => exact .bind iunlockput_refs fun _ => .pure fun t => id
        | some found =>
          obtain ⟨off, next⟩ := found
          refine .bind (iunlockput_refs.pre fun t mid => ?_) fun _ => ih rest next
          rw [Multiset.cons_swap]
          exact mid

theorem Tables.users_cwd (hi : i < nproc) (cwd : T.cwd i = some x) : 0 < T.users x := by
  have one : 1 ≤ cwdRefs T.cwd x := by
    unfold cwdRefs
    have := Finset.single_le_sum (f := fun j => if T.cwd j = some x then 1 else 0)
      (fun _ _ => Nat.zero_le _) (Finset.mem_range.mpr hi)
    rwa [if_pos cwd] at this
  rw [Tables.users]
  omega

theorem Balanced.cwd_live (refs : Balanced T.users H s) (hi : i < nproc) (cwd : T.cwd i = some x) :
    0 < (s.inode x).ref := by
  have used := Tables.users_cwd hi cwd
  rw [refs.balanced]
  omega

/-- One more reference to the current directory of a process. -/
theorem idup_refs (hi : i < nproc) (cwd : T.cwd i = some x) :
    Triple (Mid T H) (idup x) (fun _ => Mid T (x ::ₘ H)) Tame := by
  refine .of_runs (fun s e halt => nomatch halt) fun s _ s' mid run => ?_
  obtain rfl := idup_cases run
  exact ⟨mid.tab, mid.refs.take (mid.refs.cwd_live hi cwd) rfl rfl⟩

theorem namex_refs {parent : Bool} {path : List UInt8} (hi : i < nproc) :
    Triple (Mid T H) (namex i parent path)
      (fun r => match r with
        | none => Mid T H
        | some (y, _) => Mid T (y ::ₘ H)) Tame := by
  refine .get_bind fun s mid => ?_
  split_ifs
  · exact .bind (iget_refs.pre fun t same => same ▸ mid) fun y => namexLoop_refs _ _ _
  · split
    · exact .throw .null
    · rename_i y cwd
      rw [mid.tab] at cwd
      exact .bind ((idup_refs hi cwd).pre fun t same => same ▸ mid) fun _ => namexLoop_refs _ _ _

theorem namei_refs {path : List UInt8} (hi : i < nproc) :
    Triple (Mid T H) (namei i path)
      (fun r => match r with
        | none => Mid T H
        | some y => Mid T (y ::ₘ H)) Tame := by
  refine .bind (namex_refs hi) fun r => .pure fun t => ?_
  cases r <;> exact id

/-! ## Calls that name files -/

theorem mkdots_refs {dp ip : Nat} :
    Triple (Mid T H) (mkdots dp ip) (fun _ => Mid T H) Tame := by
  refine .bind inodeAt_refs fun d => .bind setNlink_refs fun _ => .bind inodeAt_refs fun self =>
    .bind dirlink_refs fun one => ?_
  split_ifs
  · exact .throw (.panic _)
  · refine .bind dirlink_refs fun two => ?_
    split_ifs
    · exact .throw (.panic _)
    · exact .pure fun t => id

theorem createNew_refs {dp : Nat} {name : List UInt8} {type : Itype} :
    Triple (Mid T (dp ::ₘ H)) (createNew ninodes dp name type) (fun y => Mid T (y ::ₘ H))
      Tame := by
  refine .bind ialloc_refs fun ip => .bind ilock_refs fun _ => .bind setNlink_refs fun _ => ?_
  refine .bind (R := fun _ => Mid T (ip ::ₘ dp ::ₘ H)) ?_ fun _ => ?_
  · split_ifs
    · exact mkdots_refs
    · exact .pure fun t => id
  · refine .bind inodeAt_refs fun self => .bind dirlink_refs fun linked => ?_
    split_ifs
    · exact .throw (.panic _)
    · refine .bind (iunlockput_refs.pre fun t mid => ?_) fun _ => .pure fun t => id
      rw [Multiset.cons_swap]
      exact mid

theorem create_refs {path : List UInt8} {type : Itype} (hi : i < nproc) :
    Triple (Mid T H) (create ninodes i path type)
      (fun r => match r with
        | none => Mid T H
        | some y => Mid T (y ::ₘ H)) Tame := by
  refine .bind (namex_refs hi) fun r => ?_
  cases r with
  | none => exact .pure fun t => id
  | some parent =>
    obtain ⟨dp, name⟩ := parent
    refine .bind ilock_refs fun _ => .bind dirget_refs fun found => ?_
    cases found with
    | none => exact .bind createNew_refs fun ip => .pure fun t => id
    | some found =>
      obtain ⟨off, ip⟩ := found
      refine .bind (R := fun _ => Mid T (ip ::ₘ H)) (iunlockput_refs.pre fun t mid => ?_)
        fun _ => .bind ilock_refs fun _ => .bind inodeAt_refs fun self => ?_
      · rw [Multiset.cons_swap]
        exact mid
      · split_ifs
        · exact .pure fun t => id
        · exact .bind iunlockput_refs fun _ => .pure fun t => id

theorem linkBad_refs {ip : Nat} :
    Triple (Mid T (ip ::ₘ H)) (linkBad ip) (fun _ => Mid T H) Tame :=
  .bind ilock_refs fun _ => .bind inodeAt_refs fun _ => .bind setNlink_refs fun _ =>
    .bind iunlockput_refs fun _ => .pure fun _ => id

theorem sysLink_refs {arg : Option (List UInt8 × List UInt8)} (hi : i < nproc) :
    Triple (Mid T H) (sysLink i arg) (fun _ => Mid T H) Tame := by
  cases arg with
  | none => exact .pure fun t => id
  | some paths =>
    refine .bind (namei_refs hi) fun r => ?_
    cases r with
    | none => exact .pure fun t => id
    | some ip =>
      refine .bind ilock_refs fun _ => .bind inodeAt_refs fun self => ?_
      split_ifs
      · exact .bind iunlockput_refs fun _ => .pure fun t => id
      · refine .bind setNlink_refs fun _ => .bind iunlock_refs fun _ =>
          .bind (namex_refs hi) fun r => ?_
        cases r with
        | none => exact linkBad_refs
        | some parent =>
          obtain ⟨dp, name⟩ := parent
          refine .bind ilock_refs fun _ => .bind dirlink_refs fun linked => ?_
          split_ifs
          · exact .bind iunlockput_refs fun _ => linkBad_refs
          · exact .bind iunlockput_refs fun _ => .bind iput_refs fun _ => .pure fun t => id

theorem unlinkBad_refs {dp : Nat} :
    Triple (Mid T (dp ::ₘ H)) (unlinkBad dp) (fun _ => Mid T H) Tame :=
  .bind iunlockput_refs fun _ => .pure fun _ => id

theorem unlinkGo_refs {dp off ip : Nat} :
    Triple (Mid T (ip ::ₘ dp ::ₘ H)) (unlinkGo dp off ip) (fun _ => Mid T H) Tame := by
  refine .get_bind fun s mid => ?_
  dsimp only
  split_ifs
  all_goals first | exact .throw (.panic _) | skip
  all_goals
    refine .bind (R := fun _ => Mid T (dp ::ₘ ip ::ₘ H)) (.modify fun t same => ?_) fun _ => ?_
  · rw [same, Multiset.cons_swap]
    exact ⟨mid.tab, mid.refs.setDisk _⟩
  · exact .bind setNlink_refs fun _ => .bind iunlockput_refs fun _ => .bind inodeAt_refs fun _ =>
      .bind setNlink_refs fun _ => .bind iunlockput_refs fun _ => .pure fun _ => id
  · rw [same, Multiset.cons_swap]
    exact ⟨mid.tab, mid.refs.setDisk _⟩
  · exact .bind (.pure fun _ => id) fun _ => .bind iunlockput_refs fun _ =>
      .bind inodeAt_refs fun _ => .bind setNlink_refs fun _ => .bind iunlockput_refs fun _ =>
      .pure fun _ => id

theorem sysUnlink_refs {arg : Option (List UInt8)} (hi : i < nproc) :
    Triple (Mid T H) (sysUnlink i arg) (fun _ => Mid T H) Tame := by
  cases arg with
  | none => exact .pure fun t => id
  | some path =>
    refine .bind (namex_refs hi) fun r => ?_
    cases r with
    | none => exact .pure fun t => id
    | some parent =>
      obtain ⟨dp, name⟩ := parent
      refine .bind ilock_refs fun _ => ?_
      split_ifs
      · exact unlinkBad_refs
      · refine .bind dirget_refs fun found => ?_
        cases found with
        | none => exact unlinkBad_refs
        | some found =>
          obtain ⟨off, ip⟩ := found
          refine .bind ilock_refs fun _ => .get_bind fun s mid => ?_
          dsimp only
          split_ifs
          · exact .throw (.panic _)
          · exact .bind (iunlockput_refs.pre fun t same => same ▸ mid) fun _ => unlinkBad_refs
          · exact unlinkGo_refs.pre fun t same => same ▸ mid

/-- The end of `sys_mkdir` and of `sys_mknod`. -/
theorem createPut_refs {path : List UInt8} {type : Itype} (hi : i < nproc) :
    Triple (Mid T H)
      (do
        let r ← create ninodes i path type
        match r with
        | none => return FsReply.failed
        | some ip => do
          iunlockput ip
          return FsReply.value 0)
      (fun _ => Mid T H) Tame := by
  refine .bind (create_refs hi) fun r => ?_
  cases r with
  | none => exact .pure fun t => id
  | some ip => exact .bind iunlockput_refs fun _ => .pure fun t => id

theorem sysMkdir_refs {arg : Option (List UInt8)} (hi : i < nproc) :
    Triple (Mid T H) (sysMkdir ninodes i arg) (fun _ => Mid T H) Tame := by
  cases arg with
  | none => exact .pure fun t => id
  | some path => exact createPut_refs hi

theorem sysMknod_refs {arg : Option (List UInt8)} (hi : i < nproc) :
    Triple (Mid T H) (sysMknod ninodes i arg) (fun _ => Mid T H) Tame := by
  cases arg with
  | none => exact .pure fun t => id
  | some path => exact createPut_refs hi

theorem execFile_refs {loads : Bool} {arg : Option (List UInt8)} (hi : i < nproc) :
    Triple (Mid T H) (execFile i loads arg) (fun _ => Mid T H) Tame := by
  cases arg with
  | none => exact .pure fun t => id
  | some path =>
    refine .bind (namei_refs hi) fun r => ?_
    cases r with
    | none => exact .pure fun t => id
    | some ip => exact .bind ilock_refs fun _ => .bind iunlockput_refs fun _ => .pure fun t => id

theorem openInode_refs {path : List UInt8} {omode : UInt32} (hi : i < nproc) :
    Triple (Mid T H) (openInode ninodes i path omode)
      (fun r => match r with
        | none => Mid T H
        | some y => Mid T (y ::ₘ H)) Tame := by
  unfold openInode
  split_ifs
  · exact create_refs hi
  · refine .bind (namei_refs hi) fun r => ?_
    cases r with
    | none => exact .pure fun t => id
    | some ip =>
      refine .bind ilock_refs fun _ => .bind inodeAt_refs fun self => ?_
      split_ifs
      · exact .bind iunlockput_refs fun _ => .pure fun t => id
      · exact .pure fun t => id

end RandomRepo.Xv6

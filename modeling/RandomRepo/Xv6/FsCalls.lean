import RandomRepo.Lib.Run
import RandomRepo.Xv6.FsTables

/-!
# Reference counts between calls

Every call of the file system keeps `Tables.Good` of the tables, with no reference left in a local
variable, and the reference counts of the inode cache in balance with the tables.  A call that
fails leaves the descriptors and the references to inodes as they were (`Kept`).
-/

namespace RandomRepo.Xv6

variable {T T' : Tables} {F H H' : Multiset Nat} {U U' : Nat → Nat} {s s' : Fs}
  {f i n x ninodes : Nat} {r : FsReply}

/-- The state after a call that started with the tables `T`. -/
structure Kept (T : Tables) (r : FsReply) (s : Fs) : Prop where
  good : s.tab.Good 0
  refs : Balanced s.tab.users 0 s
  failed : r = .failed → s.tab.proc = T.proc ∧ s.tab.users = T.users

theorem Mid.kept (mid : Mid T 0 s) (good : T.Good 0) : Kept T r s := by
  obtain ⟨rfl, refs⟩ := mid
  exact ⟨good, refs, fun _ => ⟨rfl, rfl⟩⟩

/-- A call that leaves the tables alone. -/
theorem kept_of_refs {call : FsM FsReply} (good : T.Good 0)
    (triple : Triple (Mid T 0) call (fun _ => Mid T 0) Tame) :
    Triple (Mid T 0) call (fun r => Kept T r) Tame :=
  triple.mono (fun _ => id) fun _ _ mid => mid.kept good

/-- References move between the tables and the local variables. -/
theorem Balanced.retab (refs : Balanced U H s)
    (moved : ∀ x, U' x + H'.count x = U x + H.count x) : Balanced U' H' s :=
  ⟨fun x => (refs.balanced x).trans (moved x).symm, refs.unique, refs.bound⟩

theorem Mid.modifyTab {g : Tables → Tables} (mid : Mid T H s)
    (moved : ∀ x, (g T).users x + H'.count x = T.users x + H.count x) :
    Mid (g T) H' { s with tab := g s.tab } := by
  obtain ⟨rfl, refs⟩ := mid
  have same : Balanced s.tab.users H { s with tab := g s.tab } :=
    ⟨refs.balanced, refs.unique, refs.bound⟩
  exact ⟨rfl, same.retab moved⟩

theorem modifyTab_moves {g : Tables → Tables} (H' : Multiset Nat)
    (moved : ∀ x, (g T).users x + H'.count x = T.users x + H.count x) :
    Triple (Mid T H) (modifyTab g) (fun _ => Mid (g T) H') Tame :=
  .modify fun _ mid => mid.modifyTab moved

theorem modifyTab_refs {g : Tables → Tables} (same : (g T).users = T.users) :
    Triple (Mid T H) (modifyTab g) (fun _ => Mid (g T) H) Tame :=
  modifyTab_moves H fun x => by rw [same]

/-- A program that looks at the tables first. -/
theorem get_mid {α : Type} {rest : Fs → FsM α} {Q : α → Fs → Prop}
    (next : ∀ s, s.tab = T → Triple (Mid T H) (rest s) Q Tame) :
    Triple (Mid T H) (get >>= rest) Q Tame :=
  fun s mid => next s mid.tab s mid

/-! ## Closing -/

theorem liftHalt_refs {α : Type} {e : Except Halt α} {P : Fs → Prop} {Q : α → Fs → Prop}
    (returns : ∀ a, e = .ok a → ∀ s, P s → Q a s)
    (halts : ∀ h, e = .error h → Tame (.kernel h)) : Triple P (liftHalt e) Q Tame := by
  cases e with
  | ok a => exact .pure (returns a rfl)
  | error h => exact .throw (halts h rfl)

theorem liftHalt_then {α β : Type} {e : Except Halt α} {a : α} {rest : α → FsM β} {P : Fs → Prop}
    {Q : β → Fs → Prop} (returns : e = .ok a) (next : Triple P (rest a) Q Tame) :
    Triple P (liftHalt e >>= rest) Q Tame := by
  subst returns
  exact next

theorem dropRef_used {fs : Files} (used : 0 < fs.ref f) : ∃ r, dropRef f fs = .ok r := by
  unfold dropRef
  rw [Files.ref] at used
  dsimp only
  rw [if_neg (by omega)]
  split_ifs
  · exact ⟨_, rfl⟩
  · exact ⟨_, rfl⟩

theorem closePipe_cases {p : Nat} {w : Bool} {fs fs' : Files} (h : closePipe p w fs = .ok fs') :
    ∃ q, fs.pipe p = some q ∧ fs' = fs.setPipe p
      (let q := q.close w
        if !q.readopen && !q.writeopen then none else some q) := by
  unfold closePipe at h
  cases pipe : fs.pipe p with
  | none =>
    rw [pipe] at h
    cases h
  | some q =>
    rw [pipe] at h
    cases h
    exact ⟨q, rfl, rfl⟩

theorem closePipe_tame {p : Nat} {w : Bool} {fs : Files} (e : Halt)
    (h : closePipe p w fs = .error e) : Tame (.kernel e) := by
  unfold closePipe at h
  cases pipe : fs.pipe p with
  | none =>
    rw [pipe] at h
    cases h
    exact .null
  | some q =>
    rw [pipe] at h
    cases h

/-- The file has left the table; what it stands for is still counted. -/
theorem closeLast_refs (hf : f < nfile) (one : T.files.ref f = 1) :
    Triple (fun s => s.tab = T.dropFile f ∧ Balanced T.users H s)
      (closeLast (T.files.file f)) (fun _ s => ∃ T', T.Closes f T' ∧ Mid T' H s) Tame := by
  -- what the new tables count, with the reference of the file
  have count : ∀ {T'}, T.Closes f T' → ∀ x,
      T'.users x + (T.files.file f).holds (.inode x) = T.users x := by
    intro T' closes x
    have users := closes.users hf x
    rwa [if_pos one] at users
  unfold closeLast
  cases type : (T.files.file f).type with
  | fdNone =>
    have closes := Tables.Closes.none one type
    refine .pure fun s pre => ⟨_, closes, pre.1, pre.2.retab fun x => ?_⟩
    rw [← count closes x, File.holds_none type, Nat.add_zero]
  | fdPipe =>
    refine .get_bind fun s pre => ?_
    obtain ⟨tab, refs⟩ := pre
    refine .bind (R := fun fs t => t = s ∧
      closePipe (T.files.file f).pipe (T.files.file f).writable s.tab.files = .ok fs)
      (liftHalt_refs (fun fs close t same => ⟨same, close⟩) closePipe_tame) fun fs => ?_
    refine .assume (fun close => ?_) fun t => And.right
    obtain ⟨q, pipe, left⟩ := closePipe_cases close
    rw [tab] at pipe left
    have closes := Tables.Closes.pipe one type q pipe fs left
    refine .bind (R := fun _ t => t = { s with tab := { s.tab with files := fs } })
      (.modify fun t pre => by rw [pre.1]) fun _ => .modify fun t same => ?_
    subst same
    refine ⟨_, closes, ?_, ?_⟩
    · dsimp only
      rw [tab]
      rfl
    · have kept : Balanced T.users H { s with
          tab := ({ s.tab with files := fs } : Tables).release
            (.pipe (T.files.file f).pipe (T.files.file f).writable) } :=
        ⟨refs.balanced, refs.unique, refs.bound⟩
      refine kept.retab fun x => ?_
      have stands : Resource.ofFile (T.files.file f) =
          some (.pipe (T.files.file f).pipe (T.files.file f).writable) := by
        rw [Resource.ofFile, type]
      rw [← count closes x, File.holds_eq stands, if_neg (fun same => by cases same), Nat.add_zero]
  | fdInode =>
    have closes := Tables.Closes.inode one type
    have stands : Resource.ofFile (T.files.file f) = some (.inode (T.files.file f).ip) := by
      rw [Resource.ofFile, type]
    refine .bind (R := fun _ s => s.tab = T.dropFile f ∧ Balanced (T.dropFile f).users H s)
      ?_ fun _ => ?_
    · refine .of_runs iput_tame fun s _ s' pre run => ?_
      obtain ⟨tab, refs⟩ := pre
      have moved : Balanced (T.dropFile f).users ((T.files.file f).ip ::ₘ H) s := by
        refine refs.retab fun x => ?_
        have before : (T.dropFile f).users x + _ = T.users x := count closes x
        rw [← before, File.holds_eq stands, Multiset.count_cons]
        simp only [Resource.inode.injEq]
        omega
      obtain ⟨same, left⟩ := moved.iput run
      exact ⟨same.trans tab, left⟩
    · refine .modify fun s pre => ?_
      obtain ⟨tab, refs⟩ := pre
      refine ⟨_, closes, ?_, ?_⟩
      · dsimp only
        rw [tab]
      · exact ⟨refs.balanced, refs.unique, refs.bound⟩

theorem closeFile_run {last : Option File} {fs : Files}
    (drop : dropRef f s.tab.files = .ok (last, fs)) :
    closeFile f s = (last.elim (pure ()) closeLast : FsM Unit)
      { s with tab := { s.tab with files := fs } } := by
  rw [closeFile, get_bind_run, drop]
  cases last <;> rfl

theorem closeFile_refs (hf : f < nfile) (used : 0 < T.files.ref f) :
    Triple (Mid T H) (closeFile f) (fun _ s => ∃ T', T.Closes f T' ∧ Mid T' H s) Tame := by
  rintro s ⟨rfl, refs⟩
  obtain ⟨⟨last, fs⟩, drop⟩ := dropRef_used used
  rw [closeFile_run drop]
  have kept : Balanced s.tab.users H { s with tab := { s.tab with files := fs } } :=
    ⟨refs.balanced, refs.unique, refs.bound⟩
  rcases dropRef_cases drop with ⟨rfl, many, rfl⟩ | ⟨rfl, one, rfl⟩
  · have closes := Tables.Closes.many (T := s.tab) many
    refine Triple.pure (P := fun t => t = _) (fun t same => ?_) _ rfl
    refine ⟨_, closes, congrArg Fs.tab same, same ▸ kept.retab fun x => ?_⟩
    have users := closes.users hf x
    rw [Files.ref, if_neg (Nat.ne_of_gt many)] at users
    rw [← users, Nat.add_zero]
  · exact closeLast_refs hf one _ ⟨rfl, kept⟩

/-- What follows a close starts from the tables it leaves. -/
theorem closeFile_then {α : Type} {rest : Unit → FsM α} {Q : α → Fs → Prop} (hf : f < nfile)
    (used : 0 < T.files.ref f)
    (next : ∀ T', T.Closes f T' → Triple (Mid T' H) (rest ()) Q Tame) :
    Triple (Mid T H) (closeFile f >>= rest) Q Tame :=
  .bind (closeFile_refs hf used) fun _ => .exists fun T' =>
    .assume (fun closes => (next T' closes).pre fun _ => And.right) fun _ => And.left

/-! ## Calls that change the tables -/

theorem setFiles_refs {fs : Files} (same : ({ T with files := fs } : Tables).users = T.users) :
    Triple (Mid T H) (setFiles fs) (fun _ => Mid { T with files := fs } H) Tame :=
  modifyTab_refs (g := fun t => { t with files := fs }) same

theorem filealloc_users {fs : Files} (h : filealloc T.files = some (f, fs)) :
    ({ T with files := fs } : Tables).users = T.users := by
  obtain ⟨-, -, rfl⟩ := filealloc_cases h
  funext x
  exact congrArg (· + _) (T.files.live_ref f 1 _)

/-- A new file stands for nothing. -/
theorem Tables.Good.filealloc_type {fs : Files} (good : T.Good F)
    (h : filealloc T.files = some (f, fs)) : (fs.file f).type = .fdNone := by
  obtain ⟨-, free, rfl⟩ := filealloc_cases h
  rw [Files.setRef_type]
  exact good.wf.closed f free

theorem Tables.Good.held (good : T.Good (f ::ₘ F)) : f < nfile ∧ 0 < T.files.ref f := by
  have used : 0 < T.files.ref f := by
    rw [good.count, Multiset.count_cons_self]
    omega
  exact ⟨good.bound f used, used⟩

theorem sysOpen_kept {arg : Option (List UInt8 × UInt32)} (hi : i < nproc) (good : T.Good 0)
    (live : ¬ (T.proc i).Idle) :
    Triple (Mid T 0) (sysOpen ninodes i arg) (fun r => Kept T r) Tame := by
  cases arg with
  | none => exact .pure fun s mid => mid.kept good
  | some arg =>
    obtain ⟨path, omode⟩ := arg
    refine .bind (openInode_refs hi) fun found => ?_
    cases found with
    | none => exact .pure fun s mid => mid.kept good
    | some x =>
      refine get_mid fun s tab => ?_
      subst tab
      cases new : filealloc s.tab.files with
      | none =>
        exact .bind iunlockput_refs fun _ => .pure fun t mid => mid.kept good
      | some new_ =>
        obtain ⟨f, fs⟩ := new_
        have more := good.alloc new
        have users := filealloc_users new
        have type := good.filealloc_type new
        obtain ⟨hf, used⟩ := more.held
        refine .bind (setFiles_refs users) fun _ => ?_
        cases slot : fdalloc (s.tab.proc i) f with
        | none =>
          refine closeFile_then hf used fun T' closes => ?_
          refine .bind iunlockput_refs fun _ => .pure fun t mid => ?_
          have type' : (fs.file f).type ≠ .fdInode := by
            rw [type]
            decide
          obtain ⟨rfl, refs⟩ := mid
          exact ⟨more.closes closes, refs,
            fun _ => ⟨closes.proc, (closes.users_same hf type').trans users⟩⟩
        | some slot_ =>
          obtain ⟨fd, p⟩ := slot_
          have opened := more.openFile x omode used type
          have typed : ((Tables.openFile { s.tab with files := fs } f x omode).files.file
              f).type ≠ .fdNone := by
            simp [Tables.openFile, Tables.acquire, Files.setFile]
          have done := opened.fdalloc hi live typed slot
          refine .bind (modifyTab_refs rfl) fun _ => .bind iunlock_refs fun _ => ?_
          refine .bind (modifyTab_moves 0 fun y => ?_) fun _ =>
            .pure fun t mid => ⟨mid.tab ▸ done, mid.tab ▸ mid.refs, fun bad => by cases bad⟩
          have count := Tables.live_openFile { s.tab with files := fs } x omode hf type
            (.inode y)
          simp only [Resource.inode.injEq] at count
          rw [Multiset.count_cons, Multiset.count_zero, Nat.zero_add, Nat.add_zero]
          show (Tables.openFile _ f x omode).files.live (.inode y) + cwdRefs s.tab.cwd y =
            fs.live (.inode y) + cwdRefs s.tab.cwd y + _
          rw [Nat.add_right_comm, ← count]
          rfl

theorem argfd_cases {p : Proc} {arg : Option CInt} {fd : Nat} (h : argfd p arg = some (fd, f)) :
    fd < nofile ∧ p.ofile fd = some f := by
  unfold argfd at h
  cases arg with
  | none => cases h
  | some n =>
    dsimp only at h
    split_ifs at h with outside
    obtain ⟨g, open_, same⟩ := Option.map_eq_some_iff.mp h
    cases same
    exact ⟨by omega, open_⟩

theorem dupFile_kept {arg : Option CInt} (hi : i < nproc) (good : T.Good 0)
    (live : ¬ (T.proc i).Idle) :
    Triple (Mid T 0) (dupFile i arg) (fun r => Kept T r) Tame := by
  refine get_mid fun s tab => ?_
  subst tab
  cases named : argfd (s.tab.proc i) arg with
  | none => exact .pure fun t mid => mid.kept good
  | some named_ =>
    obtain ⟨old, f⟩ := named_
    obtain ⟨hfd, open_⟩ := argfd_cases named
    have used := good.used hi hfd open_
    dsimp only
    cases slot : fdalloc (s.tab.proc i) f with
    | none => exact .pure fun t mid => mid.kept good
    | some slot_ =>
      obtain ⟨fd, p⟩ := slot_
      refine .bind (modifyTab_refs rfl) fun _ => ?_
      obtain ⟨fs, dup⟩ : ∃ fs, filedup f s.tab.files = .ok fs :=
        ⟨_, if_neg (Nat.not_lt.mpr used)⟩
      have typed : (fs.file f).type ≠ .fdNone := by
        obtain rfl := filedup_cases dup
        rw [Files.setRef_type]
        exact fun none_ => Nat.ne_of_gt (s.tab.descriptors_open hi hfd open_)
          (good.typed f none_)
      have done := (good.dup dup used).fdalloc hi live typed slot
      have same := filedup_users (T := s.tab.setProc i p) dup
      exact liftHalt_then dup <| .bind (setFiles_refs same) fun _ =>
        .pure fun t mid => ⟨mid.tab ▸ done, mid.tab ▸ mid.refs, nofun⟩

theorem closeFd_kept {arg : Option CInt} (hi : i < nproc) (good : T.Good 0)
    (live : ¬ (T.proc i).Idle) :
    Triple (Mid T 0) (closeFd i arg) (fun r => Kept T r) Tame := by
  refine get_mid fun s tab => ?_
  subst tab
  cases named : argfd (s.tab.proc i) arg with
  | none => exact .pure fun t mid => mid.kept good
  | some named_ =>
    obtain ⟨fd, f⟩ := named_
    obtain ⟨hfd, open_⟩ := argfd_cases named
    have given := good.dropFd hi live hfd open_
    obtain ⟨hf, used⟩ := given.held
    refine .bind (modifyTab_refs rfl) fun _ => ?_
    refine closeFile_then hf used fun T' closes => .pure fun t mid => ?_
    obtain ⟨rfl, refs⟩ := mid
    exact ⟨given.closes closes, refs, nofun⟩

/-- Two files are closed that do not stand for inodes. -/
theorem closeTwo_kept {g : Nat} (good : T.Good (f ::ₘ g ::ₘ 0)) (apart : g ≠ f)
    (typeF : (T.files.file f).type ≠ .fdInode) (typeG : (T.files.file g).type ≠ .fdInode)
    {α : Type} {a : α} :
    Triple (Mid T 0) (do closeFile f; closeFile g; return a)
      (fun b s => b = a ∧ s.tab.Good 0 ∧ Balanced s.tab.users 0 s ∧ s.tab.proc = T.proc ∧
        s.tab.users = T.users) Tame := by
  obtain ⟨hf, usedF⟩ := good.held
  refine closeFile_then hf usedF fun T' closes => ?_
  have good' := good.closes closes
  obtain ⟨hg, usedG⟩ := good'.held
  have typeG' : (T'.files.file g).type ≠ .fdInode := by
    rw [closes.file_other apart]
    exact typeG
  refine closeFile_then hg usedG fun T'' closes' => .pure fun s mid => ?_
  obtain ⟨rfl, refs⟩ := mid
  exact ⟨rfl, good'.closes closes', refs, closes'.proc.trans closes.proc,
    (closes'.users_same hg typeG').trans (closes.users_same hf typeF)⟩

/-- Tables with two new files, which are the ends of a pipe. -/
structure Tables.Piped (T : Tables) (f g : Nat) (T' : Tables) : Prop where
  good : T'.Good (f ::ₘ g ::ₘ 0)
  apart : g ≠ f
  typeF : (T'.files.file f).type = .fdPipe
  typeG : (T'.files.file g).type = .fdPipe
  proc : T'.proc = T.proc
  users : T'.users = T.users

theorem newPipe_refs {room : Bool} (good : T.Good 0) :
    Triple (Mid T 0) (newPipe room)
      (fun r s => match r with
        | none => Kept T .failed s
        | some (f, g) => T.Piped f g s.tab ∧ Balanced s.tab.users 0 s) Tame := by
  refine get_mid fun s tab => ?_
  subst tab
  cases new : filealloc s.tab.files with
  | none => exact .pure fun t mid => mid.kept good
  | some new_ =>
    obtain ⟨f, fs⟩ := new_
    have one := good.alloc new
    have users := filealloc_users new
    have typeF := good.filealloc_type new
    obtain ⟨hf, usedF⟩ := one.held
    refine .bind (setFiles_refs users) fun _ => ?_
    cases new' : filealloc fs with
    | none =>
      refine closeFile_then hf usedF fun T' closes => .pure fun t mid => ?_
      have type : (fs.file f).type ≠ .fdInode := by
        rw [typeF]
        exact nofun
      obtain ⟨rfl, refs⟩ := mid
      exact ⟨one.closes closes, refs,
        fun _ => ⟨closes.proc, (closes.users_same hf type).trans users⟩⟩
    | some new_ =>
      obtain ⟨g, fs'⟩ := new_
      have two := one.alloc new'
      have users' := filealloc_users (T := { s.tab with files := fs }) new'
      have typeG := one.filealloc_type new'
      have apart : g ≠ f := by
        obtain ⟨-, free, -⟩ := filealloc_cases new'
        rintro rfl
        exact Nat.ne_of_gt usedF free
      have typeF' : (fs'.file f).type = .fdNone := by
        obtain ⟨-, -, rfl⟩ := filealloc_cases new'
        rw [Files.setRef_type]
        exact typeF
      rw [Multiset.cons_swap] at two
      refine .bind (setFiles_refs users') fun _ => ?_
      cases room with
      | false =>
        refine (closeTwo_kept two apart ?_ ?_).mono (fun _ => id) fun r t post => ?_
        · rw [typeF']
          exact nofun
        · rw [typeG]
          exact nofun
        · obtain ⟨rfl, good, refs, proc, same⟩ := post
          exact ⟨good, refs, fun _ => ⟨proc, same.trans (users'.trans users)⟩⟩
      | true =>
        have usedF' := two.held.2
        have usedG' : 0 < fs'.ref g := by
          rw [Multiset.cons_swap] at two
          exact two.held.2
        have hg : g < nfile := two.bound g usedG'
        have opened := two.openPipe (Ne.symm apart) usedF' usedG' typeF' typeG
        have same : (Tables.openPipe { s.tab with files := fs' } f g).users =
            Tables.users { s.tab with files := fs' } := by
          funext y
          have count := Tables.live_openPipe (T := { s.tab with files := fs' }) hf hg
            (Ne.symm apart) typeF' typeG (.inode y)
          rw [if_neg nofun, if_neg nofun] at count
          exact congrArg (· + _) count
        refine .bind (modifyTab_refs (g := fun t => t.openPipe f g) same) fun _ =>
          .pure fun t mid => ?_
        obtain ⟨tab, refs⟩ := mid
        rw [tab]
        refine ⟨⟨opened, apart, ?_, ?_, rfl, same.trans (users'.trans users)⟩, refs⟩
        · simp [Tables.openPipe, Tables.acquire, Files.newPipe, Files.setFile, Ne.symm apart]
        · simp [Tables.openPipe, Tables.acquire, Files.newPipe, Files.setFile]

theorem pipeCall_kept {arg room : Bool} (hi : i < nproc) (good : T.Good 0)
    (live : ¬ (T.proc i).Idle) :
    Triple (Mid T 0) (pipeCall i arg room) (fun r => Kept T r) Tame := by
  unfold pipeCall
  split_ifs
  · exact .pure fun s mid => mid.kept good
  · refine .bind (newPipe_refs good) fun r => ?_
    cases r with
    | none => exact .pure fun s kept => kept
    | some ends =>
      obtain ⟨f, g⟩ := ends
      refine .get_bind fun s pre => ?_
      obtain ⟨piped, refs⟩ := pre
      have start : ∀ t, t = s → Mid s.tab 0 t := by
        rintro t rfl
        exact ⟨rfl, refs⟩
      dsimp only
      generalize slots : (fdalloc (s.tab.proc i) f).bind _ = found
      cases found with
      | none =>
        refine (closeTwo_kept piped.good piped.apart ?_ ?_).mono start fun r t post => ?_
        · rw [piped.typeF]
          decide
        · rw [piped.typeG]
          decide
        · obtain ⟨-, good, refs, proc, same⟩ := post
          exact ⟨good, refs, fun _ => ⟨proc.trans piped.proc, same.trans piped.users⟩⟩
      | some slots_ =>
        obtain ⟨fd, p⟩ := slots_
        obtain ⟨⟨fd₁, p₁⟩, first, second⟩ := Option.bind_eq_some_iff.mp slots
        have live : ¬ (s.tab.proc i).Idle := by
          rw [piped.proc]
          exact live
        have typeF : (s.tab.files.file f).type ≠ .fdNone := by
          rw [piped.typeF]
          decide
        have typeG : (s.tab.files.file g).type ≠ .fdNone := by
          rw [piped.typeG]
          decide
        have one := piped.good.fdalloc hi live typeF first
        have at_ : (s.tab.setProc i p₁).proc i = p₁ := Function.update_self _ _ _
        have live₁ : ¬ ((s.tab.setProc i p₁).proc i).Idle := by
          rw [at_]
          unfold Proc.Idle at live ⊢
          rw [(fdalloc_spec first).1]
          exact live
        have second₁ : Xv6.fdalloc ((s.tab.setProc i p₁).proc i) g = some (fd, p) := by
          rw [at_]
          exact second
        have two := one.fdalloc hi live₁ typeG second₁
        have twice : (s.tab.setProc i p₁).setProc i p = s.tab.setProc i p := by
          simp only [Tables.setProc, Function.update_idem]
        rw [twice] at two
        exact .bind ((modifyTab_refs rfl).pre start) fun _ =>
          .pure fun t mid => ⟨mid.tab ▸ two, mid.tab ▸ mid.refs, fun bad => by cases bad⟩

/-! ## Calls of processes -/

theorem sysChdir_kept {arg : Option (List UInt8)} (hi : i < nproc) (good : T.Good 0)
    (live : ¬ (T.proc i).Idle) :
    Triple (Mid T 0) (sysChdir i arg) (fun r => Kept T r) Tame := by
  cases arg with
  | none => exact .pure fun s mid => mid.kept good
  | some path =>
    refine .bind (namei_refs hi) fun found => ?_
    cases found with
    | none => exact .pure fun s mid => mid.kept good
    | some x =>
      refine .bind ilock_refs fun _ => .bind inodeAt_refs fun self => ?_
      split_ifs
      · exact .bind iunlockput_refs fun _ => .pure fun s mid => mid.kept good
      · refine .bind iunlock_refs fun _ => .get_bind fun s mid => ?_
        obtain ⟨rfl, refs⟩ := mid
        cases cwd : s.tab.cwd i with
        | none => exact .throw .null
        | some old =>
          have users : ∀ y, ({ s.tab with cwd := Function.update s.tab.cwd i (some x) } :
              Tables).users y + (old ::ₘ 0).count y =
                s.tab.users y + (x ::ₘ 0).count y := by
            intro y
            have count := cwdRefs_update s.tab.cwd hi (some x) y
            rw [cwd] at count
            simp only [Option.some.injEq] at count
            simp only [Tables.users, Multiset.count_cons, Multiset.count_zero, eq_comm]
            simp only [eq_comm] at count
            omega
          refine .bind (R := fun _ t => t.tab = s.tab ∧ Balanced ({ s.tab with
            cwd := Function.update s.tab.cwd i (some x) } : Tables).users 0 t) ?_ fun _ => ?_
          · refine .of_runs iput_tame fun t _ t' same run => ?_
            subst same
            exact (refs.retab users).iput run
          · refine .bind (.modify fun t pre => ?_) fun _ => .pure fun t post => post
            obtain ⟨tab, refs⟩ := pre
            refine ⟨?_, ?_, fun bad => by cases bad⟩
            · dsimp only
              rw [tab]
              exact good.setCwd live _
            · dsimp only
              rw [tab]
              exact ⟨refs.balanced, refs.unique, refs.bound⟩

theorem forkFiles_kept {room : Bool} (hi : i < nproc) (good : T.Good 0)
    (live : ¬ (T.proc i).Idle) :
    Triple (Mid T 0) (forkFiles i room) (fun r => Kept T r) Tame := by
  refine get_mid fun s tab => ?_
  subst tab
  cases slot : (List.range nproc).find? fun n => (s.tab.proc n).state = .unused with
  | none => exact .pure fun t mid => mid.kept good
  | some n =>
    have hn := List.mem_range.mp (List.mem_of_find?_eq_some slot)
    have unused : (s.tab.proc n).state = .unused := by simpa using List.find?_some slot
    obtain ⟨closed, nowhere⟩ := good.idle n hn (.inl unused)
    dsimp only
    split_ifs
    · exact .pure fun t mid => mid.kept good
    · have used : ∀ fd f, fd ∈ List.range nofile → (s.tab.proc i).ofile fd = some f →
          0 < s.tab.files.ref f :=
        fun fd f member open_ => good.used hi (List.mem_range.mp member) open_
      obtain ⟨fs, dup⟩ := dupFiles_total used
      obtain ⟨more, users⟩ := good.dupFiles used dup
      refine liftHalt_then dup (.bind (setFiles_refs users) fun _ => ?_)
      cases cwd : s.tab.cwd i with
      | none => exact .throw .null
      | some x =>
        -- the new process has the descriptors of its parent and no others
        have ofile : (fun fd => ((s.tab.proc i).ofile fd).orElse fun _ =>
            (s.tab.proc n).ofile fd) = (s.tab.proc i).ofile := by
          funext fd
          rw [closed]
          cases (s.tab.proc i).ofile fd <;> rfl
        rw [ofile]
        generalize new : ({ s.tab.proc n with
          parent := some i, ofile := (s.tab.proc i).ofile, name := (s.tab.proc i).name,
          state := .runnable } : Proc) = p
        have child : ¬ p.Idle := by
          rw [← new]
          rintro (unused | zombie) <;> contradiction
        have copied : p.ofile = (s.tab.proc i).ofile := by rw [← new]
        have born := more.born hi hn closed copied child
        have runs : ¬ ((Tables.setProc { s.tab with files := fs } n p).proc n).Idle := by
          rw [Tables.setProc]
          dsimp only
          rwa [Function.update_self]
        have done := born.setCwd runs (some x)
        refine .bind (idup_refs hi cwd) fun _ => .bind (modifyTab_moves 0 fun y => ?_) fun _ =>
          .pure fun t mid => ⟨mid.tab ▸ done, mid.tab ▸ mid.refs, nofun⟩
        have count := cwdRefs_update s.tab.cwd hn (some x) y
        rw [nowhere, if_neg nofun, Nat.add_zero] at count
        simp only [Option.some.injEq, @eq_comm _ x y] at count
        rw [Multiset.count_cons, Multiset.count_zero, Nat.zero_add, Nat.add_zero]
        show fs.live _ + cwdRefs (Function.update s.tab.cwd n (some x)) y =
          fs.live _ + cwdRefs s.tab.cwd y + _
        rw [count, Nat.add_assoc]

/-- The loop of `exit` over the descriptors. -/
theorem closeFds_refs (fds : List Nat) (bound : ∀ fd ∈ fds, fd < nofile) (hi : i < nproc)
    (good : T.Good 0) (live : ¬ (T.proc i).Idle) :
    Triple (Mid T 0) (closeFds i fds)
      (fun _ s => s.tab.Good 0 ∧ Balanced s.tab.users 0 s ∧
        ∀ fd, (s.tab.proc i).ofile fd = if fd ∈ fds then none else (T.proc i).ofile fd) Tame := by
  induction fds generalizing T with
  | nil =>
    refine .pure fun s mid => ?_
    obtain ⟨rfl, refs⟩ := mid
    exact ⟨good, refs, fun fd => rfl⟩
  | cons fd fds ih =>
    have later : ∀ fd ∈ fds, fd < nofile := fun fd' member =>
      bound fd' (List.mem_cons_of_mem _ member)
    refine get_mid fun s tab => ?_
    subst tab
    cases open_ : (s.tab.proc i).ofile fd with
    | none =>
      refine (ih later good live).mono (fun _ => id) fun _ t ⟨good', refs', ofile⟩ =>
        ⟨good', refs', fun fd' => ?_⟩
      rw [ofile]
      by_cases here : fd' = fd
      · rw [here, open_]
        split_ifs <;> rfl
      · simp only [List.mem_cons, here, false_or]
    | some f =>
      have hfd := bound fd List.mem_cons_self
      -- the descriptor is cleared after the close; the two commute
      have given := good.dropFd hi live hfd open_
      obtain ⟨hf, used⟩ : f < nfile ∧ 0 < s.tab.files.ref f := given.held
      refine closeFile_then hf used fun T' closes => ?_
      have proc : T'.proc i = s.tab.proc i := congrFun closes.proc i
      have left := given.closes (closes.setProc _)
      have at_ : (T'.setProc i ((s.tab.proc i).setFd fd none)).proc i =
          (s.tab.proc i).setFd fd none := Function.update_self _ _ _
      have live' : ¬ ((T'.setProc i ((s.tab.proc i).setFd fd none)).proc i).Idle := by
        rw [at_]
        exact live
      rw [← proc] at left live' at_
      refine .bind (modifyTab_refs rfl) fun _ => (ih later left live').mono (fun _ => id)
        fun _ t ⟨good', refs', ofile⟩ => ⟨good', refs', fun fd' => ?_⟩
      rw [ofile, at_, proc]
      by_cases here : fd' = fd
      · subst here
        simp [Proc.setFd]
      · simp [Proc.setFd, here]

theorem exitFiles_kept (hi : i < nproc) (good : T.Good 0) (live : ¬ (T.proc i).Idle) :
    Triple (Mid T 0) (exitFiles i) (fun r => Kept T r) Tame := by
  unfold exitFiles
  split_ifs
  · exact .throw ⟨nofun, nofun⟩
  · refine .bind (closeFds_refs (List.range nofile) (fun fd => List.mem_range.mp) hi good live)
      fun _ => .get_bind fun s ⟨good', refs, ofile⟩ => ?_
    have closed : (s.tab.proc i).ofile = fun _ => none := by
      funext fd
      rw [ofile]
      split_ifs with below
      · rfl
      · exact good.fds i fd hi (by rwa [List.mem_range, Nat.not_lt] at below)
    cases cwd : s.tab.cwd i with
    | none => exact .throw .null
    | some x =>
      have users : ∀ y, (s.tab.exit i).users y + (x ::ₘ 0).count y =
          s.tab.users y + (0 : Multiset Nat).count y := by
        intro y
        have count := cwdRefs_update s.tab.cwd hi none y
        rw [cwd, if_neg (nofun : (none : Option Nat) ≠ some y)] at count
        simp only [Option.some.injEq, @eq_comm _ x y] at count
        rw [Multiset.count_cons, Multiset.count_zero, Nat.zero_add]
        show s.tab.files.live _ + cwdRefs (Function.update s.tab.cwd i none) y + _ =
          s.tab.files.live _ + cwdRefs s.tab.cwd y + 0
        rw [Nat.add_assoc, count, Nat.add_assoc]
      refine .bind (R := fun _ t => t.tab = s.tab ∧ Balanced (s.tab.exit i).users 0 t) ?_
        fun _ => .bind (.modify fun t ⟨tab, refs⟩ => ?_) fun _ => .pure fun t post => post
      · refine .of_runs iput_tame fun t _ t' same run => ?_
        subst same
        exact (refs.retab users).iput run
      · refine ⟨?_, ?_, nofun⟩
        · dsimp only
          rw [tab]
          exact good'.exit closed
        · dsimp only
          rw [tab]
          exact ⟨refs.balanced, refs.unique, refs.bound⟩

theorem waitProc_kept (good : T.Good 0) :
    Triple (Mid T 0) (waitProc i) (fun r => Kept T r) Tame := by
  refine get_mid fun s tab => ?_
  subst tab
  dsimp only
  cases child : (List.range nproc).find? fun j =>
      (s.tab.proc j).parent = some i ∧ (s.tab.proc j).state = .zombie with
  | none =>
    dsimp only
    split_ifs
    · exact .pure fun t mid => mid.kept good
    · exact .pure fun t mid => mid.kept good
  | some j =>
    have hj := List.mem_range.mp (List.mem_of_find?_eq_some child)
    have found : (s.tab.proc j).parent = some i ∧ (s.tab.proc j).state = .zombie := by
      simpa using List.find?_some child
    have idle := good.idle j hj (.inr found.2)
    have reaped := good.setProc (p := { s.tab.proc j with
        kstack := none, pid := 0, parent := none, name := [], killed := false, state := .unused })
      hj (fun g => rfl) (fun g _ => Nat.le_refl _) (fun _ => idle)
      (fun fd beyond => good.fds j fd hj beyond)
    exact .bind (modifyTab_refs rfl) fun _ =>
      .pure fun t mid => ⟨mid.tab ▸ reaped, mid.tab ▸ mid.refs, nofun⟩

/-! ## Steps and runs -/

theorem FsCall.kept (c : FsCall) (hi : i < nproc) (good : T.Good 0) (live : ¬ (T.proc i).Idle) :
    Triple (Mid T 0) (c.run ninodes i) (fun r => Kept T r) Tame := by
  cases c with
  | open_ arg => exact sysOpen_kept hi good live
  | mkdir arg => exact kept_of_refs good (sysMkdir_refs hi)
  | mknod arg => exact kept_of_refs good (sysMknod_refs hi)
  | link arg => exact kept_of_refs good (sysLink_refs hi)
  | unlink arg => exact kept_of_refs good (sysUnlink_refs hi)
  | chdir arg => exact sysChdir_kept hi good live
  | exec loads arg => exact kept_of_refs good (execFile_refs hi)
  | dup arg => exact dupFile_kept hi good live
  | close arg => exact closeFd_kept hi good live
  | pipe arg room => exact pipeCall_kept hi good live
  | fork room => exact forkFiles_kept hi good live
  | exit => exact exitFiles_kept hi good live
  | wait => exact waitProc_kept good

theorem Resource.ofFile_inode {ff : File} :
    Resource.ofFile ff = some (.inode x) ↔ ff.type = .fdInode ∧ ff.ip = x := by
  unfold Resource.ofFile
  cases ff.type <;> simp

theorem Files.live_inode (fs : Files) (x : Nat) : fs.live (.inode x) =
    ∑ f ∈ Finset.range nfile,
      if (fs.file f).type = .fdInode ∧ (fs.file f).ip = x then 1 else 0 := by
  unfold Files.live
  refine Finset.sum_congr rfl fun f _ => ?_
  rw [File.holds]
  exact if_congr Resource.ofFile_inode rfl rfl

theorem Resource.ofFile_pipe {fs : Files} {p : Nat} {w : Bool} :
    Resource.ofFile (fs.file f) = some (.pipe p w) ↔ fs.IsEnd f p w := by
  unfold Resource.ofFile Files.IsEnd
  cases (fs.file f).type <;> simp

/-- What holds between calls. -/
structure Fs.Sound (s : Fs) : Prop where
  good : s.tab.Good 0
  refs : Balanced s.tab.users 0 s

theorem Fs.Sound.triple (sound : s.Sound) (hi : i < nproc)
    (ready : (s.tab.proc i).state = .runnable) (c : FsCall) :
    (∀ r s', c.run ninodes i s = .ok (r, s') → Kept s.tab r s') ∧
      ∀ e, c.run ninodes i s = .error e → Tame e := by
  have live : ¬ (s.tab.proc i).Idle := by
    unfold Proc.Idle
    rw [ready]
    rintro (unused | zombie) <;> contradiction
  exact c.kept hi sound.good live s ⟨rfl, sound.refs⟩

theorem Fs.boot_sound (D : FsDisk) : (Fs.boot D).Sound := by
  have closed : ∀ j, ((Fs.boot D).tab.proc j).ofile = fun _ => none := by
    intro j
    by_cases hj : j = 0
    · subst hj
      rfl
    · simp only [Fs.boot, Function.update_of_ne hj]
      rfl
  have descriptors : ∀ f, (Fs.boot D).tab.descriptors f = 0 := by
    intro f
    unfold Tables.descriptors descriptorsOf
    exact Finset.sum_eq_zero fun j _ => Proc.descriptors_none (closed j) f
  have live : ∀ r, (Fs.boot D).tab.files.live r = 0 := by
    intro r
    unfold Files.live
    exact Finset.sum_eq_zero fun f _ => File.holds_none rfl r
  have users : ∀ x, (Fs.boot D).tab.users x = if x = 0 then 1 else 0 := by
    intro x
    have none_ : cwdRefs (fun _ => none) x = 0 := by
      unfold cwdRefs
      exact Finset.sum_eq_zero fun _ _ => rfl
    have count := cwdRefs_update (i := 0) (fun _ => none) (by decide) (some 0) x
    rw [none_, if_neg (fun same => by cases same), Nat.add_zero, Nat.zero_add] at count
    simp only [Option.some.injEq, @eq_comm _ 0 x] at count
    rw [Tables.users, live, Nat.zero_add]
    exact count
  have slot : ∀ x, 0 < ((Fs.boot D).inode x).ref → x = 0 := by
    intro x used
    by_contra hx
    simp only [Fs.boot, Function.update_of_ne hx] at used
    cases used
  have unused : ∀ f, ¬ 0 < (Fs.boot D).tab.files.ref f := fun f => Nat.not_lt_zero 0
  have noPipe : ∀ p q, (Fs.boot D).tab.files.pipe p ≠ some q := by
    intro p q same
    cases same
  refine ⟨⟨fun f => ?_, fun f used => absurd used (unused f), ⟨fun f _ => rfl, ?_, ?_,
      fun p q _ pipe => absurd pipe (noPipe p q), fun p q pipe => absurd pipe (noPipe p q)⟩,
    fun _ _ => rfl,
    fun j _ idle => ⟨closed j, ?_⟩, fun j fd _ _ => congrFun (closed j) fd, fun f _ => descriptors f,
    fun r => ?_, fun _ _ => Nat.zero_le _⟩, ⟨fun x => ?_, fun x y hx hy _ => ?_, fun x hx => ?_⟩⟩
  · rw [descriptors]
    rfl
  · rintro f p w ⟨type, -⟩
    cases type
  · rintro f g p w ⟨type, -⟩
    cases type
  · have hj : j ≠ 0 := by
      rintro rfl
      rcases idle with unused | zombie <;> contradiction
    simp only [Fs.boot, Function.update_of_ne hj]
  · rw [live]
    rfl
  · rw [users, Multiset.count_zero, Nat.add_zero]
    split_ifs with hx
    · rw [hx]
      rfl
    · simp only [Fs.boot, Function.update_of_ne hx]
  · rw [slot x hx, slot y hy]
  · rw [slot x hx]
    decide

theorem Fs.run_sound {D : FsDisk} (run : Run (Fs.Step ninodes) anyStep (Fs.boot D) s) :
    s.Sound := by
  refine run.invariant Fs.Sound (Fs.boot_sound D) fun s a s' sound _ step => ?_
  obtain ⟨r, hi, ready, call⟩ := step
  have kept := (sound.triple hi ready a.2).1 r s' call
  exact ⟨kept.good, kept.refs⟩

/-- The step as a function. -/
def Fs.next (ninodes : Nat) (s : Fs) (a : Nat × FsCall) : Option Fs :=
  if a.1 < nproc ∧ (s.tab.proc a.1).state = .runnable then
    match a.2.run ninodes a.1 s with
    | .ok (_, s') => some s'
    | .error _ => none
  else none

theorem Fs.next_step (s : Fs) (a : Nat × FsCall) (s' : Fs) (h : s.next ninodes a = some s') :
    anyStep s a ∧ s.Step ninodes a s' := by
  unfold Fs.next at h
  split_ifs at h with ready
  cases call : a.2.run ninodes a.1 s with
  | error e =>
    rw [call] at h
    cases h
  | ok r =>
    rw [call] at h
    cases h
    exact ⟨trivial, r.1, ready.1, ready.2, call⟩

/-- A disk with nothing but the root. -/
def FsDisk.root : FsDisk where
  dinode := Function.update (fun _ => ⟨.none, 0⟩) rootino ⟨.dir, 1⟩
  ents := Function.update (fun _ => []) rootino [.mk_ dot rootino, .mk_ dotdot rootino]

/-- **Inode references.**  Between calls no two cached inodes in use are the same inode, the
reference count of each is the number of files and current directories that stand for it, and a
call that fails leaves every reference count as it was. -/
theorem Fs.inode_references {D : FsDisk} (run : Run (Fs.Step ninodes) anyStep (Fs.boot D) s) :
    (∀ x y, 0 < (s.inode x).ref → 0 < (s.inode y).ref → (s.inode x).inum = (s.inode y).inum →
        x = y) ∧
      (∀ x, (s.inode x).ref =
        (∑ f ∈ Finset.range nfile,
          if (s.tab.files.file f).type = .fdInode ∧ (s.tab.files.file f).ip = x then 1 else 0) +
        ∑ i ∈ Finset.range nproc, if s.tab.cwd i = some x then 1 else 0) ∧
      ∀ i c s', s.Calls ninodes i c .failed s' →
        (∀ x, (s'.inode x).ref = (s.inode x).ref) ∧
          ∀ f, (s'.tab.files.file f).ref = (s.tab.files.file f).ref := by
  have sound := Fs.run_sound run
  refine ⟨sound.refs.unique, fun x => ?_, fun i c s' ⟨hi, ready, call⟩ => ?_⟩
  · have count := sound.refs.balanced x
    rw [Multiset.count_zero, Nat.add_zero, Tables.users, Files.live_inode] at count
    unfold cwdRefs at count
    exact count
  · have kept := (sound.triple hi ready c).1 _ s' call
    obtain ⟨proc, users⟩ := kept.failed rfl
    refine ⟨fun x => ?_, fun f => ?_⟩
    · rw [kept.refs.balanced, users, sound.refs.balanced]
    · refine (kept.good.count f).trans (Eq.trans ?_ (sound.good.count f).symm)
      rw [Tables.descriptors, proc, Tables.descriptors]

/-- Init makes a directory, goes there, opens a file in it and forks; then it fails to open a file
through that file. -/
theorem Fs.inode_references_of_shared_directory : ∃ s,
    Run (Fs.Step 200) anyStep (Fs.boot .root) s ∧ (s.inode 0).ref = 1 ∧ (s.inode 1).ref = 2 ∧
      (∀ s', s.Calls 200 0 (.open_ (some ([97, slash, 98], 0))) .failed s' →
        (s'.inode 0).ref = 1) ∧
      ∀ x, (s.inode x).ref =
        (∑ f ∈ Finset.range nfile,
          if (s.tab.files.file f).type = .fdInode ∧ (s.tab.files.file f).ip = x then 1 else 0) +
        ∑ i ∈ Finset.range nproc, if s.tab.cwd i = some x then 1 else 0 := by
  have found : (follow (Fs.next 200) [(0, .mkdir (some [97])), (0, .chdir (some [97])),
      (0, .open_ (some ([97], creates))), (0, .fork true)] (Fs.boot .root)).any
      (fun s => (s.inode 0).ref = 1 ∧ (s.inode 1).ref = 2) = true := by
    decide +kernel
  obtain ⟨s, run, shape⟩ := Run.follow_any (Fs.Step 200) anyStep Fs.next_step found
  have shape := of_decide_eq_true shape
  have refs := Fs.inode_references run
  refine ⟨s, run, shape.1, shape.2, fun s' call => ?_, refs.2.1⟩
  exact ((refs.2.2 _ _ s' call).1 0).trans shape.1

/-- **File references.**  Between calls the reference count of each file is the number of
descriptors that stand for it; a file stands for something exactly when it has descriptors; no
call runs into the panics of `filedup` and `fileclose`; and of the references that files have ever
been given, each has been given back once or belongs to a file that still has descriptors.  An end
of a pipe is given once and is open as long as it belongs to a file. -/
theorem Fs.file_references {D : FsDisk} (run : Run (Fs.Step ninodes) anyStep (Fs.boot D) s) :
    (∀ f, (s.tab.files.file f).ref =
        ∑ i ∈ Finset.range nproc, ∑ fd ∈ Finset.range nofile,
          if (s.tab.proc i).ofile fd = some f then 1 else 0) ∧
      (∀ f, (s.tab.files.file f).ref = 0 ↔ (s.tab.files.file f).type = .fdNone) ∧
      (∀ i c e, i < nproc → (s.tab.proc i).state = .runnable →
        FsCall.run ninodes i c s = .error e →
          e ≠ .kernel (.panic .filedup) ∧ e ≠ .kernel (.panic .fileclose)) ∧
      (∀ r, s.tab.acquired r = s.tab.released r +
        ∑ f ∈ Finset.range nfile, if Resource.ofFile (s.tab.files.file f) = some r then 1 else 0) ∧
      (∀ p w, s.tab.acquired (.pipe p w) ≤ 1) ∧
      ∀ p w, (∃ q, s.tab.files.pipe p = some q ∧ q.isOpen w = true) ↔
        ∃ f, f < nfile ∧ Resource.ofFile (s.tab.files.file f) = some (.pipe p w) := by
  have sound := Fs.run_sound run
  have count : ∀ f, (s.tab.files.file f).ref = s.tab.descriptors f := by
    intro f
    exact (sound.good.count f).trans (by rw [Multiset.count_zero, Nat.add_zero])
  refine ⟨fun f => ?_, fun f => ⟨sound.good.wf.closed f, fun type => ?_⟩,
    fun i c e hi ready halt => ?_, fun r => ?_, fun p w => ?_, fun p w => ⟨?_, ?_⟩⟩
  · rw [count]
    unfold Tables.descriptors descriptorsOf
    rfl
  · rw [count]
    exact sound.good.typed f type
  · exact (sound.triple hi ready c).2 e halt
  · have even := sound.good.ledger r
    unfold Files.live at even
    exact even
  · have once := sound.good.once p w
    split_ifs at once <;> omega
  · rintro ⟨q, pipe, open_⟩
    obtain ⟨f, hf, isEnd⟩ := sound.good.wf.file p q w pipe open_
    exact ⟨f, hf, Resource.ofFile_pipe.mpr isEnd⟩
  · rintro ⟨f, hf, stands⟩
    exact sound.good.wf.isOpen f p w (Resource.ofFile_pipe.mp stands)

/-- Both ends of a pipe are shared with a child; the parent closes the read end and the child
exits, which gives it back. -/
theorem Fs.file_references_of_shared_pipe : ∃ s,
    Run (Fs.Step 200) anyStep (Fs.boot .root) s ∧
      s.tab.released (.pipe 0 false) = 1 ∧ s.tab.released (.pipe 0 true) = 0 ∧
      s.tab.acquired (.pipe 0 false) ≤ 1 ∧
      ∀ f, (s.tab.files.file f).ref = ∑ i ∈ Finset.range nproc, ∑ fd ∈ Finset.range nofile,
        if (s.tab.proc i).ofile fd = some f then 1 else 0 := by
  have found : (follow (Fs.next 200) [(0, .pipe true true), (0, .fork true),
      (0, .close (some ⟨0, ⟨by decide, by decide⟩⟩)), (1, .exit)] (Fs.boot .root)).any
      (fun s => s.tab.released (.pipe 0 false) = 1 ∧ s.tab.released (.pipe 0 true) = 0) = true := by
    decide +kernel
  obtain ⟨s, run, shape⟩ := Run.follow_any (Fs.Step 200) anyStep Fs.next_step found
  have shape := of_decide_eq_true shape
  have refs := Fs.file_references run
  exact ⟨s, run, shape.1, shape.2, refs.2.2.2.2.1 0 false, refs.1⟩

end RandomRepo.Xv6

import RandomRepo.Xv6.FileRefs
import RandomRepo.Xv6.FsCache

/-!
# The file table and the descriptors

What holds of the tables between the steps of a call: the reference count of a file is the
number of descriptors that stand for it plus the references in local variables; a file
without references stands for nothing; the ends of pipes belong to files (`Files.Wf`); and
for every resource the ledger is even: it has been acquired as often as it has been released and
is held by files now.
-/

namespace RandomRepo.Xv6

variable {T T' : Tables} {F : Multiset Nat} {fs fs' : Files} {f g i : Nat}

/-- The descriptors of all processes that stand for file `f`. -/
@[irreducible] def descriptorsOf (proc : Nat → Proc) (f : Nat) : Nat :=
  ∑ i ∈ Finset.range nproc, (proc i).descriptors f

def Tables.descriptors (T : Tables) (f : Nat) : Nat := descriptorsOf T.proc f

structure Tables.Good (T : Tables) (F : Multiset Nat) : Prop where
  count : ∀ f, T.files.ref f = T.descriptors f + F.count f
  bound : ∀ f, 0 < T.files.ref f → f < nfile
  wf : T.files.Wf
  fresh : ∀ p, T.npipe ≤ p → T.files.pipe p = none
  idle : ∀ i, i < nproc → (T.proc i).Idle → (T.proc i).ofile = (fun _ => none) ∧ T.cwd i = none
  fds : ∀ i fd, i < nproc → nofile ≤ fd → (T.proc i).ofile fd = none
  typed : ∀ f, (T.files.file f).type = .fdNone → T.descriptors f = 0
  ledger : ∀ r, T.acquired r = T.released r + T.files.live r
  once : ∀ p w, T.acquired (.pipe p w) ≤ if p < T.npipe then 1 else 0

theorem count_cons_refTo (F : Multiset Nat) (f g : Nat) :
    (f ::ₘ F).count g = F.count g + refTo f g := Multiset.count_cons g f F

/-! ## What files stand for -/

theorem File.holds_none {ff : File} (type : ff.type = .fdNone) (r : Resource) :
    ff.holds r = 0 := by
  rw [holds, if_neg]
  rw [Resource.ofFile, type]
  exact nofun

theorem File.holds_eq {ff : File} {r₀ : Resource} (stands : Resource.ofFile ff = some r₀)
    (r : Resource) : ff.holds r = if r = r₀ then 1 else 0 := by
  rw [holds]
  refine if_congr ?_ rfl rfl
  rw [stands, Option.some.injEq, eq_comm]

theorem Files.live_setFile (fs : Files) (hf : f < nfile) (ff : File) (r : Resource) :
    (fs.setFile f ff).live r + (fs.file f).holds r = fs.live r + ff.holds r := by
  have exchange := sum_range_exchange (f := fun x => (fs.file x).holds r)
    (g := fun x => ((fs.setFile f ff).file x).holds r) hf
    (fun x hx => by simp only [Files.setFile, Function.update_of_ne hx])
  have here : (fs.setFile f ff).file f = ff := Function.update_self _ _ _
  rw [here] at exchange
  unfold Files.live
  rw [Nat.add_comm, exchange, Nat.add_comm]

/-- A file that stands for nothing is given something. -/
theorem Files.live_give (fs : Files) (hf : f < nfile) (type : (fs.file f).type = .fdNone) {ff : File}
    {r₀ : Resource} (stands : Resource.ofFile ff = some r₀) (r : Resource) :
    (fs.setFile f ff).live r = fs.live r + if r = r₀ then 1 else 0 := by
  have exchange := fs.live_setFile hf ff r
  rwa [File.holds_none type, Nat.add_zero, File.holds_eq stands] at exchange

/-- A file is closed. -/
theorem Files.live_close (fs : Files) (hf : f < nfile) (r : Resource) :
    (fs.setFile f { fs.file f with ref := 0, type := .fdNone }).live r + (fs.file f).holds r =
      fs.live r := by
  refine (fs.live_setFile hf _ r).trans ?_
  rw [File.holds_none rfl, Nat.add_zero]

theorem Files.live_congr (same : fs'.file = fs.file) (r : Resource) : fs'.live r = fs.live r := by
  unfold Files.live
  simp only [same]

theorem Files.live_setPipe (fs : Files) (p : Nat) (q : Option Pipe) (r : Resource) :
    (fs.setPipe p q).live r = fs.live r := by
  refine live_congr ?_ r
  rfl

theorem Files.setRef_type (fs : Files) (f n g : Nat) :
    ((fs.setFile f { fs.file f with ref := n }).file g).type = (fs.file g).type := by
  by_cases hg : g = f
  · subst hg
    rw [Files.setFile]
    dsimp only
    rw [Function.update_self]
  · simp only [Files.setFile, Function.update_of_ne hg]

theorem Files.live_ref (fs : Files) (f n : Nat) (r : Resource) :
    (fs.setFile f { fs.file f with ref := n }).live r = fs.live r := by
  unfold Files.live
  refine Finset.sum_congr rfl fun x _ => ?_
  by_cases hx : x = f
  · subst hx
    rw [Files.setFile]
    dsimp only
    rw [Function.update_self]
    rfl
  · simp only [Files.setFile, Function.update_of_ne hx]

/-! ## Files -/

theorem Tables.Good.alloc (good : T.Good F) (h : filealloc T.files = some (f, fs)) :
    ({ T with files := fs } : Tables).Good (f ::ₘ F) := by
  have ref := filealloc_ref h
  have wf := filealloc_wf good.wf h
  obtain ⟨hf, free, rfl⟩ := filealloc_cases h
  refine ⟨fun g => ?_, fun g used => ?_, wf, good.fresh, good.idle, good.fds, fun g => ?_,
    fun r => ?_, good.once⟩
  · rw [count_cons_refTo]
    show Files.ref _ g = T.descriptors g + _
    rw [ref, good.count, Nat.add_assoc]
  · rw [ref, refTo] at used
    split_ifs at used with here
    · exact here ▸ hf
    · exact good.bound g used
  · rw [Files.setRef_type]
    exact good.typed g
  · exact (good.ledger r).trans (congrArg _ (T.files.live_ref f 1 r).symm)

/-- The tables after the last reference to file `f` is gone. -/
theorem Tables.Good.close (good : T.Good (f ::ₘ F)) (one : T.files.ref f = 1)
    {released : Resource → Nat}
    (file : fs.file = (T.files.setFile f { T.files.file f with ref := 0, type := .fdNone }).file)
    (wf : fs.Wf) (fresh : ∀ p, T.npipe ≤ p → fs.pipe p = none)
    (ledger : ∀ r, released r = T.released r + (T.files.file f).holds r) :
    ({ T with files := fs, released := released } : Tables).Good F := by
  have ref : ∀ g, fs.ref g = if g = f then 0 else T.files.ref g := by
    intro g
    rw [Files.ref, file]
    exact T.files.ref_setFile f _ g
  have hf : f < nfile := good.bound f (by omega)
  refine ⟨fun g => ?_, fun g used => ?_, wf, fresh, good.idle, good.fds, fun g type => ?_,
    fun r => ?_, good.once⟩
  · have before := good.count g
    rw [count_cons_refTo, refTo] at before
    show fs.ref g = T.descriptors g + _
    rw [ref]
    split_ifs at before ⊢ with here
    · subst here
      omega
    · exact before
  · rw [ref] at used
    split_ifs at used
    · cases used
    · exact good.bound g used
  · by_cases here : g = f
    · have before := good.count g
      rw [here, count_cons_refTo, refTo, if_pos rfl] at before
      show T.descriptors g = 0
      rw [here]
      omega
    · refine good.typed g ?_
      rw [file, Files.setFile] at type
      dsimp only at type
      rwa [Function.update_of_ne here] at type
  · have live := T.files.live_close hf r
    have same := Files.live_congr file r
    have before := good.ledger r
    have gone := ledger r
    show T.acquired r = released r + fs.live r
    omega

/-- File `f` has left the table. -/
def Tables.dropFile (T : Tables) (f : Nat) : Tables :=
  { T with files := T.files.setFile f { T.files.file f with ref := 0, type := .fdNone } }

/-- What `closeFile` does to the tables. -/
inductive Tables.Closes (T : Tables) (f : Nat) : Tables → Prop
  | many (many : 1 < T.files.ref f) : Closes T f
      { T with files := T.files.setFile f { T.files.file f with ref := (T.files.file f).ref - 1 } }
  | none (one : T.files.ref f = 1) (type : (T.files.file f).type = .fdNone) :
      Closes T f (T.dropFile f)
  | pipe (one : T.files.ref f = 1) (type : (T.files.file f).type = .fdPipe) (q : Pipe)
      (pipe : T.files.pipe (T.files.file f).pipe = some q) (fs : Files)
      (left : fs = (T.dropFile f).files.setPipe (T.files.file f).pipe
        (let q := q.close (T.files.file f).writable
          if !q.readopen && !q.writeopen then .none else some q)) :
      Closes T f (({ T with files := fs } : Tables).release
        (.pipe (T.files.file f).pipe (T.files.file f).writable))
  | inode (one : T.files.ref f = 1) (type : (T.files.file f).type = .fdInode) :
      Closes T f ((T.dropFile f).release (.inode (T.files.file f).ip))

theorem Tables.Closes.proc (closes : T.Closes f T') : T'.proc = T.proc := by
  cases closes <;> rfl

theorem Tables.Closes.setProc (closes : T.Closes f T') (p : Proc) :
    (T.setProc i p).Closes f (T'.setProc i p) := by
  cases closes with
  | many many => exact .many many
  | none one type => exact .none one type
  | pipe one type q pipe fs left =>
    exact Closes.pipe (T := T.setProc i p) one type q pipe fs left
  | inode one type => exact Closes.inode (T := T.setProc i p) one type

theorem Tables.Good.closes (good : T.Good (f ::ₘ F)) (closes : T.Closes f T') : T'.Good F := by
  have release : ∀ r₀ r, Resource.ofFile (T.files.file f) = some r₀ →
      Function.update T.released r₀ (T.released r₀ + 1) r =
        T.released r + (T.files.file f).holds r := by
    intro r₀ r stands
    rw [File.holds_eq stands]
    by_cases same : r = r₀
    · rw [same, Function.update_self, if_pos rfl]
    · rw [Function.update_of_ne same, if_neg same, Nat.add_zero]
  cases closes with
  | many many =>
    have ref := T.files.ref_setFile f { T.files.file f with ref := (T.files.file f).ref - 1 }
    refine ⟨fun g => ?_, fun g used => ?_, good.wf.setRef ?_, good.fresh, good.idle, good.fds,
      fun g => ?_, fun r => ?_, good.once⟩
    · have before := good.count g
      rw [count_cons_refTo, refTo] at before
      show Files.ref _ g = T.descriptors g + _
      rw [ref]
      split_ifs at before ⊢ with here
      · subst here
        show (T.files.file g).ref - 1 = _
        rw [Files.ref] at before
        omega
      · exact before
    · refine good.bound g ?_
      rw [ref] at used
      split_ifs at used with here
      · subst here
        omega
      · exact used
    · rw [Files.ref] at many
      omega
    · rw [Files.setRef_type]
      exact good.typed g
    · exact (good.ledger r).trans (congrArg _ (T.files.live_ref f _ r).symm)
  | none one type =>
    refine good.close one rfl (good.wf.close_other ?_) good.fresh fun r => ?_
    · rw [type]
      decide
    · rw [File.holds_none type, Nat.add_zero]
  | pipe one type q pipe fs left =>
    subst left
    refine good.close one rfl ?_ (fun p old => ?_) fun r => release _ r ?_
    · refine good.wf.close_end ⟨type, rfl, rfl⟩ pipe ?_
      dsimp only
      cases reading : (q.close (T.files.file f).writable).readopen <;>
        cases writing : (q.close (T.files.file f).writable).writeopen
      · refine .inr ⟨rfl, fun w => ?_⟩
        cases w
        · exact reading
        · exact writing
      · exact .inl ⟨rfl, true, writing⟩
      · exact .inl ⟨rfl, false, reading⟩
      · exact .inl ⟨rfl, true, writing⟩
    · have apart : p ≠ (T.files.file f).pipe := by
        rintro rfl
        rw [good.fresh _ old] at pipe
        cases pipe
      exact (Function.update_of_ne apart _ _).trans (good.fresh p old)
    · rw [Resource.ofFile, type]
  | inode one type =>
    refine good.close one rfl (good.wf.close_other ?_) good.fresh fun r => release _ r ?_
    · rw [type]
      decide
    · rw [Resource.ofFile, type]

/-- The references to inodes that are left. -/
theorem Tables.Closes.users (closes : T.Closes f T') (hf : f < nfile) (x : Nat) :
    T'.users x + (if T.files.ref f = 1 then (T.files.file f).holds (.inode x) else 0) =
      T.users x := by
  have same : ∀ {t : Tables}, t.cwd = T.cwd → t.files.live (.inode x) = T.files.live (.inode x) →
      t.users x = T.users x := by
    intro t cwd live
    rw [Tables.users, Tables.users, cwd, live]
  have live := T.files.live_close hf (.inode x)
  cases closes with
  | many many =>
    rw [if_neg (by omega), Nat.add_zero]
    exact same rfl (T.files.live_ref f _ _)
  | none one type =>
    rw [if_pos one, File.holds_none type, Nat.add_zero]
    refine same rfl ?_
    rwa [File.holds_none type, Nat.add_zero] at live
  | pipe one type q pipe fs left =>
    have other : (T.files.file f).holds (.inode x) = 0 := by
      rw [File.holds_eq (by rw [Resource.ofFile, type]), if_neg (fun same => by cases same)]
    rw [if_pos one, other, Nat.add_zero]
    rw [other, Nat.add_zero] at live
    subst left
    refine same rfl (Eq.trans ?_ live)
    exact Files.live_setPipe _ _ _ _
  | inode one type =>
    rw [if_pos one]
    show _ + cwdRefs T.cwd x + _ = _
    rw [Tables.users, ← live]
    exact Nat.add_right_comm _ _ _

theorem Tables.Closes.users_same (closes : T.Closes f T') (hf : f < nfile)
    (type : (T.files.file f).type ≠ .fdInode) : T'.users = T.users := by
  funext x
  have other : (T.files.file f).holds (.inode x) = 0 := by
    rw [File.holds, if_neg]
    intro stands
    unfold Resource.ofFile at stands
    cases here : (T.files.file f).type <;> rw [here] at stands <;> cases stands
    exact type here
  have users := closes.users hf x
  rwa [other, ite_self, Nat.add_zero] at users

theorem Tables.Closes.file_other (closes : T.Closes f T') (other : g ≠ f) :
    T'.files.file g = T.files.file g := by
  cases closes with
  | many many => exact Function.update_of_ne other _ _
  | none one type => exact Function.update_of_ne other _ _
  | pipe one type q pipe fs left =>
    subst left
    exact Function.update_of_ne other _ _
  | inode one type => exact Function.update_of_ne other _ _

/-- One more reference to a file in use. -/
theorem Tables.Good.dup (good : T.Good F) (h : filedup f T.files = .ok fs)
    (used : 0 < T.files.ref f) : ({ T with files := fs } : Tables).Good (f ::ₘ F) := by
  have ref := filedup_ref h
  obtain rfl := filedup_cases h
  refine ⟨fun g => ?_, fun g live => ?_, good.wf.setRef (Nat.succ_pos _), good.fresh, good.idle,
    good.fds, fun g => ?_, fun r => ?_, good.once⟩
  · rw [count_cons_refTo]
    show Files.ref _ g = T.descriptors g + _
    rw [ref, good.count, Nat.add_assoc]
  · rw [ref, refTo] at live
    split_ifs at live with here
    · exact here ▸ good.bound f used
    · exact good.bound g live
  · rw [Files.setRef_type]
    exact good.typed g
  · exact (good.ledger r).trans (congrArg _ (T.files.live_ref f _ r).symm)

theorem filedup_users (h : filedup f T.files = .ok fs) :
    ({ T with files := fs } : Tables).users = T.users := by
  obtain rfl := filedup_cases h
  funext x
  exact congrArg (· + _) (T.files.live_ref f _ _)

/-! ## Descriptors -/

/-- One process changes, and the references in local variables with it. -/
theorem Tables.Good.setProc {F' : Multiset Nat} {p : Proc} (good : T.Good F) (hi : i < nproc)
    (change : ∀ g, (T.proc i).descriptors g + F.count g = p.descriptors g + F'.count g)
    (typed : ∀ g, (T.files.file g).type = .fdNone → p.descriptors g ≤ (T.proc i).descriptors g)
    (idle : p.Idle → p.ofile = (fun _ => none) ∧ T.cwd i = none)
    (fds : ∀ fd, nofile ≤ fd → p.ofile fd = none) : (T.setProc i p).Good F' := by
  have at_ : (T.setProc i p).proc i = p := Function.update_self _ _ _
  have other : ∀ j, j ≠ i → (T.setProc i p).proc j = T.proc j :=
    fun j hj => Function.update_of_ne hj _ _
  have total : ∀ g, (T.proc i).descriptors g + (T.setProc i p).descriptors g =
      p.descriptors g + T.descriptors g := by
    intro g
    have exchange := sum_range_exchange (f := fun j => (T.proc j).descriptors g)
      (g := fun j => ((T.setProc i p).proc j).descriptors g) hi (fun j hj => by rw [other j hj])
    rw [at_] at exchange
    unfold Tables.descriptors descriptorsOf
    exact exchange
  refine ⟨fun g => ?_, good.bound, good.wf, good.fresh, fun j hj => ?_, fun j fd hj => ?_,
    fun g type => ?_, good.ledger, good.once⟩
  · have before := good.count g
    have change := change g
    have total := total g
    show T.files.ref g = _
    omega
  · by_cases here : j = i
    · subst here
      rw [at_]
      exact idle
    · rw [other j here]
      exact good.idle j hj
  · by_cases here : j = i
    · subst here
      rw [at_]
      exact fds fd
    · rw [other j here]
      exact good.fds j fd hj
  · have before := good.typed g type
    have typed := typed g type
    have total := total g
    omega

theorem fdalloc_none {p p' : Proc} {fd : Nat} (h : fdalloc p f = some (fd, p')) (k : Nat)
    (beyond : nofile ≤ k) (none_ : p.ofile k = none) : p'.ofile k = none := by
  unfold fdalloc at h
  split at h
  · cases h
  · rename_i found
    cases h
    have := List.mem_range.mp (List.mem_of_find?_eq_some found)
    exact (Function.update_of_ne (by omega) _ _).trans none_

theorem Tables.Good.fdalloc {p : Proc} {fd : Nat} (good : T.Good (f ::ₘ F)) (hi : i < nproc)
    (live : ¬ (T.proc i).Idle) (open_ : (T.files.file f).type ≠ .fdNone)
    (h : Xv6.fdalloc (T.proc i) f = some (fd, p)) : (T.setProc i p).Good F := by
  obtain ⟨state, descriptors⟩ := fdalloc_spec h
  refine good.setProc hi (fun g => ?_) (fun g type => ?_) (fun idle => ?_) fun k beyond => ?_
  · rw [descriptors, count_cons_refTo]
    omega
  · have other : g ≠ f := by
      rintro rfl
      exact open_ type
    have same := descriptors g
    rw [refTo, if_neg other, Nat.add_zero] at same
    exact Nat.le_of_eq same
  · unfold Proc.Idle at idle live
    rw [state] at idle
    exact absurd idle live
  · exact fdalloc_none h k beyond (good.fds i k hi beyond)

/-- A descriptor is given up; the reference is in a local variable now. -/
theorem Tables.Good.dropFd {fd : Nat} (good : T.Good F) (hi : i < nproc)
    (live : ¬ (T.proc i).Idle) (hfd : fd < nofile) (open_ : (T.proc i).ofile fd = some f) :
    (T.setProc i ((T.proc i).setFd fd none)).Good (f ::ₘ F) := by
  have change : ∀ g, ((T.proc i).setFd fd none).descriptors g + refTo f g =
      (T.proc i).descriptors g := by
    intro g
    have change := Proc.descriptors_setFd (p := T.proc i) hfd none g
    rwa [open_, refTo_eq, if_neg nofun, Nat.add_zero] at change
  refine good.setProc hi (fun g => ?_) (fun g _ => ?_) (fun idle => absurd idle live)
    fun k beyond => ?_
  · have change := change g
    rw [count_cons_refTo]
    omega
  · have change := change g
    omega
  · rw [Proc.setFd]
    exact (Function.update_of_ne (by omega) _ _).trans (good.fds i k hi beyond)

theorem Tables.descriptors_le (T : Tables) (hi : i < nproc) (f : Nat) :
    (T.proc i).descriptors f ≤ T.descriptors f := by
  unfold Tables.descriptors descriptorsOf
  exact Finset.single_le_sum (f := fun i => (T.proc i).descriptors f)
    (fun _ _ => Nat.zero_le _) (Finset.mem_range.mpr hi)

theorem Tables.descriptors_open {fd : Nat} (hi : i < nproc) (hfd : fd < nofile)
    (open_ : (T.proc i).ofile fd = some f) : 0 < T.descriptors f := by
  have one : 1 ≤ (T.proc i).descriptors f := by
    have := Finset.single_le_sum (f := fun fd => if (T.proc i).ofile fd = some f then 1 else 0)
      (fun _ _ => Nat.zero_le _) (Finset.mem_range.mpr hfd)
    rwa [if_pos open_] at this
  exact Nat.lt_of_lt_of_le one (T.descriptors_le hi f)

theorem Tables.Good.used {fd : Nat} (good : T.Good F) (hi : i < nproc) (hfd : fd < nofile)
    (open_ : (T.proc i).ofile fd = some f) : 0 < T.files.ref f := by
  have some_ := T.descriptors_open hi hfd open_
  rw [good.count]
  omega

/-- The references that `fork` takes for the new process. -/
theorem Tables.Good.dupFiles {ofile : Nat → Option Nat} {fds : List Nat} (good : T.Good F)
    (used : ∀ fd f, fd ∈ fds → ofile fd = some f → 0 < T.files.ref f)
    (h : Xv6.dupFiles ofile fds T.files = .ok fs) :
    ({ T with files := fs } : Tables).Good (F + ↑(fds.filterMap ofile)) ∧
      ({ T with files := fs } : Tables).users = T.users := by
  induction fds generalizing T F with
  | nil =>
    cases h
    exact ⟨by simpa using good, rfl⟩
  | cons fd fds ih =>
    rw [Xv6.dupFiles] at h
    cases here : ofile fd with
    | none =>
      rw [here] at h
      rw [List.filterMap_cons_none here]
      exact ih good (fun fd f member => used fd f (List.mem_cons_of_mem _ member)) h
    | some f =>
      rw [here] at h
      obtain ⟨fs₁, dup, rest⟩ := bind_ok_iff.mp h
      have more := good.dup dup (used fd f List.mem_cons_self here)
      have still : ∀ fd' f', fd' ∈ fds → ofile fd' = some f' → 0 < fs₁.ref f' := by
        intro fd' f' member open_
        rw [filedup_ref dup]
        exact Nat.add_pos_left (used fd' f' (List.mem_cons_of_mem _ member) open_) _
      obtain ⟨good', users⟩ := ih more still rest
      refine ⟨?_, users.trans (filedup_users dup)⟩
      rw [List.filterMap_cons_some here, ← Multiset.cons_coe, Multiset.add_cons,
        ← Multiset.cons_add]
      exact good'

theorem count_filterMap (ofile : Nat → Option Nat) (fds : List Nat) (g : Nat) :
    (fds.filterMap ofile).count g = (fds.map fun fd => if ofile fd = some g then 1 else 0).sum := by
  induction fds with
  | nil => rfl
  | cons fd fds ih =>
    rw [List.map_cons, List.sum_cons, ← ih]
    cases here : ofile fd with
    | none => rw [List.filterMap_cons_none here, if_neg nofun, Nat.zero_add]
    | some f =>
      rw [List.filterMap_cons_some here, List.count_cons, Nat.add_comm]
      simp only [beq_iff_eq, Option.some.injEq]

/-- The new process has the descriptors of its parent. -/
theorem Tables.Good.born {n : Nat} {p : Proc} (hi : i < nproc) (hn : n < nproc)
    (good : T.Good (0 + ↑((List.range nofile).filterMap (T.proc i).ofile)))
    (closed : (T.proc n).ofile = fun _ => none) (ofile : p.ofile = (T.proc i).ofile)
    (live : ¬ p.Idle) : (T.setProc n p).Good 0 := by
  have same : ∀ g, p.descriptors g = (T.proc i).descriptors g := by
    intro g
    rw [Proc.descriptors, Proc.descriptors, ofile]
  refine good.setProc hn (fun g => ?_) (fun g type => ?_) (fun idle => absurd idle live)
    fun fd beyond => ?_
  · rw [Proc.descriptors_none closed, same, Multiset.count_zero, Nat.add_zero, Nat.zero_add,
      zero_add, Multiset.coe_count, count_filterMap, sum_map_range, Proc.descriptors]
  · have all := T.descriptors_le hi g
    have none_ := good.typed g type
    rw [same]
    omega
  · rw [ofile]
    exact good.fds i fd hi beyond

/-! ## Current directories -/

theorem cwdRefs_update (cwd : Nat → Option Nat) (hi : i < nproc) (new : Option Nat) (x : Nat) :
    cwdRefs (Function.update cwd i new) x + (if cwd i = some x then 1 else 0) =
      cwdRefs cwd x + if new = some x then 1 else 0 := by
  have exchange := sum_range_exchange (f := fun j => if cwd j = some x then 1 else 0)
    (g := fun j => if Function.update cwd i new j = some x then 1 else 0) hi
    (fun j hj => by rw [Function.update_of_ne hj])
  rw [Function.update_self] at exchange
  unfold cwdRefs
  rw [Nat.add_comm, exchange, Nat.add_comm]

theorem Tables.Good.setCwd (good : T.Good F) (live : ¬ (T.proc i).Idle) (new : Option Nat) :
    ({ T with cwd := Function.update T.cwd i new } : Tables).Good F := by
  refine { good with idle := fun j hj idle => ?_ }
  have other : j ≠ i := by
    rintro rfl
    exact live idle
  obtain ⟨closed, none_⟩ := good.idle j hj idle
  exact ⟨closed, (Function.update_of_ne other _ _).trans none_⟩

/-- The last step of `exit`. -/
theorem Tables.Good.exit (good : T.Good F) (closed : (T.proc i).ofile = fun _ => none) :
    (T.exit i).Good F := by
  have ofile : ∀ j, ((T.exit i).proc j).ofile = (T.proc j).ofile := by
    intro j
    by_cases hj : j = i
    · subst hj
      simp only [Tables.exit, Function.update_self]
      split_ifs <;> rfl
    · simp only [Tables.exit, Function.update_of_ne hj]
      split_ifs <;> rfl
  have descriptors : ∀ g, (T.exit i).descriptors g = T.descriptors g := by
    intro g
    unfold Tables.descriptors descriptorsOf Proc.descriptors
    simp only [ofile]
  refine ⟨fun g => ?_, good.bound, good.wf, good.fresh, fun j hj idle => ?_, fun j fd hj beyond => ?_,
    fun g type => ?_, good.ledger, good.once⟩
  · rw [descriptors]
    exact good.count g
  · rw [ofile]
    by_cases here : j = i
    · subst here
      exact ⟨closed, Function.update_self _ _ _⟩
    · have state : ((T.exit i).proc j).state = (T.proc j).state := by
        simp only [Tables.exit, Function.update_of_ne here]
        split_ifs <;> rfl
      unfold Proc.Idle at idle
      rw [state] at idle
      obtain ⟨closed, none_⟩ := good.idle j hj idle
      exact ⟨closed, (Function.update_of_ne here _ _).trans none_⟩
  · rw [ofile]
    exact good.fds j fd hj beyond
  · rw [descriptors]
    exact good.typed g type

/-! ## Opening -/

theorem Files.Wf.open_ (wf : fs.Wf) {ff : File} (type : (fs.file f).type = .fdNone)
    (type' : ff.type = .fdInode) (ref : 0 < ff.ref) : (fs.setFile f ff).Wf := by
  refine wf.setFile (fun zero => absurd zero ref.ne') fun g p w => ?_
  unfold Files.IsEnd Files.setFile
  by_cases hg : g = f
  · subst hg
    simp [type, type']
  · simp [hg]

theorem Tables.live_openFile (T : Tables) (x : Nat) (omode : UInt32) (hf : f < nfile)
    (type : (T.files.file f).type = .fdNone) (r : Resource) :
    (T.openFile f x omode).files.live r =
      T.files.live r + if r = .inode x then 1 else 0 :=
  T.files.live_give hf type rfl r

theorem Tables.Good.openFile (good : T.Good F) (x : Nat) (omode : UInt32)
    (used : 0 < T.files.ref f) (type : (T.files.file f).type = .fdNone) :
    (T.openFile f x omode).Good F := by
  have ref : ∀ g, (T.openFile f x omode).files.ref g = T.files.ref g := by
    intro g
    refine (T.files.ref_setFile f _ g).trans ?_
    split_ifs with here
    · rw [here, Files.ref]
    · rfl
  refine ⟨fun g => ?_, fun g live => ?_, ?_, good.fresh, good.idle, good.fds, fun g none_ => ?_,
    fun r => ?_, fun p w => ?_⟩
  · rw [ref]
    exact good.count g
  · rw [ref] at live
    exact good.bound g live
  · exact good.wf.open_ type rfl used
  · have other : g ≠ f := by
      rintro rfl
      rw [Tables.openFile, Tables.acquire, Files.setFile] at none_
      dsimp only at none_
      rw [Function.update_self] at none_
      cases none_
    refine good.typed g ?_
    rw [Tables.openFile, Tables.acquire, Files.setFile] at none_
    dsimp only at none_
    rwa [Function.update_of_ne other] at none_
  · rw [T.live_openFile x omode (good.bound f used) type, ← Nat.add_assoc]
    show Function.update T.acquired _ _ r = T.released r + _ + _
    by_cases here : r = .inode x
    · rw [here, Function.update_self, if_pos rfl, good.ledger]
    · rw [Function.update_of_ne here, if_neg here, good.ledger, Nat.add_zero]
  · have other : Resource.pipe p w ≠ .inode x := fun same => by cases same
    simp only [Tables.openFile, Tables.acquire, Function.update_of_ne other]
    exact good.once p w

theorem Tables.live_openPipe (hf : f < nfile) (hg : g < nfile) (apart : f ≠ g)
    (typeF : (T.files.file f).type = .fdNone) (typeG : (T.files.file g).type = .fdNone)
    (r : Resource) : (T.openPipe f g).files.live r = T.files.live r +
      (if r = .pipe T.npipe false then 1 else 0) + if r = .pipe T.npipe true then 1 else 0 := by
  refine (Files.live_give _ hg ?_ rfl r).trans ?_
  · show (Function.update T.files.file f _ g).type = _
    rw [Function.update_of_ne (Ne.symm apart), typeG]
  · refine congrArg (· + _) ?_
    refine (Files.live_give (T.files.setPipe T.npipe _) hf typeF rfl r).trans ?_
    exact congrArg (· + _) (T.files.live_setPipe _ _ r)

theorem Tables.Good.openPipe (good : T.Good F) (apart : f ≠ g) (usedF : 0 < T.files.ref f)
    (usedG : 0 < T.files.ref g) (typeF : (T.files.file f).type = .fdNone)
    (typeG : (T.files.file g).type = .fdNone) : (T.openPipe f g).Good F := by
  have hf := good.bound f usedF
  have hg := good.bound g usedG
  have ref : ∀ h, (T.openPipe f g).files.ref h = T.files.ref h := T.files.newPipe_ref f g T.npipe
  refine ⟨fun h => ?_, fun h live => ?_, ?_, fun p old => ?_, good.idle, good.fds,
    fun h none_ => ?_, fun r => ?_, fun p w => ?_⟩
  · rw [ref]
    exact good.count h
  · rw [ref] at live
    exact good.bound h live
  · refine good.wf.newPipe apart hf hg (Nat.ne_of_gt usedF) (Nat.ne_of_gt usedG)
      (good.fresh _ (Nat.le_refl _)) ⟨?_, ?_⟩
    · rw [typeF]
      decide
    · rw [typeG]
      decide
  · have beyond : T.npipe + 1 ≤ p := old
    exact (Function.update_of_ne (by omega) _ _).trans (good.fresh p (by omega))
  · have atF : h ≠ f := by
      rintro rfl
      simp [Tables.openPipe, Tables.acquire, Files.newPipe, Files.setFile, apart] at none_
    have atG : h ≠ g := by
      rintro rfl
      simp [Tables.openPipe, Tables.acquire, Files.newPipe, Files.setFile] at none_
    refine good.typed h ?_
    simpa [Tables.openPipe, Tables.acquire, Files.newPipe, Files.setFile, Files.setPipe, atF, atG]
      using none_
  · rw [live_openPipe hf hg apart typeF typeG, ← Nat.add_assoc, ← Nat.add_assoc]
    show Function.update (Function.update T.acquired _ _) _ _ r = T.released r + _ + _ + _
    have ends : (Resource.pipe T.npipe true) ≠ .pipe T.npipe false := fun same => by cases same
    by_cases write : r = .pipe T.npipe true
    · rw [write, Function.update_self, Tables.acquire]
      dsimp only
      rw [Function.update_of_ne ends, if_neg ends, if_pos rfl, good.ledger]
    · rw [Function.update_of_ne write, if_neg write, Nat.add_zero]
      by_cases read : r = .pipe T.npipe false
      · rw [read, Function.update_self, if_pos rfl, good.ledger]
      · rw [Function.update_of_ne read, if_neg read, good.ledger, Nat.add_zero]
  · have before := good.once p w
    simp only [Tables.openPipe, Tables.acquire]
    by_cases here : p = T.npipe
    · subst here
      rw [if_neg (Nat.lt_irrefl _)] at before
      cases w <;> simp [Function.update] <;> omega
    · have other : ∀ v, Resource.pipe p w ≠ .pipe T.npipe v := by
        rintro v ⟨⟩
        exact here rfl
      rw [Function.update_of_ne (other _), Function.update_of_ne (other _)]
      refine before.trans ?_
      show _ ≤ if p < T.npipe + 1 then 1 else 0
      split_ifs <;> omega

end RandomRepo.Xv6

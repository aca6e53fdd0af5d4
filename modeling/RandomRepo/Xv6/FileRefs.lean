import Mathlib.Algebra.Order.BigOperators.Group.Finset
import RandomRepo.Xv6.KernelInv

/-!
# References to open files

Between calls the reference count of a file is the number of descriptors that
stand for it, over all processes; slots without a running process have none.  So
no descriptor stands for a free file, and `filedup` in `fork` never panics.
-/

namespace RandomRepo.Xv6

variable {L : Layout} {i : Nat} {k k' : Kernel} {op : Op} {fs fs' : Files} {m m' : Kmem}
  {f g : Nat} {p : Proc}

/-! ## The reference counts -/

def Files.ref (fs : Files) (f : Nat) : Nat := (fs.file f).ref

/-- One reference, if it is to `f`. -/
def refTo (f g : Nat) : Nat := if g = f then 1 else 0

theorem Files.ref_setFile (fs : Files) (f : Nat) (x : File) (g : Nat) :
    (fs.setFile f x).ref g = if g = f then x.ref else fs.ref g := by
  by_cases hg : g = f
  · subst hg
    simp [Files.ref, Files.setFile]
  · simp [Files.ref, Files.setFile, hg]

theorem filealloc_ref (h : filealloc fs = some (f, fs')) (g : Nat) :
    fs'.ref g = fs.ref g + refTo f g := by
  obtain ⟨-, free, rfl⟩ := filealloc_cases h
  rw [Files.ref_setFile, refTo]
  split_ifs with here
  · rw [here, Files.ref, free]
  · rfl

theorem filedup_ref (h : filedup f fs = .ok fs') (g : Nat) :
    fs'.ref g = fs.ref g + refTo f g := by
  obtain rfl := filedup_cases h
  rw [Files.ref_setFile, refTo]
  split_ifs with here
  · rw [here, Files.ref]
  · rfl

theorem fileclose_ref (h : fileclose L f fs m = .ok (fs', m')) (g : Nat) :
    fs'.ref g + refTo f g = fs.ref g := by
  obtain ⟨⟨last, fs₁⟩, drop, rest⟩ := bind_ok_iff.mp h
  have kept : fs'.ref g = fs₁.ref g := by
    cases last with
    | none => cases rest; rfl
    | some ff =>
      dsimp only at rest
      split at rest
      · rcases pipeclose_cases rest with ⟨q, -, ⟨-, -, -, rfl⟩ | ⟨-, -, rfl⟩⟩ <;> rfl
      · cases rest; rfl
  rw [kept, refTo]
  rcases dropRef_cases drop with ⟨-, many, rfl⟩ | ⟨-, one, rfl⟩ <;>
    rw [Files.ref_setFile] <;> split_ifs with here
  · show (fs.file f).ref - 1 + 1 = (fs.file g).ref
    rw [here]
    omega
  · rfl
  · show 0 + 1 = (fs.file g).ref
    rw [here, one]
  · rfl

theorem Files.newPipe_ref (fs : Files) (f g q x : Nat) : (fs.newPipe f g q).ref x = fs.ref x := by
  -- a field update through the file itself keeps every count
  have keeps : ∀ (fs : Files) (f : Nat) (y : File), y.ref = (fs.file f).ref →
      (fs.setFile f y).ref x = fs.ref x := by
    intro fs f y same
    rw [Files.ref_setFile]
    split_ifs with here
    · rw [same, here, Files.ref]
    · rfl
  unfold Files.newPipe
  refine (keeps _ g _ ?_).trans ((keeps _ f _ ?_).trans ?_) <;> rfl

theorem pipealloc_ref {r : Option (Nat × Nat)} (h : pipealloc L fs m = .ok (r, fs', m')) :
    match r with
    | none => ∀ x, fs'.ref x = fs.ref x
    | some (f, g) => ∀ x, fs'.ref x = fs.ref x + refTo f x + refTo g x := by
  rcases pipealloc_cases h with ⟨rfl, ⟨rfl, -⟩ | ⟨f, fs₁, new, close⟩ |
    ⟨f, fs₁, g, fs₂, m₁, fs₃, m₂, new, new', -, close, close'⟩⟩ |
    ⟨f, fs₁, g, fs₂, q, rfl, new, new', -, rfl⟩
  · exact fun x => rfl
  · intro x
    have := filealloc_ref new x
    have := fileclose_ref close x
    omega
  · intro x
    have := filealloc_ref new x
    have := filealloc_ref new' x
    have := fileclose_ref close x
    have := fileclose_ref close' x
    omega
  · intro x
    rw [Files.newPipe_ref, filealloc_ref new', filealloc_ref new]

/-! ## The descriptors -/

/-- The descriptors of a process that stand for file `f`. -/
def Proc.descriptors (p : Proc) (f : Nat) : Nat :=
  ∑ fd ∈ Finset.range nofile, if p.ofile fd = some f then 1 else 0

theorem Proc.descriptors_none (h : p.ofile = fun _ => none) (f : Nat) : p.descriptors f = 0 := by
  simp [Proc.descriptors, h]

theorem Proc.descriptors_setFd {fd : Nat} (hfd : fd < nofile) (new : Option Nat) (g : Nat) :
    (p.setFd fd new).descriptors g + (if p.ofile fd = some g then 1 else 0) =
      p.descriptors g + if new = some g then 1 else 0 := by
  have exchange := sum_range_exchange (f := fun x => if p.ofile x = some g then 1 else 0)
    (g := fun x => if (p.setFd fd new).ofile x = some g then 1 else 0) hfd (fun j hj => by
      simp [Proc.setFd, hj])
  have here : (p.setFd fd new).ofile fd = new := by simp [Proc.setFd]
  rw [here] at exchange
  rw [Proc.descriptors, Proc.descriptors, add_comm, exchange, add_comm]

theorem refTo_eq (f g : Nat) : (if some f = some g then 1 else 0) = refTo f g := by
  simp only [refTo, Option.some.injEq, eq_comm]

theorem fdalloc_spec {p' : Proc} {fd : Nat} (h : fdalloc p f = some (fd, p')) :
    p'.state = p.state ∧ ∀ g, p'.descriptors g = p.descriptors g + refTo f g := by
  unfold fdalloc at h
  split at h
  · cases h
  · rename_i found
    cases h
    have free : p.ofile fd = none := by simpa using List.find?_some found
    refine ⟨rfl, fun g => ?_⟩
    have := Proc.descriptors_setFd (p := p) (List.mem_range.mp (List.mem_of_find?_eq_some found))
      (some f) g
    rw [free, refTo_eq] at this
    simpa using this

theorem dupFiles_ref {ofile : Nat → Option Nat} {fds : List Nat}
    (h : dupFiles ofile fds fs = .ok fs') (g : Nat) :
    fs'.ref g = fs.ref g + (fds.map fun fd => if ofile fd = some g then 1 else 0).sum := by
  induction fds generalizing fs with
  | nil => cases h; rfl
  | cons fd fds ih =>
    rw [dupFiles] at h
    rw [List.map_cons, List.sum_cons]
    cases here : ofile fd with
    | none =>
      rw [here] at h
      simpa using ih h
    | some f =>
      rw [here] at h
      obtain ⟨fs₁, dup, rest⟩ := bind_ok_iff.mp h
      rw [ih rest, filedup_ref dup, refTo_eq, add_assoc]

theorem dupFiles_total {ofile : Nat → Option Nat} {fds : List Nat}
    (used : ∀ fd f, fd ∈ fds → ofile fd = some f → 0 < fs.ref f) :
    ∃ fs', dupFiles ofile fds fs = .ok fs' := by
  induction fds generalizing fs with
  | nil => exact ⟨fs, rfl⟩
  | cons fd fds ih =>
    rw [dupFiles]
    cases here : ofile fd with
    | none => exact ih fun fd' f member => used fd' f (List.mem_cons_of_mem _ member)
    | some f =>
      obtain ⟨fs₁, dup⟩ : ∃ fs₁, filedup f fs = .ok fs₁ :=
        ⟨_, if_neg (Nat.not_lt.mpr (used fd f List.mem_cons_self here))⟩
      have still : ∀ fd' f', fd' ∈ fds → ofile fd' = some f' → 0 < fs₁.ref f' := by
        intro fd' f' member open_
        rw [filedup_ref dup]
        exact Nat.add_pos_left (used fd' f' (List.mem_cons_of_mem _ member) open_) _
      obtain ⟨fs', rest⟩ := ih still
      exact ⟨fs', bind_ok_iff.mpr ⟨fs₁, dup, rest⟩⟩

theorem closeFiles_ref {ofile : Nat → Option Nat} {fds : List Nat}
    (h : closeFiles L ofile fds fs m = .ok (fs', m')) (g : Nat) :
    fs'.ref g + (fds.map fun fd => if ofile fd = some g then 1 else 0).sum = fs.ref g := by
  induction fds generalizing fs m with
  | nil => cases h; rfl
  | cons fd fds ih =>
    rw [closeFiles] at h
    rw [List.map_cons, List.sum_cons]
    cases here : ofile fd with
    | none =>
      rw [here] at h
      simpa using ih h
    | some f =>
      rw [here] at h
      obtain ⟨⟨fs₁, m₁⟩, close, rest⟩ := bind_ok_iff.mp h
      rw [← fileclose_ref close g, ← ih rest, refTo_eq]
      omega

/-! ## The invariant -/

/-- No process runs in the slot. -/
def Proc.Idle (p : Proc) : Prop := p.state = .unused ∨ p.state = .zombie

/-- Every reference to a file is a descriptor, and an idle slot has none. -/
structure Kernel.Refs (k : Kernel) : Prop where
  count : ∀ f, k.files.ref f = ∑ i ∈ Finset.range nproc, (k.proc i).descriptors f
  closed : ∀ i, i < nproc → (k.proc i).Idle → (k.proc i).ofile = fun _ => none

/-- One slot changes along with the counts. -/
theorem Kernel.Refs.setProc {k₁ : Kernel} {n : Nat} (refs : k.Refs) (hn : n < nproc)
    (procs : k₁.proc = k.proc)
    (change : ∀ g, k₁.files.ref g + (k.proc n).descriptors g = k.files.ref g + p.descriptors g)
    (closed : p.Idle → p.ofile = fun _ => none) : (k₁.setProc n p).Refs := by
  refine ⟨fun g => ?_, fun j hj idle => ?_⟩
  · have exchange := sum_range_exchange (f := fun j => (k.proc j).descriptors g)
      (g := fun j => ((k₁.setProc n p).proc j).descriptors g) hn (fun j hj => by
        rw [Kernel.setProc_ne k₁ hj, procs])
    rw [Kernel.setProc_self, ← refs.count g] at exchange
    have change := change g
    show k₁.files.ref g = _
    omega
  · by_cases here : j = n
    · subst here
      rw [Kernel.setProc_self] at idle ⊢
      exact closed idle
    · rw [Kernel.setProc_ne k₁ here, procs] at idle ⊢
      exact refs.closed j hj idle

/-- Descriptors stand for files in use. -/
theorem Kernel.Refs.used (refs : k.Refs) {fd : Nat} (hi : i < nproc) (hfd : fd < nofile)
    (open_ : (k.proc i).ofile fd = some f) : 0 < k.files.ref f := by
  have one : 1 ≤ (k.proc i).descriptors f := by
    have := Finset.single_le_sum (f := fun fd => if (k.proc i).ofile fd = some f then 1 else 0)
      (fun _ _ => Nat.zero_le _) (Finset.mem_range.mpr hfd)
    rwa [if_pos open_] at this
  have all := Finset.single_le_sum (f := fun i => (k.proc i).descriptors f)
    (fun _ _ => Nat.zero_le _) (Finset.mem_range.mpr hi)
  rw [refs.count]
  omega

theorem fork_refs {r : Nat} (refs : k.Refs) (fork : Fork L i k r k') : k'.Refs := by
  cases fork with
  | full => exact refs
  | noStack slot =>
    exact refs.setProc slot.bound rfl (fun g => rfl) fun _ =>
      refs.closed _ slot.bound (.inl slot.unused)
  | noCopy slot =>
    exact refs.setProc slot.bound rfl (fun g => rfl) fun _ =>
      refs.closed _ slot.bound (.inl slot.unused)
  | born slot _ _ _ dup =>
    have none_ := refs.closed _ slot.bound (.inl slot.unused)
    refine refs.setProc slot.bound rfl (fun g => ?_) fun idle => ?_
    · show _ = k.files.ref g + ∑ fd ∈ Finset.range nofile, _
      rw [dupFiles_ref dup, sum_map_range, Proc.descriptors_none none_, add_zero]
      simp [none_]
    · rcases idle with impossible | impossible <;> cases impossible

theorem exit_refs (refs : k.Refs) (hi : i < nproc) (h : Xv6.exit L i k = .ok k') : k'.Refs := by
  unfold Xv6.exit at h
  split at h
  · cases h
  · obtain ⟨⟨fs, m⟩, close, rest⟩ := bind_ok_iff.mp h
    cases rest
    have open_ : ∀ p, (k.reparent i p).ofile = p.ofile ∧ (k.reparent i p).state = p.state := by
      intro p
      unfold Kernel.reparent
      split_ifs <;> exact ⟨rfl, rfl⟩
    -- the other slots have only been given another parent
    have moved : ({ k with proc := fun j => k.reparent i (k.proc j) } : Kernel).Refs := by
      refine ⟨fun g => ?_, fun j hj idle => ?_⟩
      · simp only [Proc.descriptors, (open_ _).1]
        exact refs.count g
      · rw [(open_ _).1]
        refine refs.closed j hj ?_
        unfold Proc.Idle at idle
        rwa [(open_ _).2] at idle
    refine moved.setProc hi rfl (fun g => ?_) fun _ => rfl
    have none_ := Proc.descriptors_none
      (p := { k.reparent i (k.proc i) with ofile := fun _ => none, state := .zombie }) rfl g
    rw [none_]
    have closed := closeFiles_ref close g
    rw [sum_map_range] at closed
    simp only [Proc.descriptors, (open_ _).1]
    exact closed

theorem wait_refs {r : Option Nat} (refs : k.Refs) (h : Xv6.wait L i k = .ok (r, k')) :
    k'.Refs := by
  rcases wait_cases h with ⟨j, s, pd, m₁, m', hj, zombie, -, -, -, -, -, rfl⟩ | ⟨rfl, -⟩
  · exact refs.setProc hj rfl (fun g => rfl) fun _ => refs.closed j hj (.inr zombie)
  · exact refs

theorem kill_refs (refs : k.Refs) (pid : Int) : (kill pid k).2.Refs := by
  unfold kill
  split
  · exact refs
  · rename_i n found
    have hn := List.mem_range.mp (List.mem_of_find?_eq_some found)
    refine refs.setProc hn rfl (fun g => rfl) fun idle => refs.closed n hn ?_
    unfold Proc.Idle at idle ⊢
    dsimp only at idle
    split_ifs at idle
    · rcases idle with impossible | impossible <;> cases impossible
    · exact idle

theorem sysDup_refs {arg : Option CInt} {r : Nat} (refs : k.Refs) (hi : i < nproc)
    (live : ¬ (k.proc i).Idle) (h : sysDup i arg k = .ok (r, k')) : k'.Refs := by
  unfold sysDup at h
  split at h
  · cases h; exact refs
  · split at h
    · cases h; exact refs
    · rename_i fd p alloc
      obtain ⟨fs, dup, rest⟩ := bind_ok_iff.mp h
      cases rest
      obtain ⟨state, fds⟩ := fdalloc_spec alloc
      refine refs.setProc hi rfl (fun g => ?_) fun idle => ?_
      · rw [fds]
        show fs.ref g + _ = _
        rw [filedup_ref dup]
        omega
      · unfold Proc.Idle at idle
        rw [state] at idle
        exact absurd idle live

theorem sysClose_refs {arg : Option CInt} {r : Nat} (refs : k.Refs) (hi : i < nproc)
    (live : ¬ (k.proc i).Idle) (h : sysClose L i arg k = .ok (r, k')) : k'.Refs := by
  unfold sysClose at h
  split at h
  · cases h; exact refs
  · rename_i fd f named
    obtain ⟨⟨fs, m⟩, close, rest⟩ := bind_ok_iff.mp h
    cases rest
    refine refs.setProc hi rfl (fun g => ?_) fun idle => absurd idle live
    have here : fd < nofile ∧ (k.proc i).ofile fd = some f := by
      unfold argfd at named
      split at named
      · cases named
      · split at named
        · cases named
        · obtain ⟨f', open_, same⟩ := Option.map_eq_some_iff.mp named
          cases same
          exact ⟨by omega, open_⟩
    have change := Proc.descriptors_setFd (p := k.proc i) here.1 none g
    rw [here.2, refTo_eq] at change
    have closed := fileclose_ref close g
    show fs.ref g + _ = _
    simp at change
    omega

theorem sysPipe_refs {arg : Bool} {r : Nat} (refs : k.Refs) (hi : i < nproc)
    (live : ¬ (k.proc i).Idle) (h : sysPipe L i arg k = .ok (r, k')) : k'.Refs := by
  unfold sysPipe at h
  split at h
  · cases h; exact refs
  · obtain ⟨⟨ends, fs, m⟩, alloc, rest⟩ := bind_ok_iff.mp h
    have counts := pipealloc_ref alloc
    cases ends with
    | none =>
      cases rest
      exact ⟨fun g => (counts g).trans (refs.count g), refs.closed⟩
    | some ends =>
      obtain ⟨rf, wf⟩ := ends
      dsimp only at rest counts
      split at rest
      · rename_i fd p fds
        cases rest
        obtain ⟨⟨fd₀, p₀⟩, first, second⟩ := Option.bind_eq_some_iff.mp fds
        obtain ⟨state₁, one⟩ := fdalloc_spec first
        obtain ⟨state₂, two⟩ := fdalloc_spec second
        refine refs.setProc hi rfl (fun g => ?_) fun idle => ?_
        · rw [two, one]
          show fs.ref g + _ = _
          rw [counts]
          omega
        · unfold Proc.Idle at idle
          rw [state₂, state₁] at idle
          exact absurd idle live
      · obtain ⟨⟨fs₁, m₁⟩, close, rest⟩ := bind_ok_iff.mp rest
        obtain ⟨⟨fs₂, m₂⟩, close', rest⟩ := bind_ok_iff.mp rest
        cases rest
        refine ⟨fun g => ?_, refs.closed⟩
        have new := counts g
        have first : fs₁.ref g + refTo rf g = fs.ref g := fileclose_ref close g
        have second : fs₂.ref g + refTo wf g = fs₁.ref g := fileclose_ref close' g
        rw [← refs.count g]
        show fs₂.ref g = _
        omega

theorem Kernel.call_refs {r : Option Reply} (refs : k.Refs) (hi : i < nproc)
    (live : ¬ (k.proc i).Idle) (h : k.call L i op = .ok (r, k')) : k'.Refs := by
  cases op with
  | mem op =>
    obtain ⟨⟨r, p, m⟩, run, rest⟩ := bind_ok_iff.mp h
    cases rest
    have same := (MemOp.run_spec run).same
    refine refs.setProc hi rfl (fun g => ?_) fun idle => ?_
    · rw [Proc.descriptors, Proc.descriptors, same.ofile]
    · unfold Proc.Idle at idle
      rw [same.state] at idle
      exact absurd idle live
  | fork =>
    obtain ⟨⟨r, k₁⟩, call, rest⟩ := bind_ok_iff.mp h
    cases rest
    exact fork_refs refs (fork_spec (fun unused => live (.inl unused)) call)
  | exit =>
    obtain ⟨k₁, call, rest⟩ := bind_ok_iff.mp h
    cases rest
    exact exit_refs refs hi call
  | wait =>
    obtain ⟨⟨r, k₁⟩, call, rest⟩ := bind_ok_iff.mp h
    cases rest
    exact wait_refs refs call
  | kill arg =>
    cases arg with
    | none => cases h; exact refs
    | some pid => cases h; exact kill_refs refs pid.val
  | dup arg =>
    obtain ⟨⟨r, k₁⟩, call, rest⟩ := bind_ok_iff.mp h
    cases rest
    exact sysDup_refs refs hi live call
  | close arg =>
    obtain ⟨⟨r, k₁⟩, call, rest⟩ := bind_ok_iff.mp h
    cases rest
    exact sysClose_refs refs hi live call
  | pipe arg =>
    obtain ⟨⟨r, k₁⟩, call, rest⟩ := bind_ok_iff.mp h
    cases rest
    exact sysPipe_refs refs hi live call

end RandomRepo.Xv6

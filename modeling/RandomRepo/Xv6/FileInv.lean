import RandomRepo.Xv6.File
import RandomRepo.Xv6.PgdirPages

/-!
# Files and the pages of pipes

A pipe holds its page.  `Files.Wf` ties pipes to open files: an end of a pipe is
open exactly while a file of the table stands for it, and a pipe exists exactly
while one of its ends is open.
-/

namespace RandomRepo.Xv6

variable {L : Layout} {fs fs' fs₁ : Files} {m m' : Kmem} {T R : Multiset Nat} {f g p : Nat}

/-- Whether the write end, or the read end, is open. -/
def Pipe.isOpen (q : Pipe) (writable : Bool) : Bool :=
  if writable then q.writeopen else q.readopen

/-- Number of physical pages. -/
@[irreducible] def nframes : Nat := 57344

def Files.pipePage (fs : Files) (p : Nat) : Multiset Nat :=
  if (fs.pipe p).isSome then {p} else 0

/-- The pages of the pipes. -/
def Files.pages (fs : Files) : Multiset Nat :=
  ∑ p ∈ Finset.range nframes, fs.pipePage p

/-- File `f` is the end `writable` of the pipe in page `p`. -/
def Files.IsEnd (fs : Files) (f p : Nat) (writable : Bool) : Prop :=
  (fs.file f).type = .fdPipe ∧ (fs.file f).pipe = p ∧ (fs.file f).writable = writable

structure Files.Wf (fs : Files) : Prop where
  closed : ∀ f, (fs.file f).ref = 0 → (fs.file f).type = .fdNone
  isOpen : ∀ f p w, fs.IsEnd f p w → ∃ q, fs.pipe p = some q ∧ q.isOpen w = true
  unique : ∀ f g p w, fs.IsEnd f p w → fs.IsEnd g p w → f = g
  file : ∀ p q w, fs.pipe p = some q → q.isOpen w = true → ∃ f, f < nfile ∧ fs.IsEnd f p w
  live : ∀ p q, fs.pipe p = some q → ∃ w, q.isOpen w = true

theorem Layout.InRam.lt_nframes (ram : L.InRam p) : p < nframes := by
  have top := ram.2
  simp only [phystop, pgsize] at top
  unfold nframes
  omega

theorem Files.mem_pages (hp : p < nframes) : p ∈ fs.pages ↔ (fs.pipe p).isSome := by
  constructor
  · intro held
    obtain ⟨q, -, here⟩ := Multiset.mem_sum.mp held
    unfold Files.pipePage at here
    split_ifs at here with exists_
    · rw [Multiset.mem_singleton.mp here]
      exact exists_
    · exact absurd here (Multiset.notMem_zero p)
  · intro exists_
    refine Multiset.mem_sum.mpr ⟨p, Finset.mem_range.mpr hp, ?_⟩
    rw [Files.pipePage, if_pos exists_]
    exact Multiset.mem_singleton_self p

theorem Files.pages_setFile (fs : Files) (f : Nat) (x : File) : (fs.setFile f x).pages = fs.pages :=
  rfl

theorem Files.pages_setPipe (fs : Files) (hp : p < nframes) (x : Option Pipe) :
    fs.pipePage p + (fs.setPipe p x).pages = (fs.setPipe p x).pipePage p + fs.pages :=
  sum_range_exchange hp fun q hq => by
    simp only [Files.pipePage, Files.setPipe, Function.update_of_ne hq]

/-! ## Pages -/

theorem pipeclose_cases {w : Bool} (h : pipeclose L p w fs m = .ok (fs', m')) :
    ∃ q, fs.pipe p = some q ∧
      (((q.close w).readopen = false ∧ (q.close w).writeopen = false ∧ kfree L p m = .ok m' ∧
          fs' = fs.setPipe p none) ∨
        (((q.close w).readopen = true ∨ (q.close w).writeopen = true) ∧ m' = m ∧
          fs' = fs.setPipe p (some (q.close w)))) := by
  unfold pipeclose at h
  cases pipe : fs.pipe p with
  | none => rw [pipe] at h; cases h
  | some q =>
    rw [pipe] at h
    dsimp only at h
    refine ⟨q, rfl, ?_⟩
    cases reading : (q.close w).readopen <;> cases writing : (q.close w).writeopen <;>
      rw [reading, writing] at h
    · obtain ⟨m₁, free, rest⟩ := bind_ok_iff.mp h
      cases rest
      exact .inl ⟨rfl, rfl, free, rfl⟩
    · cases h; exact .inr ⟨.inr rfl, rfl, rfl⟩
    · cases h; exact .inr ⟨.inl rfl, rfl, rfl⟩
    · cases h; exact .inr ⟨.inl rfl, rfl, rfl⟩

theorem pipeclose_moves {w : Bool} (h : pipeclose L p w fs m = .ok (fs', m')) :
    Moves L m fs.pages m' fs'.pages := by
  obtain ⟨q, pipe, ⟨-, -, free, rfl⟩ | ⟨-, rfl, rfl⟩⟩ := pipeclose_cases h
  · have exchange := fs.pages_setPipe (kfree_eq_ok free).1.lt_nframes none
    have here : fs.pipePage p = {p} := by simp [Files.pipePage, pipe]
    have gone : (fs.setPipe p none).pipePage p = 0 := by
      simp [Files.pipePage, Files.setPipe]
    rw [here, gone, zero_add] at exchange
    rw [← exchange]
    exact ((kfree_moves free).frame _).congr rfl (zero_add _)
  · -- the page stays with the pipe
    have same : (fs.setPipe p (some (q.close w))).pages = fs.pages := by
      refine Finset.sum_congr rfl fun i _ => ?_
      unfold Files.pipePage Files.setPipe
      by_cases hi : i = p
      · subst hi; simp [pipe]
      · simp [hi]
    rw [same]
    exact .refl _ _ _

theorem dropRef_cases {last : Option File} (h : dropRef f fs = .ok (last, fs')) :
    (last = none ∧ 1 < (fs.file f).ref ∧
        fs' = fs.setFile f { fs.file f with ref := (fs.file f).ref - 1 }) ∨
      (last = some (fs.file f) ∧ (fs.file f).ref = 1 ∧
        fs' = fs.setFile f { fs.file f with ref := 0, type := .fdNone }) := by
  unfold dropRef at h
  dsimp only at h
  split_ifs at h with none_ many
  · cases h; exact .inl ⟨rfl, by omega, rfl⟩
  · cases h; exact .inr ⟨rfl, by omega, rfl⟩

theorem fileclose_moves (h : fileclose L f fs m = .ok (fs', m')) :
    Moves L m fs.pages m' fs'.pages := by
  obtain ⟨⟨last, fs₁⟩, drop, rest⟩ := bind_ok_iff.mp h
  rcases dropRef_cases drop with ⟨rfl, -, rfl⟩ | ⟨rfl, -, rfl⟩
  · cases rest; exact .refl _ _ _
  · dsimp only at rest
    split at rest
    · exact (pipeclose_moves rest).congr (fs.pages_setFile _ _) rfl
    · cases rest; exact .refl _ _ _

theorem filealloc_cases (h : filealloc fs = some (f, fs')) :
    f < nfile ∧ (fs.file f).ref = 0 ∧ fs' = fs.setFile f { fs.file f with ref := 1 } := by
  unfold filealloc at h
  cases found : (List.range nfile).find? fun f => (fs.file f).ref = 0 with
  | none => rw [found] at h; cases h
  | some g =>
    rw [found] at h
    cases h
    refine ⟨List.mem_range.mp (List.mem_of_find?_eq_some found), ?_, rfl⟩
    simpa using List.find?_some found

/-! ## Open ends -/

theorem Pipe.close_isOpen (q : Pipe) (w w' : Bool) :
    (q.close w).isOpen w' = (q.isOpen w' && w' != w) := by
  cases w <;> cases w' <;> simp [Pipe.close, Pipe.isOpen]

/-- A change of a file that leaves the ends of pipes where they are. -/
theorem Files.Wf.setFile (wf : fs.Wf) {ff : File} (closed : ff.ref = 0 → ff.type = .fdNone)
    (ends : ∀ g p w, (fs.setFile f ff).IsEnd g p w ↔ fs.IsEnd g p w) : (fs.setFile f ff).Wf := by
  refine ⟨fun g zero => ?_, fun g p w isEnd => ?_, fun g h p w atG atH => ?_,
    fun p q w pipe open_ => ?_, wf.live⟩
  · unfold Files.setFile at zero ⊢
    by_cases same : g = f
    · subst same
      simp only [Function.update_self] at zero ⊢
      exact closed zero
    · simp only [Function.update_of_ne same] at zero ⊢
      exact wf.closed g zero
  · exact wf.isOpen g p w ((ends g p w).mp isEnd)
  · exact wf.unique g h p w ((ends g p w).mp atG) ((ends h p w).mp atH)
  · obtain ⟨g, hg, isEnd⟩ := wf.file p q w pipe open_
    exact ⟨g, hg, (ends g p w).mpr isEnd⟩

/-- A change of the reference count that does not close the file. -/
theorem Files.Wf.setRef (wf : fs.Wf) {n : Nat} (hn : 0 < n) :
    (fs.setFile f { fs.file f with ref := n }).Wf := by
  refine wf.setFile (fun zero => absurd zero hn.ne') fun g p w => ?_
  unfold Files.IsEnd Files.setFile
  by_cases hg : g = f
  · subst hg; simp
  · simp [hg]

theorem filealloc_wf (wf : fs.Wf) (h : filealloc fs = some (f, fs')) : fs'.Wf := by
  obtain ⟨-, -, rfl⟩ := filealloc_cases h
  exact wf.setRef (by decide)

theorem filedup_cases (h : filedup f fs = .ok fs') :
    fs' = fs.setFile f { fs.file f with ref := (fs.file f).ref + 1 } := by
  unfold filedup at h
  split at h
  · cases h
  · cases h; rfl

/-- The ends once file `f` is closed. -/
theorem Files.isEnd_closed (fs : Files) (f g p : Nat) (w : Bool) :
    (fs.setFile f { fs.file f with ref := 0, type := .fdNone }).IsEnd g p w ↔
      g ≠ f ∧ fs.IsEnd g p w := by
  unfold Files.IsEnd Files.setFile
  by_cases hg : g = f
  · subst hg; simp
  · simp [hg]

theorem Files.Wf.close_other (wf : fs.Wf) (other : (fs.file f).type ≠ .fdPipe) :
    (fs.setFile f { fs.file f with ref := 0, type := .fdNone }).Wf := by
  refine wf.setFile (fun _ => rfl) fun g p w => (fs.isEnd_closed f g p w).trans ?_
  refine and_iff_right_of_imp fun isEnd => ?_
  rintro rfl
  exact other isEnd.1

/-- Closing the file of a pipe's end together with the end. -/
theorem Files.Wf.close_end (wf : fs.Wf) {w : Bool} {q : Pipe} {x : Option Pipe}
    (isEnd : fs.IsEnd f p w) (pipe : fs.pipe p = some q)
    (left : x = some (q.close w) ∧ (∃ w', (q.close w).isOpen w' = true) ∨
      x = none ∧ ∀ w', (q.close w).isOpen w' = false) :
    ((fs.setFile f { fs.file f with ref := 0, type := .fdNone }).setPipe p x).Wf := by
  have ends := fs.isEnd_closed f
  have other : ∀ p', p' ≠ p → ((fs.setFile f
      { fs.file f with ref := 0, type := .fdNone }).setPipe p x).pipe p' = fs.pipe p' :=
    fun p' hp => Function.update_of_ne hp _ _
  have here : ((fs.setFile f
      { fs.file f with ref := 0, type := .fdNone }).setPipe p x).pipe p = x :=
    Function.update_self _ _ _
  refine ⟨fun g zero => ?_, fun g p' w' atG => ?_, fun g h p' w' atG atH => ?_,
    fun p' q' w' at_ open_ => ?_, fun p' q' at_ => ?_⟩
  · unfold Files.setPipe Files.setFile at zero ⊢
    by_cases same : g = f
    · subst same; simp
    · simp only [Function.update_of_ne same] at zero ⊢
      exact wf.closed g zero
  · obtain ⟨ne, old⟩ := (ends g p' w').mp atG
    obtain ⟨q', at_, open_⟩ := wf.isOpen g p' w' old
    by_cases hp : p' = p
    · subst hp
      rw [pipe] at at_
      cases at_
      -- the other end stays open
      have apart : w' ≠ w := by
        rintro rfl
        exact ne (wf.unique g f p' w' old isEnd)
      have still : (q.close w).isOpen w' = true := by
        rw [Pipe.close_isOpen, open_]; simpa using apart
      rcases left with ⟨rfl, -⟩ | ⟨-, none_⟩
      · exact ⟨_, here, still⟩
      · rw [none_] at still; cases still
    · exact ⟨q', (other p' hp).trans at_, open_⟩
  · exact wf.unique g h p' w' ((ends g p' w').mp atG).2 ((ends h p' w').mp atH).2
  · by_cases hp : p' = p
    · subst hp
      rw [here] at at_
      rcases left with ⟨rfl, -⟩ | ⟨rfl, -⟩
      · cases at_
        rw [Pipe.close_isOpen, Bool.and_eq_true] at open_
        obtain ⟨g, hg, atG⟩ := wf.file p' q w' pipe open_.1
        refine ⟨g, hg, (ends g p' w').mpr ⟨?_, atG⟩⟩
        rintro rfl
        have := atG.2.2.symm.trans isEnd.2.2
        simp [this] at open_
      · cases at_
    · rw [other p' hp] at at_
      obtain ⟨g, hg, atG⟩ := wf.file p' q' w' at_ open_
      refine ⟨g, hg, (ends g p' w').mpr ⟨?_, atG⟩⟩
      rintro rfl
      exact hp (atG.2.1.symm.trans isEnd.2.1)
  · by_cases hp : p' = p
    · subst hp
      rw [here] at at_
      rcases left with ⟨rfl, live⟩ | ⟨rfl, -⟩
      · cases at_; exact live
      · cases at_
    · rw [other p' hp] at at_
      exact wf.live p' q' at_

theorem fileclose_wf (wf : fs.Wf) (h : fileclose L f fs m = .ok (fs', m')) :
    fs'.Wf := by
  obtain ⟨⟨last, fs₁⟩, drop, rest⟩ := bind_ok_iff.mp h
  rcases dropRef_cases drop with ⟨rfl, many, rfl⟩ | ⟨rfl, -, rfl⟩
  · cases rest
    exact wf.setRef (by omega)
  · dsimp only at rest
    split at rest
    · rename_i isPipe
      obtain ⟨q, pipe, ⟨reading, writing, -, rfl⟩ | ⟨some_, -, rfl⟩⟩ := pipeclose_cases rest
      · refine wf.close_end ⟨isPipe, rfl, rfl⟩ pipe (.inr ⟨rfl, fun w' => ?_⟩)
        cases w'
        · exact reading
        · exact writing
      · refine wf.close_end ⟨isPipe, rfl, rfl⟩ pipe (.inl ⟨rfl, ?_⟩)
        rcases some_ with reading | writing
        · exact ⟨false, reading⟩
        · exact ⟨true, writing⟩
    · rename_i notPipe
      cases rest
      exact wf.close_other notPipe

/-! ## New pipes -/

/-- The files of a new pipe in page `p`. -/
def Files.newPipe (fs : Files) (f g p : Nat) : Files :=
  let fs := fs.setPipe p (some ⟨true, true⟩)
  let fs := fs.setFile f
    { fs.file f with type := .fdPipe, readable := true, writable := false, pipe := p }
  fs.setFile g { fs.file g with type := .fdPipe, readable := false, writable := true, pipe := p }

/-- The ways `pipealloc` returns. -/
theorem pipealloc_cases {r : Option (Nat × Nat)} (h : pipealloc L fs m = .ok (r, fs', m')) :
    (r = none ∧ ((fs' = fs ∧ m' = m) ∨
      (∃ f fs₁, filealloc fs = some (f, fs₁) ∧ fileclose L f fs₁ m = .ok (fs', m')) ∨
      ∃ f fs₁ g fs₂ m₁ fs₃ m₂, filealloc fs = some (f, fs₁) ∧ filealloc fs₁ = some (g, fs₂) ∧
        kalloc m = (none, m₁) ∧ fileclose L f fs₂ m₁ = .ok (fs₃, m₂) ∧
        fileclose L g fs₃ m₂ = .ok (fs', m'))) ∨
      ∃ f fs₁ g fs₂ p, r = some (f, g) ∧ filealloc fs = some (f, fs₁) ∧
        filealloc fs₁ = some (g, fs₂) ∧ kalloc m = (some p, m') ∧ fs' = fs₂.newPipe f g p := by
  unfold pipealloc at h
  cases first : filealloc fs with
  | none => rw [first] at h; cases h; exact .inl ⟨rfl, .inl ⟨rfl, rfl⟩⟩
  | some a =>
    obtain ⟨f, fs₁⟩ := a
    rw [first] at h
    dsimp only at h
    cases second : filealloc fs₁ with
    | none =>
      rw [second] at h
      obtain ⟨⟨fs₂, m₁⟩, close, rest⟩ := bind_ok_iff.mp h
      cases rest
      exact .inl ⟨rfl, .inr (.inl ⟨f, fs₁, rfl, close⟩)⟩
    | some b =>
      obtain ⟨g, fs₂⟩ := b
      rw [second] at h
      dsimp only at h
      rcases page : kalloc m with ⟨_ | p, m₁⟩
      · rw [page] at h
        obtain ⟨⟨fs₃, m₂⟩, close, rest⟩ := bind_ok_iff.mp h
        obtain ⟨⟨fs₄, m₃⟩, close', rest⟩ := bind_ok_iff.mp rest
        cases rest
        exact .inl ⟨rfl, .inr (.inr
          ⟨f, fs₁, g, fs₂, m₁, fs₃, m₂, rfl, second, rfl, close, close'⟩)⟩
      · rw [page] at h
        cases h
        exact .inr ⟨f, fs₁, g, fs₂, p, rfl, rfl, second, rfl, rfl⟩

theorem filealloc_pages (h : filealloc fs = some (f, fs')) : fs'.pages = fs.pages := by
  obtain ⟨-, -, rfl⟩ := filealloc_cases h
  rfl

/-- The page of a new pipe is not the page of another one. -/
theorem Owns.fresh_pipe (owns : Owns L T m (fs.pages + R)) (page : kalloc m = (some p, m')) :
    fs.pipe p = none ∧ p < nframes := by
  rcases kalloc_cases page with ⟨-, impossible, -⟩ | ⟨q, rest, free, hq, -⟩
  · cases impossible
  · cases hq
    have free : p ∈ m.freelist := by rw [free]; exact List.mem_cons_self
    have inRam := owns.free_inRam free
    refine ⟨?_, inRam.lt_nframes⟩
    cases pipe : fs.pipe p with
    | none => rfl
    | some q =>
      have held : p ∈ fs.pages := (Files.mem_pages inRam.lt_nframes).mpr (by rw [pipe]; rfl)
      exact absurd (Multiset.mem_coe.mpr free)
        (owns.ledger.not_free (Multiset.mem_add.mpr (.inl held)))

theorem Files.newPipe_pages (fresh : fs.pipe p = none) (hp : p < nframes) :
    (fs.newPipe f g p).pages = {p} + fs.pages := by
  have exchange := fs.pages_setPipe hp (some ⟨true, true⟩)
  have before : fs.pipePage p = 0 := by simp [Files.pipePage, fresh]
  have after : (fs.setPipe p (some ⟨true, true⟩)).pipePage p = {p} := by
    simp [Files.pipePage, Files.setPipe]
  rw [before, after, zero_add] at exchange
  exact exchange

theorem pipealloc_moves {r : Option (Nat × Nat)} (h : pipealloc L fs m = .ok (r, fs', m')) :
    Moves L m fs.pages m' fs'.pages := by
  rcases pipealloc_cases h with ⟨-, ⟨rfl, rfl⟩ | ⟨f, fs₁, first, close⟩ |
    ⟨f, fs₁, g, fs₂, m₁, fs₃, m₂, first, second, page, close, close'⟩⟩ |
    ⟨f, fs₁, g, fs₂, p, -, first, second, page, rfl⟩
  · exact .refl _ _ _
  · rw [← filealloc_pages first]
    exact fileclose_moves close
  · rw [← filealloc_pages first, ← filealloc_pages second]
    have none_ := ((kalloc_none_moves (L := L) page).frame fs₂.pages).congr (zero_add _) (zero_add _)
    exact (none_.trans (fileclose_moves close)).trans (fileclose_moves close')
  · rw [← filealloc_pages first, ← filealloc_pages second]
    intro T R owns
    obtain ⟨fresh, hp⟩ := owns.fresh_pipe page
    rw [Files.newPipe_pages fresh hp]
    exact ((kalloc_some_moves page).frame fs₂.pages).congr (zero_add _) rfl T R owns

theorem Files.isEnd_newPipe (fs : Files) (p : Nat) (apart : f ≠ g) (x p' : Nat) (w : Bool) :
    (fs.newPipe f g p).IsEnd x p' w ↔
      (x = f ∧ p' = p ∧ w = false) ∨ (x = g ∧ p' = p ∧ w = true) ∨
        (x ≠ f ∧ x ≠ g ∧ fs.IsEnd x p' w) := by
  unfold Files.IsEnd Files.newPipe Files.setFile Files.setPipe
  by_cases hg : x = g
  · subst hg
    simp [Ne.symm apart, eq_comm]
  · by_cases hf : x = f
    · subst hf
      simp [apart, eq_comm]
    · simp [hf, hg]

theorem Files.Wf.newPipe (wf : fs.Wf) (apart : f ≠ g) (hf : f < nfile) (hg : g < nfile)
    (openF : (fs.file f).ref ≠ 0) (openG : (fs.file g).ref ≠ 0) (fresh : fs.pipe p = none)
    (unused : (fs.file f).type ≠ .fdPipe ∧ (fs.file g).type ≠ .fdPipe) :
    (fs.newPipe f g p).Wf := by
  have ends := fs.isEnd_newPipe p apart
  have here : (fs.newPipe f g p).pipe p = some ⟨true, true⟩ := Function.update_self _ _ _
  have other : ∀ p', p' ≠ p → (fs.newPipe f g p).pipe p' = fs.pipe p' :=
    fun p' hp => Function.update_of_ne hp _ _
  have allOpen : ∀ w, Pipe.isOpen ⟨true, true⟩ w = true := by decide
  have old : ∀ {x p' w}, fs.IsEnd x p' w → p' ≠ p := by
    rintro x p' w isEnd rfl
    obtain ⟨q, pipe, -⟩ := wf.isOpen x p' w isEnd
    rw [fresh] at pipe
    cases pipe
  refine ⟨fun x zero => ?_, fun x p' w isEnd => ?_, fun x y p' w atX atY => ?_,
    fun p' q w pipe open_ => ?_, fun p' q pipe => ?_⟩
  · have ref : ((fs.newPipe f g p).file x).ref = (fs.file x).ref := by
      unfold Files.newPipe Files.setFile Files.setPipe
      by_cases hg : x = g
      · subst hg; simp [Ne.symm apart]
      · by_cases hf : x = f
        · subst hf; simp [hg]
        · simp [hf, hg]
    rw [ref] at zero
    have notF : x ≠ f := by rintro rfl; exact openF zero
    have notG : x ≠ g := by rintro rfl; exact openG zero
    unfold Files.newPipe Files.setFile Files.setPipe
    simp only [Function.update_of_ne notF, Function.update_of_ne notG]
    exact wf.closed x zero
  · rcases (ends x p' w).mp isEnd with ⟨-, rfl, rfl⟩ | ⟨-, rfl, rfl⟩ | ⟨-, -, isEnd⟩
    · exact ⟨_, here, rfl⟩
    · exact ⟨_, here, rfl⟩
    · obtain ⟨q, pipe, open_⟩ := wf.isOpen x p' w isEnd
      exact ⟨q, (other p' (old isEnd)).trans pipe, open_⟩
  · rcases (ends x p' w).mp atX with ⟨rfl, rfl, rfl⟩ | ⟨rfl, rfl, rfl⟩ | ⟨-, -, oldX⟩ <;>
      rcases (ends y _ _).mp atY with ⟨rfl, same, w'⟩ | ⟨rfl, same, w'⟩ | ⟨-, -, oldY⟩
    · rfl
    · cases w'
    · exact absurd rfl (old oldY)
    · cases w'
    · rfl
    · exact absurd rfl (old oldY)
    · exact absurd same (old oldX)
    · exact absurd same (old oldX)
    · exact wf.unique x y p' w oldX oldY
  · by_cases hp : p' = p
    · subst hp
      cases w with
      | false => exact ⟨f, hf, (ends f p' false).mpr (.inl ⟨rfl, rfl, rfl⟩)⟩
      | true => exact ⟨g, hg, (ends g p' true).mpr (.inr (.inl ⟨rfl, rfl, rfl⟩))⟩
    · rw [other p' hp] at pipe
      obtain ⟨x, hx, isEnd⟩ := wf.file p' q w pipe open_
      refine ⟨x, hx, (ends x p' w).mpr (.inr (.inr ⟨?_, ?_, isEnd⟩))⟩
      · rintro rfl; exact unused.1 isEnd.1
      · rintro rfl; exact unused.2 isEnd.1
  · by_cases hp : p' = p
    · subst hp
      rw [here] at pipe
      cases pipe
      exact ⟨true, rfl⟩
    · rw [other p' hp] at pipe
      exact wf.live p' q pipe

theorem pipealloc_wf {r : Option (Nat × Nat)} (wf : fs.Wf) (owns : Owns L T m (fs.pages + R))
    (h : pipealloc L fs m = .ok (r, fs', m')) : fs'.Wf := by
  rcases pipealloc_cases h with ⟨-, ⟨rfl, rfl⟩ | ⟨f, fs₁, first, close⟩ |
    ⟨f, fs₁, g, fs₂, m₁, fs₃, m₂, first, second, page, close, close'⟩⟩ |
    ⟨f, fs₁, g, fs₂, p, -, first, second, page, rfl⟩
  · exact wf
  · exact fileclose_wf (filealloc_wf wf first) close
  · have wf₂ := filealloc_wf (filealloc_wf wf first) second
    have wf₃ := fileclose_wf wf₂ close
    exact fileclose_wf wf₃ close'
  · have wf₂ := filealloc_wf (filealloc_wf wf first) second
    obtain ⟨hf, freeF, rfl⟩ := filealloc_cases first
    obtain ⟨hg, freeG, rfl⟩ := filealloc_cases second
    obtain ⟨fresh, -⟩ := owns.fresh_pipe page
    have apart : f ≠ g := by
      rintro rfl
      simp [Files.setFile] at freeG
    have typeF := wf.closed f freeF
    have freeG : (fs.file g).ref = 0 := by
      simpa [Files.setFile, Ne.symm apart] using freeG
    have typeG := wf.closed g freeG
    refine wf₂.newPipe apart hf hg ?_ ?_ fresh ?_
    · simp [Files.setFile, apart]
    · simp [Files.setFile]
    · constructor
      · simp [Files.setFile, apart, typeF]
      · simp [Files.setFile, Ne.symm apart, typeG]

end RandomRepo.Xv6

import RandomRepo.Lib.Run
import RandomRepo.Xv6.VolumeFile

/-!
# Writing through a shared file

Calls of `filewrite` on one `struct file`, by any number of processes.  A call writes its
buffer in chunks, one transaction each.  The lock of the inode is held in a transaction but
not between two of them, so the chunks of different calls come in any order.
-/

namespace RandomRepo.Xv6.Volume

/-- `vol` and `copy` are the disk and the inode in memory, `off` is the offset in the `struct file`.
A call `c` has the local variable `i c`, and has left its loop early if `broke c`.  The history
variable `chunks` has the chunks written so far, each with its call. -/
structure Shared (ι : Type) where
  vol : Vol
  copy : Option Inode
  off : Nat
  i : ι → Nat
  broke : ι → Bool
  chunks : List (ι × List UInt8)

variable {ι : Type} {sb : Superblock} {dev : Devsw} {inum : Nat}
  {buf : ι → List UInt8} {s s₀ t : Shared ι} {c : ι}

/-- The next `n1` bytes of a call. -/
def Shared.chunk (buf : ι → List UInt8) (s : Shared ι) (c : ι) : List UInt8 :=
  ((buf c).drop (s.i c)).take chunkMax

section

variable [DecidableEq ι]

/-- One turn of the loop of a call of `filewrite`.  There is no step if it panics. -/
inductive SharedStep (sb : Superblock) (dev : Devsw) (inum : Nat) (buf : ι → List UInt8) :
    Shared ι → ι → Shared ι → Prop
  | wrote {s : Shared ι} {c : ι} {r : Int} {ip : Inode} {off : Nat} {vol : Vol}
      (more : s.i c < (buf c).length) (going : s.broke c = false)
      (op : filewriteOp sb dev inum s.copy s.off (s.chunk buf c) s.vol = .ok ((r, ip, off), vol))
      (whole : r = (s.chunk buf c).length) :
      SharedStep sb dev inum buf s c ⟨vol, some ip, off,
        Function.update s.i c (s.i c + (s.chunk buf c).length), s.broke,
        s.chunks ++ [(c, s.chunk buf c)]⟩
  | failed {s : Shared ι} {c : ι} {r : Int} {ip : Inode} {off : Nat} {vol : Vol}
      (more : s.i c < (buf c).length) (going : s.broke c = false)
      (op : filewriteOp sb dev inum s.copy s.off (s.chunk buf c) s.vol = .ok ((r, ip, off), vol))
      (negative : r < 0) :
      SharedStep sb dev inum buf s c { s with
        vol := vol, copy := some ip, off := off, broke := Function.update s.broke c true }

end

/-- The chunk lies within the largest file. -/
def Fits (buf : ι → List UInt8) (s : Shared ι) (c : ι) : Prop :=
  s.off + (s.chunk buf c).length ≤ maxfile * bsize

/-- The file that is written. -/
def Shared.inode (sb : Superblock) (inum : Nat) (s : Shared ι) : Inode := dinode sb s.vol.disk inum

def Shared.content (sb : Superblock) (inum : Nat) (s : Shared ι) : List UInt8 :=
  Volume.content s.vol.disk (s.inode sb inum)

/-- All bytes written so far. -/
def Shared.bytes (s : Shared ι) : List UInt8 := s.chunks.flatMap Prod.snd

/-- A regular file with the offset inside it. -/
structure Shared.Open (sb : Superblock) (inum : Nat) (s : Shared ι) : Prop where
  consistent : Consistent sb s.vol.disk
  copy : s.copy = none ∨ s.copy = some (s.inode sb inum)
  file : (s.inode sb inum).isFile
  inside : s.off ≤ (s.inode sb inum).size.toNat

/-- No call has written anything yet. -/
structure Shared.Fresh (s : Shared ι) : Prop where
  i : ∀ c, s.i c = 0
  broke : ∀ c, s.broke c = false
  chunks : s.chunks = []

section

variable [DecidableEq ι]

/-- What holds after some chunks have been written, from the state `s₀` on. -/
structure Progress (sb : Superblock) (inum : Nat) (buf : ι → List UInt8) (s₀ s : Shared ι) :
    Prop where
  state : s.Open sb inum
  off : s.off = s₀.off + s.bytes.length
  content : s.content sb inum = (s₀.content sb inum).take s₀.off ++ s.bytes ++
    (s₀.content sb inum).drop (s₀.off + s.bytes.length)
  sizes : ∀ e ∈ s.chunks, 0 < e.2.length ∧ e.2.length ≤ chunkMax
  order : ∀ c, (s.chunks.filter fun e => e.1 = c).flatMap Prod.snd = (buf c).take (s.i c)
  bound : ∀ c, s.i c ≤ (buf c).length
  going : ∀ c, s.broke c = false

end

theorem Shared.content_length (file : (s.inode sb inum).isFile) :
    (s.content sb inum).length = (s.inode sb inum).size.toNat := by
  unfold Shared.content Volume.content
  rw [slice_length, file.fileSize_eq]

theorem Progress.start [DecidableEq ι] (state : s₀.Open sb inum) (fresh : s₀.Fresh) :
    Progress sb inum buf s₀ s₀ := by
  have none_ : s₀.bytes = [] := by
    unfold Shared.bytes
    rw [fresh.chunks]
    rfl
  refine ⟨state, ?_, ?_, ?_, fun c => ?_, fun c => ?_, fresh.broke⟩
  · rw [none_]
    rfl
  · rw [none_, List.append_nil, List.length_nil, Nat.add_zero, List.take_append_drop]
  · rw [fresh.chunks]
    intro e wrong
    cases wrong
  · rw [fresh.chunks, fresh.i c]
    rfl
  · rw [fresh.i c]
    exact Nat.zero_le _

/-- What a transaction does to a file if it returns. -/
theorem filewriteOp_cases {off : Nat} {copy : Option Inode} {src : List UInt8} {s t : Vol} {r : Int}
    {ip : Inode} {off' : Nat} (valid : sb.Valid) (consistent : Consistent sb s.disk)
    (number : inum < sb.ninodes) (file : (dinode sb s.disk inum).isFile)
    (known : copy = none ∨ copy = some (dinode sb s.disk inum))
    (upto : off ≤ (dinode sb s.disk inum).size.toNat) (inside : off + src.length ≤ maxfile * bsize)
    (op : filewriteOp sb dev inum copy off src s = .ok ((r, ip, off'), t)) :
    r = src.length ∧ ip = dinode sb t.disk inum ∧ off' = off + src.length ∧
      Rewritten sb inum off src ⟨s.disk, []⟩ t := by
  have limit : maxfile * bsize = 71680 := rfl
  obtain ⟨_, s₁, start, op⟩ := bind_run_iff.mp op
  obtain ⟨ip₁, s₂, lock, op⟩ := bind_run_iff.mp op
  obtain ⟨⟨r', ip₂⟩, s₃, write, rest⟩ := bind_run_iff.mp op
  cases start
  obtain ⟨rfl, copied⟩ := ilock_ok lock
  have same : ip₁ = dinode sb s.disk inum := by
    rcases copied with held | ⟨-, read, -⟩
    · rcases known with none_ | some_
      · rw [none_] at held
        cases held
      · rw [some_] at held
        exact (Option.some.inj held).symm
    · exact read
  subst same
  rcases writei_cases (s := ⟨s.disk, []⟩) valid consistent number file (by omega) (by omega) write
    with ⟨-, -, -, outside⟩ | ⟨rfl, rfl, rewritten, -, -⟩
  · rcases outside with wrong | wrong
    · exact absurd wrong (by show ¬ (dinode sb s.disk inum).size.toNat < off; omega)
    · omega
  · cases rest
    refine ⟨rfl, rfl, ?_, rewritten⟩
    split_ifs with positive
    · rw [Int.toNat_natCast]
      exact u32_of_lt (by omega)
    · omega

/-- A piece put behind the pieces that are there already. -/
theorem splice_next {α : Type} {A B C : List α} {o : Nat} (inside : o ≤ A.length) :
    (A.take o ++ B ++ A.drop (o + B.length)).take (o + B.length) ++ C ++
        (A.take o ++ B ++ A.drop (o + B.length)).drop (o + B.length + C.length) =
      A.take o ++ (B ++ C) ++ A.drop (o + (B ++ C).length) := by
  have front : (A.take o ++ B).length = o + B.length := by
    rw [List.length_append, List.length_take, Nat.min_eq_left inside]
  rw [← front, List.take_left, front, List.append_assoc (A.take o ++ B), List.drop_append, front,
    List.drop_eq_nil_of_le (by rw [front]; omega), List.nil_append, List.length_append,
    List.drop_drop, List.append_assoc, List.append_assoc, List.append_assoc]
  congr 4
  omega

theorem Progress.step [DecidableEq ι] (progress : Progress sb inum buf s₀ s)
    (begin_ : s₀.Open sb inum) (valid : sb.Valid) (number : inum < sb.ninodes) (fits : Fits buf s c)
    (step : SharedStep sb dev inum buf s c t) : Progress sb inum buf s₀ t := by
  have state := progress.state
  have length := Shared.content_length begin_.file
  cases step with
  | @failed r ip off vol more going op negative =>
    obtain ⟨whole, -⟩ := filewriteOp_cases valid state.consistent number state.file state.copy
      state.inside fits op
    omega
  | @wrote r ip off vol more going op whole =>
    obtain ⟨-, rfl, rfl, rewritten⟩ := filewriteOp_cases valid state.consistent number state.file
      state.copy state.inside fits op
    generalize new : s.chunk buf c = src at *
    have part : src.length ≤ (buf c).length - s.i c ∧ src.length ≤ chunkMax ∧ 0 < src.length := by
      have most : 0 < chunkMax := by decide
      rw [← new]
      unfold Shared.chunk
      rw [List.length_take, List.length_drop]
      omega
    have bytes : (s.chunks ++ [(c, src)]).flatMap Prod.snd = s.bytes ++ src := by
      rw [List.flatMap_append]
      exact congrArg _ (List.append_nil src)
    have room := begin_.inside
    refine ⟨⟨rewritten.consistent, .inr rfl, ?_, ?_⟩, ?_, ?_, ?_, fun c' => ?_, fun c' => ?_,
      progress.going⟩
    · have file := state.file
      unfold Shared.inode Inode.isFile at file ⊢
      dsimp only
      rw [rewritten.fields]
      exact file
    · show s.off + src.length ≤ (dinode sb vol.disk inum).size.toNat
      rw [rewritten.size]
      exact Nat.le_max_right ..
    · show s.off + src.length = s₀.off + ((s.chunks ++ [(c, src)]).flatMap Prod.snd).length
      rw [bytes, List.length_append, progress.off, Nat.add_assoc]
    · show Volume.content vol.disk (dinode sb vol.disk inum) = _ ++
        (s.chunks ++ [(c, src)]).flatMap Prod.snd ++
          List.drop (_ + ((s.chunks ++ [(c, src)]).flatMap Prod.snd).length) _
      have now : Volume.content s.vol.disk (dinode sb s.vol.disk inum) = _ := progress.content
      rw [bytes, rewritten.bytes, progress.off]
      dsimp only
      rw [now]
      exact splice_next (by omega)
    · intro e member
      rcases List.mem_append.mp member with old | here
      · exact progress.sizes e old
      · rw [List.mem_singleton.mp here]
        exact ⟨part.2.2, part.2.1⟩
    · show ((s.chunks ++ [(c, src)]).filter fun e => e.1 = c').flatMap Prod.snd =
        (buf c').take (Function.update s.i c (s.i c + src.length) c')
      rw [List.filter_append, List.flatMap_append, progress.order c']
      by_cases self : c' = c
      · subst self
        rw [Function.update_self, List.take_add]
        congr 1
        have single : [(c', src)].filter (fun e => decide (e.1 = c')) = [(c', src)] := by
          simp
        rw [single]
        show src ++ [] = _
        rw [List.append_nil, ← new]
        unfold Shared.chunk
        rw [List.length_take, List.take_eq_take_iff]
        omega
      · have single : [(c, src)].filter (fun e => decide (e.1 = c')) = [] := by
          simp [Ne.symm self]
        rw [single, Function.update_of_ne self]
        exact List.append_nil _
    · show Function.update s.i c (s.i c + src.length) c' ≤ _
      have bound := progress.bound c'
      by_cases self : c' = c
      · subst self
        rw [Function.update_self]
        omega
      · rw [Function.update_of_ne self]
        exact bound

/-- Each chunk stands in the file behind those before it. -/
theorem Progress.chunk_at [DecidableEq ι] (progress : Progress sb inum buf s₀ s)
    (begin_ : s₀.Open sb inum) {before after : List (ι × List UInt8)} {e : ι × List UInt8}
    (chunks : s.chunks = before ++ e :: after) :
    ((s.content sb inum).drop (s₀.off + (before.flatMap Prod.snd).length)).take e.2.length = e.2 := by
  have length := Shared.content_length begin_.file
  have inside := begin_.inside
  have bytes : s.bytes = before.flatMap Prod.snd ++ (e.2 ++ after.flatMap Prod.snd) := by
    unfold Shared.bytes
    rw [chunks, List.flatMap_append, List.flatMap_cons]
  have front : ((s₀.content sb inum).take s₀.off ++ before.flatMap Prod.snd).length =
      s₀.off + (before.flatMap Prod.snd).length := by
    rw [List.length_append, List.length_take, Nat.min_eq_left (by omega)]
  rw [progress.content, bytes, ← List.append_assoc, List.append_assoc (_ ++ _), ← front,
    List.drop_left, List.append_assoc, List.take_left]

/-- Writes through a shared file, in any order of their chunks, while the file is not too large: the
offset has advanced by all bytes written, which stand in the file one chunk after the other and with
nothing else changed, and the chunks of each call are the beginning of its buffer. -/
theorem shared_writes [DecidableEq ι] (valid : sb.Valid) (number : inum < sb.ninodes)
    (begin_ : s₀.Open sb inum) (fresh : s₀.Fresh)
    (run : Run (SharedStep sb dev inum buf) (Fits buf) s₀ t) :
    t.off = s₀.off + t.bytes.length ∧
      t.content sb inum = (s₀.content sb inum).take s₀.off ++ t.bytes ++
        (s₀.content sb inum).drop (s₀.off + t.bytes.length) ∧
      (∀ before e after, t.chunks = before ++ e :: after → 0 < e.2.length ∧ e.2.length ≤ chunkMax ∧
        ((t.content sb inum).drop (s₀.off + (before.flatMap Prod.snd).length)).take e.2.length =
          e.2) ∧
      (∀ c, (t.chunks.filter fun e => e.1 = c).flatMap Prod.snd = (buf c).take (t.i c)) ∧
      ∀ c, t.broke c = false := by
  have progress : Progress sb inum buf s₀ t :=
    run.invariant (Progress sb inum buf s₀) (.start begin_ fresh)
      fun s c t progress fits step => progress.step begin_ valid number fits step
  refine ⟨progress.off, progress.content, fun before e after chunks => ?_, progress.order,
    progress.going⟩
  have member : e ∈ t.chunks := by
    rw [chunks]
    exact List.mem_append_right _ List.mem_cons_self
  exact ⟨(progress.sizes e member).1, (progress.sizes e member).2, progress.chunk_at begin_ chunks⟩

/-- An empty file, and two calls that have not written anything. -/
def smallShared : Shared Bool := ⟨⟨smallDisk, []⟩, none, 0, fun _ => 0, fun _ => false, []⟩

/-- A buffer that takes two chunks, and a short one. -/
def smallBufs (long : Bool) : List UInt8 := if long then List.replicate 1600 7 else [1, 2, 3]

theorem smallShared_open : smallShared.Open smallSb 1 where
  consistent := smallDisk_consistent
  copy := .inl rfl
  file := by
    unfold Inode.isFile
    decide +kernel
  inside := by decide +kernel

/-- The next chunk of a call, if it is written as a whole. -/
def smallNext (s : Shared Bool) (c : Bool) : Option (Shared Bool) :=
  match filewriteOp smallSb noDev 1 s.copy s.off (s.chunk smallBufs c) s.vol with
  | .error _ => none
  | .ok ((r, ip, off), vol) =>
    if s.i c < (smallBufs c).length ∧ s.broke c = false ∧ r = (s.chunk smallBufs c).length ∧
        s.off + (s.chunk smallBufs c).length ≤ maxfile * bsize then
      some ⟨vol, some ip, off, Function.update s.i c (s.i c + (s.chunk smallBufs c).length), s.broke,
        s.chunks ++ [(c, s.chunk smallBufs c)]⟩
    else none

theorem smallNext_sound (s : Shared Bool) (c : Bool) (t : Shared Bool) (done : smallNext s c = some t) :
    Fits smallBufs s c ∧ SharedStep smallSb noDev 1 smallBufs s c t := by
  unfold smallNext at done
  split at done
  · cases done
  · rename_i op
    split_ifs at done with fine
    cases done
    exact ⟨fine.2.2.2, .wrote fine.1 fine.2.1 op fine.2.2.1⟩

/-- The short buffer comes between the two chunks of the long one. -/
theorem shared_writes_small : ∃ t,
    Run (SharedStep smallSb noDev 1 smallBufs) (Fits smallBufs) smallShared t ∧ t.off = 1603 ∧
      t.content smallSb 1 = List.replicate 1536 7 ++ [1, 2, 3] ++ List.replicate 64 7 := by
  have steps : (follow smallNext [true, false, true] smallShared).any (fun t =>
      decide (t.chunks = [(true, List.replicate 1536 7), (false, [1, 2, 3]),
        (true, List.replicate 64 7)])) = true := by decide +kernel
  obtain ⟨t, run, shape⟩ := Run.follow_any _ _ smallNext_sound steps
  have bytes : t.bytes = List.replicate 1536 7 ++ [1, 2, 3] ++ List.replicate 64 7 := by
    simp only [Shared.bytes, of_decide_eq_true shape, List.flatMap_cons, List.flatMap_nil,
      List.append_nil, List.append_assoc]
  have empty : smallShared.content smallSb 1 = [] := by decide +kernel
  obtain ⟨advanced, content, -⟩ := shared_writes smallSb_valid (by decide) smallShared_open
    ⟨fun _ => rfl, fun _ => rfl, rfl⟩ run
  rw [empty, List.take_nil, List.drop_nil, List.nil_append, List.append_nil, bytes] at content
  refine ⟨t, run, ?_, content⟩
  rw [advanced, bytes]
  simp only [List.length_append, List.length_replicate, List.length_cons, List.length_nil]
  rfl

end RandomRepo.Xv6.Volume

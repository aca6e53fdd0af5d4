import RandomRepo.Xv6.UmallocSafe
import RandomRepo.Xv6.SbrkExact

/-!
The break of the process under its allocator.

`morecore` asks for a number of bytes that it computes as a `uint`, and `sbrk` takes an
`int`.  Here the answer of `sbrk` is no longer arbitrary: it is what `growproc` makes of
that number and of the size of the process.
-/

namespace RandomRepo.Xv6

namespace Heap

variable {base nbytes brk : Nat} {memory : Bool}

/-! ## The answer of the kernel -/

/-- A word as the `int` with the same bits. -/
def toInt (w : Nat) : Int := if w < 2147483648 then w else w - 4294967296

/-- The size that `allocuvm` or `deallocuvm` returns to `growproc`, where 0 is a failure.
`memory` says whether there are pages enough. -/
def resized (brk : Nat) (n : Int) (memory : Bool) : Nat :=
  let newsz := uaddInt brk n
  if 0 < n then if kernbase ≤ newsz ∨ memory = false then 0 else newsz
  else if brk ≤ newsz then brk else newsz

/-- What `sbrk(n)` answers, and the break afterwards. -/
def sbrkReply (brk : Nat) (n : Int) (memory : Bool) : Option Nat × Nat :=
  if n = 0 then (some brk, brk)
  else if resized brk n memory = 0 then (none, brk)
  else (some brk, resized brk n memory)

/-- The system call answers as `sbrkReply` says. -/
theorem sysSbrk_reply {L : Layout} {n : CInt} {p p' : Proc} {m m' : Kmem} {addr : Nat}
    (bound : p.sz ≤ kernbase) (call : sysSbrk L (some n) p m = .ok (addr, p', m')) :
    ∃ memory, sbrkReply p.sz n.val memory =
      (if addr = minusOne then none else some addr, p'.sz) := by
  have kern : kernbase = 2147483648 := rfl
  have isInt := n.property
  unfold IsInt at isInt
  have valid : p.sz ≠ minusOne := by unfold minusOne; omega
  obtain ⟨⟨ok, q, m₁⟩, grow, rest⟩ := bind_ok_iff.mp call
  cases rest
  rcases growproc_cases grow with ⟨zero, rfl, rfl, rfl⟩ | ⟨nonzero, pd, pd', r, -, ok_, rfl, resize⟩
  · refine ⟨true, ?_⟩
    rw [sbrkReply, if_pos zero, if_pos rfl, if_neg valid]
  have size : ∃ memory, resized p.sz n.val memory = r := by
    unfold resized
    dsimp only
    split_ifs at resize with positive
    · have sum := uaddInt_of_nonneg (a := p.sz) (Int.le_of_lt positive) (by omega)
      cases allocuvm_spec resize with
      | tooBig big => exact ⟨true, (if_pos positive).trans (if_pos (.inl big))⟩
      | smaller fits less => omega
      | grown fits more =>
        refine ⟨true, (if_pos positive).trans (if_neg ?_)⟩
        exact not_or.mpr ⟨Nat.not_le.mpr fits, Bool.noConfusion⟩
      | outOfMemory => exact ⟨false, (if_pos positive).trans (if_pos (.inr rfl))⟩
    · rcases (deallocuvm_size resize).2 with ⟨keep, rfl, -, -⟩ | ⟨less, rfl⟩
      · exact ⟨true, (if_neg positive).trans (if_pos keep)⟩
      · exact ⟨true, (if_neg positive).trans (if_neg (Nat.not_le.mpr less))⟩
  obtain ⟨memory, size⟩ := size
  refine ⟨memory, ?_⟩
  rw [sbrkReply, if_neg nonzero, size]
  by_cases failed : r = 0
  · have bad : ok = false := Bool.eq_false_iff.mpr fun good => ok_.mp good failed
    rw [bad, if_pos failed, if_pos failed, if_pos (if_neg Bool.noConfusion)]
  · have good : ok = true := ok_.mpr failed
    rw [good, if_neg failed, if_neg failed, if_pos rfl, if_neg valid]

/-- A positive request that is granted moves the break by as much and keeps it in user memory. -/
theorem sbrkReply_positive {n g : Nat} (positive : 0 < n) (small : n < 2147483648)
    (bound : brk ≤ kernbase) (granted : (sbrkReply brk n memory).1 = some g) :
    g = brk ∧ (sbrkReply brk n memory).2 = brk + n ∧ brk + n ≤ kernbase := by
  have kern : kernbase = 2147483648 := rfl
  have sum := uaddInt_of_nonneg (a := brk) (n := n) (by omega) (by omega)
  have size : resized brk n memory = 0 ∨ resized brk n memory = brk + n ∧ brk + n ≤ kernbase := by
    unfold resized
    dsimp only
    rw [if_pos (by omega)]
    split_ifs with refused
    · exact .inl rfl
    · exact .inr ⟨by omega, by omega⟩
  unfold sbrkReply at granted ⊢
  rw [if_neg (by omega)] at granted ⊢
  rcases size with failed | ⟨moved, fits⟩
  · rw [if_pos failed] at granted
    cases granted
  · rw [if_neg (by omega)] at granted ⊢
    exact ⟨(Option.some.inj granted).symm, moved, fits⟩

theorem sbrkReply_refused {n : Int} (refused : (sbrkReply brk n memory).1 = none) :
    (sbrkReply brk n memory).2 = brk := by
  unfold sbrkReply at refused ⊢
  split_ifs at refused ⊢ with zero failed
  rfl

/-- A request that is not positive is granted as well, unless it leaves no memory at all, and the
break does not move up. -/
theorem sbrkReply_nonpositive {n : Int} (negative : n ≤ 0) (isInt : -4294967296 < n)
    (some_ : 0 < brk) (rest : (brk : Int) + n ≠ 0) (bound : brk ≤ kernbase) :
    (sbrkReply brk n memory).1 = some brk ∧ (sbrkReply brk n memory).2 ≤ brk := by
  have kern : kernbase = 2147483648 := rfl
  have nonzero : resized brk n memory ≠ 0 ∧ resized brk n memory ≤ brk := by
    unfold resized uaddInt
    dsimp only
    rw [if_neg (by omega)]
    split_ifs <;> omega
  unfold sbrkReply
  split_ifs with zero failed
  · exact ⟨rfl, le_rfl⟩
  · exact absurd failed nonzero.1
  · exact ⟨rfl, nonzero.2⟩

/-! ## The answers that a call uses -/

/-- The regions granted with these answers to requests for `nu` units. -/
def granted (nu : Nat) (used : List (Option Nat)) : List Block :=
  (used.filterMap fun answer => answer.map fun g => ⟨g, nu⟩).reverse

/-- From `h` to `h'` some answers are used, and the regions of these are added. -/
def Asked (nu : Nat) (h h' : Heap) : Prop :=
  ∃ used, h.answers = used ++ h'.answers ∧ h'.regions = granted nu used ++ h.regions

theorem Asked.of_same {nu : Nat} {h h' : Heap} (answers : h'.answers = h.answers)
    (regions : h'.regions = h.regions) : Asked nu h h' :=
  ⟨[], answers.symm, regions⟩

theorem Asked.trans {nu : Nat} {h h' h'' : Heap} (first : Asked nu h h') (second : Asked nu h' h'') :
    Asked nu h h'' := by
  obtain ⟨used, answers, regions⟩ := first
  obtain ⟨used', answers', regions'⟩ := second
  refine ⟨used ++ used', ?_, ?_⟩
  · rw [answers, answers', List.append_assoc]
  · rw [regions', regions]
    unfold granted
    rw [List.filterMap_append, List.reverse_append, List.append_assoc]

theorem sbrk_asked {h h' : Heap} {nu : Nat} {p : Option Nat} (call : sbrk h nu = some (p, h')) :
    Asked nu h h' := by
  unfold sbrk at call
  split at call
  · cases call
  · next rest answers =>
      cases call
      exact ⟨[none], answers, rfl⟩
  · next g rest answers =>
      cases call
      exact ⟨[some g], answers, rfl⟩

theorem free_same {h h' : Heap} {fuel ap : Nat} (call : free fuel h ap = some h') :
    h'.answers = h.answers ∧ h'.regions = h.regions := by
  obtain ⟨p, -, rfl⟩ := Option.map_eq_some_iff.mp call
  exact ⟨rfl, rfl⟩

theorem morecore_asked {h h' : Heap} {fuel n p : Nat} (call : morecore fuel h n = some (p, h')) :
    Asked (coreUnits n) h h' := by
  obtain ⟨⟨g, h₁⟩, asked, rest⟩ := Option.bind_eq_some_iff.mp call
  cases g with
  | none =>
    cases rest
    exact sbrk_asked asked
  | some g =>
    obtain ⟨h₂, freed, done⟩ := Option.map_eq_some_iff.mp rest
    cases done
    obtain ⟨answers, regions⟩ := free_same freed
    exact (sbrk_asked asked).trans (.of_same answers regions)

theorem take_asked {h : Heap} {nu n prevp p : Nat} : Asked nu h (take h n prevp p).2 := by
  unfold take
  split_ifs
  · exact .of_same rfl rfl
  · exact .of_same rfl rfl

theorem mallocLoop_asked {h h' : Heap} {n fuel prevp p ap : Nat}
    (call : mallocLoop n fuel h prevp p = some (ap, h')) : Asked (coreUnits n) h h' := by
  induction fuel generalizing h prevp p with
  | zero => cases call
  | succ fuel ih =>
    rw [mallocLoop] at call
    split_ifs at call with enough back
    · have result := Option.some.inj call
      have same : h' = (take h n prevp p).2 := (congrArg Prod.snd result).symm
      rw [same]
      exact take_asked
    · obtain ⟨⟨q, h₁⟩, core, rest⟩ := Option.bind_eq_some_iff.mp call
      dsimp only at rest
      split_ifs at rest with null
      · cases rest
        exact morecore_asked core
      · exact (morecore_asked core).trans (ih rest)
    · exact ih call

/-- With one answer at hand it is used or not. -/
theorem malloc_asked {h h' : Heap} {fuel ap : Nat} {answer : Option Nat}
    (call : malloc base fuel { h with answers := [answer] } nbytes = some (ap, h')) :
    (h'.answers = [answer] ∧ h'.regions = h.regions) ∨
      h'.answers = [] ∧ h'.regions = granted (coreUnits (unitsFor nbytes)) [answer] ++ h.regions := by
  obtain ⟨used, answers, regions⟩ := mallocLoop_asked call
  have start : (init base { h with answers := [answer] }).answers = [answer] ∧
      (init base { h with answers := [answer] }).regions = h.regions := by
    unfold init
    split_ifs
    · exact ⟨rfl, rfl⟩
    · exact ⟨rfl, rfl⟩
  rw [start.1] at answers
  rw [start.2] at regions
  cases used with
  | nil => exact .inl ⟨answers.symm, regions⟩
  | cons first used =>
    obtain ⟨same, rest⟩ := List.cons.inj answers
    obtain ⟨none_, last⟩ := List.append_eq_nil_iff.mp rest.symm
    subst same none_
    exact .inr ⟨last, regions⟩

/-! ## Processes -/

/-- A program and the break of its process. -/
structure Process where
  prog : Program
  brk : Nat

/-- The argument of `sbrk` when `malloc(nbytes)` asks for memory. -/
def request (nbytes : Nat) : Int := toInt (u32 (8 * coreUnits (unitsFor nbytes)))

/-- `malloc` above the kernel: the pointer returned and the process afterwards. -/
def Process.malloc (base fuel : Nat) (s : Process) (nbytes : Nat) (memory : Bool) :
    Option (Nat × Process) :=
  let reply := sbrkReply s.brk (request nbytes) memory
  (Heap.malloc base fuel { s.prog.heap with answers := [reply.1] } nbytes).map fun r =>
    (r.1, ⟨⟨r.2, given r.1 (unitsFor nbytes) s.prog.live⟩,
      if r.2.answers = [] then reply.2 else s.brk⟩)

/-- What a process does: it calls `malloc` and `free`, writes bytes, and moves the break up by its
own calls of `sbrk` and `mmap`.  A process that moves it down takes away memory that `malloc` counts
on; what follows is about processes that do not. -/
inductive ProcessOp where
  | malloc (nbytes : Nat) (memory : Bool)
  | free (ap : Nat)
  | store (y : Nat) (v : UInt8)
  | grow (n : Nat)

inductive ProcessStep (base : Nat) : Process → ProcessOp → Process → Prop
  | malloc {s t : Process} {nbytes fuel ap : Nat} {memory : Bool}
      (call : s.malloc base fuel nbytes memory = some (ap, t)) :
      ProcessStep base s (.malloc nbytes memory) t
  | free {s : Process} {ap : Nat} {t : Program} (step : Step base s.prog (.free ap) t) :
      ProcessStep base s (.free ap) ⟨t, s.brk⟩
  | store {s : Process} {y : Nat} {v : UInt8} {t : Program}
      (step : Step base s.prog (.store y v) t) : ProcessStep base s (.store y v) ⟨t, s.brk⟩
  | grow (s : Process) (n : Nat) : ProcessStep base s (.grow n) { s with brk := s.brk + n }

/-- The number of bytes up to which the computations of `malloc` and `morecore` are exact. -/
def mallocLimit : Nat := 2147483632

/-- The process asks for no more than the limit, keeps to its memory, and stays below the
kernel. -/
def Modest (base : Nat) (s : Process) : ProcessOp → Prop
  | .malloc nbytes _ => nbytes ≤ mallocLimit
  | .free ap => Allowed base s.prog (.free ap)
  | .store y v => Allowed base s.prog (.store y v)
  | .grow n => s.brk + n ≤ kernbase

/-- A process whose break is at `brk` and that has not called `malloc`. -/
def Process.boot (m : Memory) (brk : Nat) : Process := ⟨Program.boot m, brk⟩

/-- The region was granted by a call of `sbrk` with a positive argument, and is below the break. -/
structure Region (brk : Nat) (r : Block) : Prop where
  positive : 0 < 8 * r.units
  isInt : 8 * r.units < 2147483648
  below : r.stop ≤ brk

theorem Region.mono {brk' : Nat} {r : Block} (region : Region brk r) (more : brk ≤ brk') :
    Region brk' r :=
  ⟨region.positive, region.isInt, region.below.trans more⟩

/-- The break is above all that `sbrk` has granted to the allocator. -/
structure Process.Bounded (base : Nat) (s : Process) : Prop where
  sound : Sound base s.prog
  low : base + 8 ≤ s.brk
  high : s.brk ≤ kernbase
  regions : ∀ r ∈ s.prog.heap.regions, Region s.brk r

/-- **The pointer is good for `nbytes` bytes**: the header in front of it says so, and the bytes
are in regions that `sbrk` granted, below the break. -/
structure Usable (nbytes ap : Nat) (s : Process) : Prop where
  header : nbytes + 8 ≤ 8 * size s.prog.heap.mem (ap - 8)
  granted : ∀ y, ap ≤ y → y < ap + nbytes →
    ∃ r ∈ s.prog.heap.regions, r.covers y = true ∧ Region s.brk r
  below : ap + nbytes ≤ s.brk

/-- `malloc(nbytes)` returns, and a pointer that is not null is good for `nbytes` bytes. -/
def Process.Enough (base : Nat) (s : Process) (nbytes : Nat) : Prop :=
  ∀ memory, ∃ ap t, Settles (fun fuel => s.malloc base fuel nbytes memory) (ap, t) ∧
    (ap ≠ 0 → Usable nbytes ap t)

/-! ## Within the limit -/

theorem unitsFor_limit (within : nbytes ≤ mallocLimit) :
    nbytes + 7 < 4294967296 ∧ 8 * coreUnits (unitsFor nbytes) < 2147483648 ∧
      nbytes + 8 ≤ 8 * unitsFor nbytes := by
  unfold mallocLimit at within
  unfold unitsFor coreUnits u32
  split_ifs <;> omega

theorem request_limit (within : nbytes ≤ mallocLimit) :
    request nbytes = (8 * coreUnits (unitsFor nbytes) : Nat) := by
  have small := (unitsFor_limit within).2.1
  unfold request toInt u32
  rw [Nat.mod_eq_of_lt (by omega), if_pos small]

namespace Process

variable {s t : Process}

/-- What the kernel answers may be used by `malloc`. -/
theorem Bounded.allowed (bounded : s.Bounded base) (within : nbytes ≤ mallocLimit) (memory : Bool) :
    Allowed base s.prog (.malloc nbytes (sbrkReply s.brk (request nbytes) memory).1) := by
  obtain ⟨exact_, small, -⟩ := unitsFor_limit within
  refine ⟨exact_, small, fun g granted => ?_⟩
  have positive := (le_coreUnits (unitsFor nbytes)).2
  rw [request_limit within] at granted
  obtain ⟨rfl, -, fits⟩ := sbrkReply_positive (by omega) small bounded.high granted
  exact ⟨bounded.low, fun r member => (bounded.regions r member).below, fits⟩

/-- The break moves up with the regions. -/
theorem Bounded.regions_malloc (bounded : s.Bounded base) (within : nbytes ≤ mallocLimit)
    {fuel ap : Nat} (call : s.malloc base fuel nbytes memory = some (ap, t)) :
    base + 8 ≤ t.brk ∧ t.brk ≤ kernbase ∧ ∀ r ∈ t.prog.heap.regions, Region t.brk r := by
  obtain ⟨⟨_, h⟩, called, made⟩ := Option.map_eq_some_iff.mp call
  cases made
  dsimp only
  have low := bounded.low
  have high := bounded.high
  rcases malloc_asked called with ⟨unused, regions⟩ | ⟨used, regions⟩
  · rw [if_neg (by rw [unused]; exact List.cons_ne_nil _ _), regions]
    exact ⟨low, high, bounded.regions⟩
  rw [if_pos used, regions]
  cases answer : (sbrkReply s.brk (request nbytes) memory).1 with
  | none =>
    rw [sbrkReply_refused answer]
    exact ⟨low, high, bounded.regions⟩
  | some g =>
    obtain ⟨-, small, -⟩ := unitsFor_limit within
    have positive := (le_coreUnits (unitsFor nbytes)).2
    rw [request_limit within] at answer ⊢
    obtain ⟨rfl, moved, fits⟩ := sbrkReply_positive (by omega) small high answer
    rw [moved]
    refine ⟨by omega, fits, fun r member => ?_⟩
    rcases List.mem_cons.mp member with rfl | member
    · exact ⟨by dsimp only; omega, small, le_rfl⟩
    · exact (bounded.regions r member).mono (by omega)

/-- A block that `malloc` returns has the bytes that were asked for. -/
theorem Bounded.malloc (placed : Placed base) (bounded : s.Bounded base)
    (within : nbytes ≤ mallocLimit) (memory : Bool) :
    ∃ ap t, Settles (fun fuel => s.malloc base fuel nbytes memory) (ap, t) ∧ t.Bounded base ∧
      (ap ≠ 0 → Usable nbytes ap t) := by
  have allowed := bounded.allowed within memory
  obtain ⟨⟨ap, h⟩, settles, returns⟩ := bounded.sound.malloc placed allowed
  obtain ⟨brk, result⟩ : ∃ brk, Settles (fun fuel => s.malloc base fuel nbytes memory)
      (ap, ⟨⟨h, given ap (unitsFor nbytes) s.prog.live⟩, brk⟩) := ⟨_, settles.map _⟩
  obtain ⟨k, enough⟩ := id settles
  obtain ⟨k', enough'⟩ := id result
  obtain ⟨low, high, regions⟩ := bounded.regions_malloc within (enough' k' le_rfl)
  refine ⟨ap, _, result, ⟨?_, low, high, regions⟩, fun nonnull => ?_⟩
  · exact bounded.sound.step placed allowed (.malloc (enough k le_rfl))
  rcases returns with ⟨null, -⟩ | ⟨b, block, units, L, holds⟩
  · exact absurd null nonnull
  have inUse : b ∈ L ++ b :: s.prog.live := List.mem_append_right _ List.mem_cons_self
  have room := (unitsFor_limit within).2.2
  have own : ap - 8 = b.addr := by rw [show ap = b.addr + 8 from block, Nat.add_sub_cancel]
  have ends : ap + nbytes ≤ b.stop := by
    rw [show ap = b.addr + 8 from block, Block.stop, units]
    omega
  refine ⟨?_, fun y first last => ?_, ?_⟩
  · show nbytes + 8 ≤ 8 * size h.mem (ap - 8)
    rw [own, holds.sizes b List.mem_cons_self, units]
    exact room
  · obtain ⟨r, member, covers⟩ := holds.covered inUse (y := y)
      (Block.covers_iff.mpr ⟨by omega, by omega⟩)
    exact ⟨r, member, covers, regions r member⟩
  · obtain ⟨-, r, member, stop⟩ := holds.inside inUse (holds.used b List.mem_cons_self)
    exact ends.trans (stop.trans (regions r member).below)

theorem malloc_unique {fuel : Nat} {r r' : Nat × Process}
    (settles : Settles (fun fuel => s.malloc base fuel nbytes memory) r)
    (call : s.malloc base fuel nbytes memory = some r') : r' = r := by
  refine settles.unique (fun n k found => ?_) call
  obtain ⟨q, called, made⟩ := Option.map_eq_some_iff.mp found
  exact Option.map_eq_some_iff.mpr ⟨q, mallocLoop_mono called k, made⟩

theorem Bounded.step (placed : Placed base) {op : ProcessOp} (bounded : s.Bounded base)
    (modest : Modest base s op) (step : ProcessStep base s op t) : t.Bounded base := by
  cases step with
  | @malloc _ nbytes fuel ap memory call =>
    obtain ⟨ap', t', settles, bounded', -⟩ := bounded.malloc placed modest memory
    cases malloc_unique settles call
    exact bounded'
  | @free ap p step =>
    have allowed : Allowed base s.prog (.free ap) := modest
    refine ⟨bounded.sound.step placed allowed step, bounded.low, bounded.high, ?_⟩
    cases step with
    | free call =>
      rw [(free_same call).2]
      exact bounded.regions
  | @store y v p step =>
    have allowed : Allowed base s.prog (.store y v) := modest
    refine ⟨bounded.sound.step placed allowed step, bounded.low, bounded.high, ?_⟩
    cases step
    exact bounded.regions
  | grow n =>
    exact ⟨bounded.sound, bounded.low.trans (Nat.le_add_right _ _), modest,
      fun r member => (bounded.regions r member).mono (Nat.le_add_right _ _)⟩

theorem Bounded.boot {m : Memory} (low : base + 8 ≤ brk) (high : brk ≤ kernbase) :
    (Process.boot m brk).Bounded base :=
  ⟨.inl ⟨rfl, rfl, rfl⟩, low, high, fun _ member => nomatch member⟩

end Process

/-! ## Beyond the limit -/

theorem size_attach_empty {m : Memory} {p q : Nat} (empty : size m q = 0) :
    size (attach m p q) p = size m p := by
  have word : size m p < 4294967296 := readWord_lt
  unfold attach
  split_ifs
  · rw [size_setPtr, empty, Nat.add_zero, u32, Nat.mod_eq_of_lt word, size_setSize word]
  · exact size_setPtr

theorem ptr_attach_empty {m : Memory} {p q : Nat} (order : p < q) (word : q < 4294967296)
    (empty : size m p = 0) : ptr (attach m p q) p = q := by
  unfold attach
  rw [empty, u32, Nat.mod_eq_of_lt (by omega), if_neg (by omega), ptr_setPtr word]

/-- A region above an empty free list is put into it whatever its size. -/
theorem link_first {m : Memory} {g : Nat} (order : base + 8 ≤ g) (word : g < 4294967296)
    (lonely : ptr m base = base) (empty : size m base = 0) :
    ptr (link m g base) base = g ∧ size (link m g base) g = size m g := by
  have apart : Apart g base := .inr order
  rw [link_eq apart, lonely]
  refine ⟨?_, ?_⟩
  · exact ptr_attach_empty (by omega) word ((size_attach_apart apart).trans empty)
  · rw [size_attach_apart apart.symm, size_attach_empty empty]

/-- The first call of `malloc` with a large request takes all that `sbrk` seems to grant. -/
theorem malloc_first {m : Memory} {g : Nat} (placed : Placed base) (order : base + 8 ≤ g)
    (word : g < 4294967296) (large : 4096 ≤ unitsFor nbytes) :
    ∃ h, malloc base 3 ⟨m, 0, [some g], []⟩ nbytes = some (g + 8, h) ∧ h.answers = [] := by
  have apart : Apart g base := .inr order
  have nonzero := placed.nonzero
  have fits : unitsFor nbytes < 4294967296 := by unfold unitsFor u32; omega
  have core : coreUnits (unitsFor nbytes) = unitsFor nbytes := if_neg (by omega)
  obtain ⟨m₁, made, lonely, empty⟩ : ∃ m₁, setSize (setPtr m base base) base 0 = m₁ ∧
      ptr m₁ base = base ∧ size m₁ base = 0 :=
    ⟨_, rfl, ptr_setSize.trans (ptr_setPtr (by omega)), size_setSize (by omega)⟩
  obtain ⟨m₂, stored⟩ : ∃ m₂, setSize m₁ g (unitsFor nbytes) = m₂ := ⟨_, rfl⟩
  have size₂ : size m₂ g = unitsFor nbytes := stored ▸ size_setSize fits
  have lonely₂ : ptr m₂ base = base := stored ▸ (sameHeader_setSize apart).ptr.trans lonely
  have empty₂ : size m₂ base = 0 := stored ▸ (sameHeader_setSize apart).size.trans empty
  obtain ⟨next, whole⟩ := link_first order word lonely₂ empty₂
  have search : freeSearch m₂ g 2 base = some base := by
    rw [freeSearch, lonely₂, if_neg (by omega), if_pos ⟨le_rfl, .inl (by omega)⟩]
  have start : init base ⟨m, 0, [some g], []⟩ = ⟨m₁, base, [some g], []⟩ := by
    rw [init, if_pos rfl, made]
  have grown : morecore 2 ⟨m₁, base, [some g], []⟩ (unitsFor nbytes) =
      some (base, ⟨link m₂ g base, base, [], [⟨g, unitsFor nbytes⟩]⟩) := by
    unfold morecore
    dsimp only [sbrk, Option.bind]
    rw [core, stored, free]
    dsimp only
    rw [Nat.add_sub_cancel, search]
    rfl
  unfold malloc
  dsimp only
  rw [start, mallocLoop]
  dsimp only
  rw [lonely, empty, if_neg (by omega), if_pos rfl, grown]
  dsimp only [Option.bind]
  rw [if_neg (by omega), next, mallocLoop]
  dsimp only
  rw [whole, size₂, if_pos le_rfl, take]
  dsimp only
  rw [whole, size₂, if_pos rfl]
  exact ⟨_, rfl, rfl⟩

/-- Between the limit and the sizes that overflow themselves, the argument of `sbrk` is not
positive. -/
theorem request_beyond (beyond : mallocLimit < nbytes) (exact_ : nbytes + 7 < 4294967296) :
    request nbytes = 8 * unitsFor nbytes - 4294967296 ∧ 268435456 ≤ unitsFor nbytes ∧
      unitsFor nbytes ≤ 536870912 := by
  unfold mallocLimit at beyond
  have bounds : 268435456 ≤ unitsFor nbytes ∧ unitsFor nbytes ≤ 536870912 := by
    unfold unitsFor u32
    omega
  refine ⟨?_, bounds⟩
  have core : coreUnits (unitsFor nbytes) = unitsFor nbytes := if_neg (by omega)
  unfold request toInt u32
  rw [core]
  split_ifs <;> omega

/-- Then the process gets a pointer to memory above its break. -/
theorem malloc_beyond (beyond : mallocLimit < nbytes) (exact_ : nbytes + 7 < 4294967296)
    (placed : Placed base) (order : base + 8 ≤ brk) (high : brk ≤ kernbase)
    (rest : 8 * unitsFor nbytes + brk ≠ 4294967296) (m : Memory) :
    ∃ t, (Process.boot m brk).malloc base 3 nbytes true = some (brk + 8, t) ∧
      ¬ Usable nbytes (brk + 8) t := by
  have kern : kernbase = 2147483648 := rfl
  obtain ⟨request_, least, most⟩ := request_beyond beyond exact_
  obtain ⟨reply, moved⟩ : (sbrkReply brk (request nbytes) true).1 = some brk ∧
      (sbrkReply brk (request nbytes) true).2 ≤ brk := by
    rw [request_]
    exact sbrkReply_nonpositive (by omega) (by omega) (by omega) (by omega) high
  obtain ⟨h, call, used⟩ := malloc_first (m := m) placed order (by omega)
    (show 4096 ≤ unitsFor nbytes by omega)
  rw [← reply] at call
  refine ⟨_, Option.map_eq_some_iff.mpr ⟨(brk + 8, h), call, rfl⟩, fun usable => ?_⟩
  have below := usable.below
  dsimp only at below
  rw [if_pos used] at below
  exact absurd (below.trans moved) (by omega)

/-- When the number of units overflows, the process gets what it gets for 0 bytes. -/
theorem unitsFor_wrapped (wraps : 4294967296 ≤ nbytes + 7) (word : nbytes < 4294967296) :
    unitsFor nbytes = unitsFor 0 := by
  unfold unitsFor u32
  omega

theorem Process.malloc_congr {s : Process} {nbytes' : Nat} (same : unitsFor nbytes = unitsFor nbytes')
    (fuel : Nat) : s.malloc base fuel nbytes memory = s.malloc base fuel nbytes' memory := by
  unfold Process.malloc request Heap.malloc
  rw [same]

theorem malloc_wrapped (wraps : 4294967296 ≤ nbytes + 7) (word : nbytes < 4294967296) :
    ∃ t, (Process.boot (fun _ => 0) 12288).malloc 64 3 nbytes true = some (45056, t) ∧
      ¬ Usable nbytes 45056 t := by
  have call : ((Process.boot (fun _ => 0) 12288).malloc 64 3 0 true).any (fun r =>
      decide (r.1 = 45056 ∧ size r.2.prog.heap.mem (r.1 - 8) = 1)) = true := by decide +kernel
  rw [← Process.malloc_congr (unitsFor_wrapped wraps word)] at call
  obtain ⟨⟨ap, t⟩, result, shape⟩ := (Option.any_eq_true _ _).mp call
  obtain ⟨rfl, units⟩ := of_decide_eq_true shape
  refine ⟨t, result, fun usable => ?_⟩
  have header := usable.header
  rw [units] at header
  omega

theorem not_enough {s t : Process} {fuel ap : Nat}
    (call : s.malloc base fuel nbytes true = some (ap, t)) (some_ : ap ≠ 0)
    (useless : ¬ Usable nbytes ap t) : ¬ s.Enough base nbytes := by
  intro enough
  obtain ⟨ap, t, settles, usable⟩ := enough true
  cases Process.malloc_unique settles call
  exact useless (usable some_)

/-- **`malloc` returns enough memory, exactly up to the limit.**  A number of bytes is within the
limit if and only if, in every state of every process that asks for no more than the limit, `malloc`
of that number returns, and what it returns is null or good for as many bytes. -/
theorem malloc_enough_iff (nbytes : UInt32) :
    (∀ base m brk s, Placed base → base + 8 ≤ brk → brk ≤ kernbase →
      Run (ProcessStep base) (Modest base) (Process.boot m brk) s → s.Enough base nbytes.toNat) ↔
      nbytes.toNat ≤ mallocLimit := by
  have word := nbytes.toNat_lt
  have placed : Placed 64 := ⟨by decide, by decide⟩
  constructor
  · intro enough
    have first : ∀ brk, 72 ≤ brk → brk ≤ kernbase →
        (Process.boot (fun _ => 0) brk).Enough 64 nbytes.toNat := fun brk low high =>
      enough 64 _ brk _ placed low high (.refl _)
    by_contra beyond
    by_cases wraps : 4294967296 ≤ nbytes.toNat + 7
    · obtain ⟨t, call, useless⟩ := malloc_wrapped wraps word
      exact not_enough call (by decide) useless (first 12288 (by decide) (by decide))
    · -- One of two breaks is not what the call takes back.
      obtain ⟨brk, low, high, rest⟩ : ∃ brk, 72 ≤ brk ∧ brk ≤ kernbase ∧
          8 * unitsFor nbytes.toNat + brk ≠ 4294967296 := by
        by_cases rest : 8 * unitsFor nbytes.toNat + 12288 = 4294967296
        · exact ⟨16384, by decide, by decide, by omega⟩
        · exact ⟨12288, by decide, by decide, rest⟩
      obtain ⟨t, call, useless⟩ := malloc_beyond (by omega) (by omega) placed low high rest _
      exact not_enough call (Nat.succ_ne_zero _) useless (first brk low high)
  · intro within base m brk s placed low high run memory
    have bounded : s.Bounded base := run.invariant (Process.Bounded base) (.boot low high)
      fun _ _ _ bounded modest step => bounded.step placed modest step
    obtain ⟨ap, t, settles, -, usable⟩ := bounded.malloc placed within memory
    exact ⟨ap, t, settles, usable⟩

/-- For the largest size the number of units overflows and the block has no byte; for one that
is 7 less the argument of `sbrk` overflows to 0 and the block is above the break. -/
theorem malloc_too_little :
    (∃ t, (Process.boot (fun _ => 0) 12288).malloc 64 3 4294967295 true = some (45056, t) ∧
      ¬ Usable 4294967295 45056 t) ∧
    ∃ t, (Process.boot (fun _ => 0) 12288).malloc 64 3 4294967288 true = some (12296, t) ∧
      ¬ Usable 4294967288 12296 t :=
  ⟨malloc_wrapped (by decide) (by decide),
    malloc_beyond (by decide) (by decide) ⟨by decide, by decide⟩ (by decide) (by decide)
      (by decide) _⟩

end Heap

end RandomRepo.Xv6

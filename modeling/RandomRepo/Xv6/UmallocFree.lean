import RandomRepo.Xv6.Umalloc
import Mathlib.Order.Nat

/-!
The free list as a list of blocks, and `free` on it.

`Holds` relates the memory to the list `L` of the free blocks in the order of their
addresses, headed by `base`, and to the list of the blocks in use.  Putting a block back is
`join`, once with what follows and once with what stands before.
-/

namespace RandomRepo.Xv6.Heap

variable {m : Memory} {base z : Nat} {h : Heap} {a b c p : Block}
  {L live pre post rest : List Block}

/-- The first block ends before the second one begins, and does not touch it. -/
def Before (b c : Block) : Prop := b.stop < c.addr

theorem addr_le_stop (b : Block) : b.addr ≤ b.stop := Nat.le_add_right ..

/-- A block and those that follow it, merged with the next one if it touches it. -/
def join (b : Block) : List Block → List Block
  | [] => [b]
  | c :: cs => if b.stop = c.addr then ⟨b.addr, b.units + c.units⟩ :: cs else b :: c :: cs

theorem mem_join (member : c ∈ join b rest) :
    c = b ∨ c ∈ rest ∨ ∃ d ∈ rest, b.stop = d.addr ∧ c = ⟨b.addr, b.units + d.units⟩ := by
  cases rest with
  | nil => exact .inl (List.mem_singleton.mp member)
  | cons d ds =>
    by_cases touch : b.stop = d.addr
    · rw [join, if_pos touch, List.mem_cons] at member
      rcases member with rfl | member
      · exact .inr (.inr ⟨d, List.mem_cons_self, touch, rfl⟩)
      · exact .inr (.inl (List.mem_cons_of_mem _ member))
    · rw [join, if_neg touch, List.mem_cons] at member
      rcases member with rfl | member
      · exact .inl rfl
      · exact .inr (.inl member)

theorem mem_join_addr (member : c ∈ join b rest) : c.addr = b.addr ∨ c ∈ rest := by
  rcases mem_join member with rfl | member | ⟨d, _, _, rfl⟩
  · exact .inl rfl
  · exact .inr member
  · exact .inl rfl

theorem mem_join_stop (member : c ∈ join b rest) : c.stop = b.stop ∨ ∃ d ∈ rest, c.stop = d.stop := by
  rcases mem_join member with rfl | later | ⟨d, next, touch, rfl⟩
  · exact .inl rfl
  · exact .inr ⟨c, later, rfl⟩
  · refine .inr ⟨d, next, ?_⟩
    unfold Block.stop at touch ⊢
    dsimp only
    omega

/-- The joined list begins where the block does, with as many units at least. -/
theorem join_head (b : Block) (rest : List Block) :
    ∃ c ∈ join b rest, c.addr = b.addr ∧ b.units ≤ c.units ∧ ∀ z, first z (join b rest) = b.addr := by
  cases rest with
  | nil => exact ⟨b, List.mem_singleton_self b, rfl, le_rfl, fun _ => rfl⟩
  | cons d ds =>
    by_cases touch : b.stop = d.addr
    · rw [join, if_pos touch]
      exact ⟨_, List.mem_cons_self, rfl, Nat.le_add_right .., fun _ => rfl⟩
    · rw [join, if_neg touch]
      exact ⟨b, List.mem_cons_self, rfl, le_rfl, fun _ => rfl⟩

theorem join_keeps (member : c ∈ rest) : ∃ d ∈ join b rest, c.units ≤ d.units := by
  cases rest with
  | nil => cases member
  | cons d ds =>
    by_cases touch : b.stop = d.addr
    · rw [join, if_pos touch]
      rcases List.mem_cons.mp member with rfl | member
      · exact ⟨_, List.mem_cons_self, Nat.le_add_left ..⟩
      · exact ⟨c, List.mem_cons_of_mem _ member, le_rfl⟩
    · rw [join, if_neg touch]
      exact ⟨c, List.mem_cons_of_mem _ member, le_rfl⟩

/-- A byte of a block is a byte of one of its two parts. -/
theorem covers_add (a s t y : Nat) : (Block.covers ⟨a, s + t⟩ y).toNat =
    (Block.covers ⟨a + 8 * s, t⟩ y).toNat + (Block.covers ⟨a, s⟩ y).toNat := by
  simp only [Block.covers_toNat, Block.stop]
  grind

theorem cover_join (y : Nat) : cover Block.covers (join b rest) y =
    cover Block.covers rest y + (b.covers y).toNat := by
  cases rest with
  | nil => simp [join]
  | cons c cs =>
    by_cases touch : b.stop = c.addr
    · have parts : (Block.covers ⟨b.addr, b.units + c.units⟩ y).toNat =
          (c.covers y).toNat + (b.covers y).toNat := by
        rw [covers_add, show b.addr + 8 * b.units = c.addr from touch]
      rw [join, if_pos touch, cover_cons, cover_cons, parts]
      omega
    · rw [join, if_neg touch, cover_cons]

theorem join_order (order : rest.Pairwise Before) (ahead : ∀ c ∈ rest, b.stop ≤ c.addr) :
    (join b rest).Pairwise Before := by
  cases rest with
  | nil => exact List.pairwise_singleton _ _
  | cons c cs =>
    have after := (List.pairwise_cons.mp order).1
    by_cases touch : b.stop = c.addr
    · rw [join, if_pos touch, List.pairwise_cons]
      refine ⟨fun d member => ?_, (List.pairwise_cons.mp order).2⟩
      have far := after d member
      unfold Before Block.stop at far ⊢
      unfold Block.stop at touch
      dsimp only
      omega
    · rw [join, if_neg touch, List.pairwise_cons]
      refine ⟨fun d member => ?_, order⟩
      have near := ahead c List.mem_cons_self
      have low := addr_le_stop c
      rcases List.mem_cons.mp member with rfl | member
      · exact lt_of_le_of_ne near touch
      · have far := after d member
        unfold Before at far ⊢
        omega

/-! ## The assignments -/

/-- Let `p` lead to `q`, or merge the two. -/
def attach (m : Memory) (p q : Nat) : Memory :=
  if u32 (p + 8 * size m p) = q then
    let m := setSize m p (u32 (size m p + size m q))
    setPtr m p (ptr m q)
  else setPtr m p q

theorem link_eq {bp p : Nat} (apart : Apart bp p) :
    link m bp p = attach (attach m bp (ptr m p)) p bp := by
  have again : ∀ v, ptr (setSize m bp v) p = ptr m p := fun v => (sameHeader_setSize apart).ptr
  unfold link attach
  dsimp only
  rw [again]

theorem sameHeader_attach {p q x : Nat} (apart : Apart p x) : SameHeader m (attach m p q) x := by
  unfold attach
  split
  · exact (sameHeader_setSize apart).trans (sameHeader_setPtr apart)
  · exact sameHeader_setPtr apart

theorem size_attach_apart {p q x : Nat} (apart : Apart p x) : size (attach m p q) x = size m x :=
  (sameHeader_attach apart).size

/-- The headers after a block was put in front of linked ones. -/
theorem attach_linked (stored : size m b.addr = b.units) (linked : Linked m z rest)
    (apart : ∀ c ∈ rest, Apart b.addr c.addr) (bound : b.stop ≤ kernbase)
    (bounds : ∀ c ∈ rest, c.stop ≤ kernbase) (small : z ≤ kernbase)
    (last : rest = [] → b.stop ≠ z) :
    Linked (attach m b.addr (first z rest)) z (join b rest) := by
  have kern : kernbase = 2147483648 := rfl
  have sum : u32 (b.addr + 8 * size m b.addr) = b.stop := by
    rw [stored]
    exact u32_of_lt (by unfold Block.stop at bound; omega)
  unfold attach
  rw [sum]
  cases rest with
  | nil =>
    rw [first, if_neg (last rfl)]
    exact ⟨⟨size_setPtr.trans stored, ptr_setPtr (by omega)⟩, trivial⟩
  | cons c cs =>
    have fits := bounds c List.mem_cons_self
    have low := addr_le_stop c
    obtain ⟨⟨sizeC, ptrC⟩, linked'⟩ := linked
    have other : ∀ d ∈ c :: cs, ∀ v w,
        SameHeader m (setPtr (setSize m b.addr v) b.addr w) d.addr := fun d member v w =>
      (sameHeader_setSize (apart d member)).trans (sameHeader_setPtr (apart d member))
    by_cases touch : b.stop = c.addr
    · have total : u32 (size m b.addr + size m c.addr) = b.units + c.units := by
        rw [stored, sizeC]
        unfold Block.stop at touch fits
        exact u32_of_lt (by omega)
      rw [first, if_pos touch, join, if_pos touch, total]
      refine ⟨⟨?_, ?_⟩, linked'.congr fun d member => other d (List.mem_cons_of_mem _ member) _ _⟩
      · rw [size_setPtr]
        unfold Block.stop at touch fits
        exact size_setSize (by omega)
      · rw [ptr_setPtr ptr_lt, (sameHeader_setSize (apart c List.mem_cons_self)).ptr, ptrC]
    · rw [first, if_neg touch, join, if_neg touch]
      refine ⟨⟨size_setPtr.trans stored, ptr_setPtr (by omega)⟩, ?_⟩
      exact Linked.congr ⟨⟨sizeC, ptrC⟩, linked'⟩ fun d member =>
        sameHeader_setPtr (apart d member)

/-! ## The invariant -/

/-- The free list of `h` is `L`, and it tiles the regions together with the blocks in use. -/
structure Holds (base : Nat) (h : Heap) (live L : List Block) : Prop where
  head : ∃ bs, L = ⟨base, 0⟩ :: bs
  linked : Linked h.mem base L
  roving : ∃ f ∈ L, h.freep = f.addr
  order : L.Pairwise Before
  sizes : ∀ b ∈ live, size h.mem b.addr = b.units
  nonempty : ∀ b ∈ L, b = ⟨base, 0⟩ ∨ 0 < b.units
  used : ∀ b ∈ live, 0 < b.units
  tiled : ∀ y, cover Block.covers (L ++ live) y = cover Block.covers h.regions y
  once : ∀ y, cover Block.covers h.regions y ≤ 1
  bounds : ∀ r ∈ h.regions, base + 8 ≤ r.addr ∧ r.stop ≤ kernbase

/-- Where the static header stands. -/
structure Placed (base : Nat) : Prop where
  nonzero : 0 < base
  low : base + 8 ≤ kernbase

theorem Holds.first_eq (holds : Holds base h live L) (z : Nat) : first z L = base := by
  obtain ⟨bs, rfl⟩ := holds.head
  rfl

theorem Holds.covered (holds : Holds base h live L) (member : b ∈ L ++ live) {y : Nat}
    (covers : b.covers y = true) : ∃ r ∈ h.regions, r.covers y = true :=
  cover_pos.mp (holds.tiled y ▸ cover_pos.mpr ⟨b, member, covers⟩)

theorem Holds.kind (holds : Holds base h live L) (member : b ∈ L ++ live) :
    b = ⟨base, 0⟩ ∨ 0 < b.units := by
  rcases List.mem_append.mp member with inL | inUse
  · exact holds.nonempty b inL
  · exact .inr (holds.used b inUse)

/-- A block that is not empty begins in a region and ends in one. -/
theorem Holds.inside (holds : Holds base h live L) (member : b ∈ L ++ live) (some : 0 < b.units) :
    (∃ r ∈ h.regions, r.addr ≤ b.addr) ∧ ∃ r ∈ h.regions, b.stop ≤ r.stop := by
  have long : b.addr < b.stop := by unfold Block.stop; omega
  obtain ⟨r, hr, low⟩ := holds.covered member (y := b.addr)
    (Block.covers_iff.mpr ⟨le_rfl, long⟩)
  obtain ⟨s, hs, high⟩ := holds.covered member (y := b.stop - 1)
    (Block.covers_iff.mpr ⟨by omega, by omega⟩)
  rw [Block.covers_iff] at low high
  exact ⟨⟨r, hr, low.1⟩, s, hs, by omega⟩

theorem Holds.bound (holds : Holds base h live L) (member : b ∈ L ++ live) (some : 0 < b.units) :
    base + 8 ≤ b.addr ∧ b.stop ≤ kernbase := by
  obtain ⟨⟨r, hr, low⟩, s, hs, high⟩ := holds.inside member some
  exact ⟨(holds.bounds r hr).1.trans low, high.trans (holds.bounds s hs).2⟩

theorem Holds.free_bound (holds : Holds base h live L) (placed : Placed base) (member : b ∈ L) :
    b.stop ≤ kernbase := by
  rcases holds.nonempty b member with rfl | some
  · have low := placed.low
    unfold Block.stop
    dsimp only
    omega
  · exact (holds.bound (List.mem_append_left _ member) some).2

theorem Holds.disjoint (holds : Holds base h live L) :
    (L ++ live).Pairwise fun b c => ∀ y, ¬(b.covers y = true ∧ c.covers y = true) :=
  pairwise_of_cover fun y => holds.tiled y ▸ holds.once y

/-- Of two disjoint blocks the lower one ends where the other one begins or before. -/
theorem stop_le_of_disjoint (disjoint : ∀ y, ¬(b.covers y = true ∧ c.covers y = true))
    (some : 0 < c.units) (order : b.addr ≤ c.addr) : b.stop ≤ c.addr := by
  by_contra overlap
  refine disjoint c.addr ⟨Block.covers_iff.mpr ⟨order, by omega⟩, Block.covers_iff.mpr ⟨le_rfl, ?_⟩⟩
  unfold Block.stop
  omega

theorem apart_of_disjoint (disjoint : ∀ y, ¬(b.covers y = true ∧ c.covers y = true))
    (someB : 0 < b.units) (someC : 0 < c.units) : Apart b.addr c.addr := by
  rcases le_total b.addr c.addr with order | order
  · have := stop_le_of_disjoint disjoint someC order
    unfold Block.stop at this
    exact .inl (by omega)
  · have := stop_le_of_disjoint (fun y both => disjoint y both.symm) someB order
    unfold Block.stop at this
    exact .inr (by omega)

/-- The headers of all blocks are apart. -/
theorem Holds.apart (holds : Holds base h live L) :
    (L ++ live).Pairwise fun b c => Apart b.addr c.addr := by
  have disjoint := List.pairwise_append.mp holds.disjoint
  refine List.pairwise_append.mpr ⟨?_, ?_, fun b inL c inUse => ?_⟩
  · refine holds.order.imp_of_mem fun {b c} hb hc before => ?_
    have low := addr_le_stop b
    unfold Before at before
    rcases holds.nonempty c hc with rfl | someC
    · -- Nothing stands before `base`.
      rcases holds.nonempty b hb with rfl | someB
      · exact absurd before (by unfold Block.stop; dsimp only; omega)
      · have := (holds.bound (List.mem_append_left _ hb) someB).1
        dsimp only at before
        omega
    · rcases holds.nonempty b hb with rfl | someB
      · exact .inl (holds.bound (List.mem_append_left _ hc) someC).1
      · unfold Block.stop at before
        exact .inl (by omega)
  · exact disjoint.2.1.imp_of_mem fun hb hc apart =>
      apart_of_disjoint apart (holds.used _ hb) (holds.used _ hc)
  · rcases holds.nonempty b inL with rfl | someB
    · exact .inl (holds.bound (List.mem_append_right _ inUse) (holds.used c inUse)).1
    · exact apart_of_disjoint (disjoint.2.2 b inL c inUse) someB (holds.used c inUse)

/-! ## The search of `free` -/

/-- The loop leaves at `p`. -/
def Stops (m : Memory) (bp p : Nat) : Prop :=
  (p < bp ∧ bp < ptr m p) ∨ (ptr m p ≤ p ∧ (p < bp ∨ bp < ptr m p))

theorem freeSearch_stops {bp p : Nat} (stops : Stops m bp p) :
    Settles (fun fuel => freeSearch m bp fuel p) p := by
  refine (Settles.pure p).turn fun fuel => ?_
  unfold Stops at stops
  rw [freeSearch]
  split_ifs with inside wrap
  · rfl
  · rfl
  · tauto

/-- The loop goes past blocks at which it does not stop. -/
theorem freeSearch_walk {bp r : Nat} (linked : Linked m z rest)
    (go : ∀ c ∈ rest, ¬Stops m bp c.addr)
    (settles : Settles (fun fuel => freeSearch m bp fuel z) r) :
    Settles (fun fuel => freeSearch m bp fuel (first z rest)) r := by
  induction rest with
  | nil => exact settles
  | cons c cs ih =>
    have rest := ih linked.2 fun d member => go d (List.mem_cons_of_mem _ member)
    refine rest.turn fun fuel => ?_
    have stay := go c List.mem_cons_self
    obtain ⟨between, wrap⟩ := not_or.mp stay
    rw [first, freeSearch, if_neg between, if_neg wrap, linked.1.2]

/-- The search finds the place of `bp` from every block of the list. -/
theorem freeSearch_settles {bp : Nat} (linked : Linked m base (pre ++ p :: post))
    (order : (pre ++ p :: post).Pairwise Before) (start : first z (pre ++ p :: post) = base)
    (below : ∀ a ∈ pre, a.addr < bp) (here : p.addr < bp) (above : ∀ c ∈ post, bp < c.addr)
    {f : Block} (roving : f ∈ pre ++ p :: post) :
    Settles (fun fuel => freeSearch m bp fuel f.addr) p.addr := by
  obtain ⟨linkedPre, linkedP⟩ := linked_append.mp linked
  have ordered := List.pairwise_append.mp order
  have baseLow : base ≤ p.addr := by
    cases pre with
    | nil => exact start.ge
    | cons a as =>
      have before := ordered.2.2 a List.mem_cons_self p List.mem_cons_self
      have low := addr_le_stop a
      unfold Before at before
      have same : a.addr = base := start
      omega
  have stops : Stops m bp p.addr := by
    have next : ptr m p.addr = first base post := linkedP.1.2
    unfold Stops
    rw [next]
    cases post with
    | nil => exact .inr ⟨baseLow, .inl here⟩
    | cons c cs => exact .inl ⟨here, above c List.mem_cons_self⟩
  have atP := freeSearch_stops stops
  have goPre : ∀ a ∈ pre, ¬Stops m bp a.addr := by
    intro a member
    have low := addr_le_stop a
    have next : a.addr < ptr m a.addr ∧ ptr m a.addr < bp := by
      rcases linkedPre.succ ordered.1 member with last | ⟨c, later, before, next⟩
      · have before := ordered.2.2 a member p List.mem_cons_self
        unfold Before at before
        rw [last]
        exact ⟨lt_of_le_of_lt low before, here⟩
      · unfold Before at before
        rw [next]
        exact ⟨lt_of_le_of_lt low before, below c later⟩
    unfold Stops
    omega
  have goPost : ∀ c ∈ post, ¬Stops m bp c.addr := by
    intro c member
    have low := addr_le_stop c
    have high := above c member
    have next : ptr m c.addr = base ∨ c.addr < ptr m c.addr := by
      rcases linkedP.2.succ (List.pairwise_cons.mp ordered.2.1).2 member with
        last | ⟨d, later, before, next⟩
      · exact .inl last
      · unfold Before at before
        exact .inr (by omega)
    unfold Stops
    omega
  rw [List.mem_append, List.mem_cons] at roving
  rcases roving with inPre | rfl | inPost
  · obtain ⟨as, cs, rfl⟩ := List.append_of_mem inPre
    refine freeSearch_walk (linked_append.mp linkedPre).2 (fun d member => ?_) atP
    exact goPre d (List.mem_append_right _ member)
  · exact atP
  · obtain ⟨as, cs, rfl⟩ := List.append_of_mem inPost
    have round : Settles (fun fuel => freeSearch m bp fuel base) p.addr := by
      have walk := freeSearch_walk linkedPre goPre atP
      have same : first (first base (p :: (as ++ f :: cs))) pre = base := by
        rw [← start]
        cases pre <;> rfl
      rwa [same] at walk
    refine freeSearch_walk (linked_append.mp linkedP.2).2 (fun d member => ?_) round
    exact goPost d (List.mem_append_right _ member)

/-- Where an address belongs in an ordered list. -/
theorem split_at {x : Nat} {d : Block} {ds : List Block} (order : (d :: ds).Pairwise Before)
    (low : d.addr < x) (new : ∀ c ∈ ds, c.addr ≠ x) :
    ∃ pre p post, d :: ds = pre ++ p :: post ∧ (∀ a ∈ pre, a.addr < x) ∧ p.addr < x ∧
      ∀ c ∈ post, x < c.addr := by
  induction ds generalizing d with
  | nil => exact ⟨[], d, [], rfl, nofun, low, nofun⟩
  | cons e es ih =>
    rw [List.pairwise_cons] at order
    rcases Nat.lt_or_gt_of_ne (new e List.mem_cons_self) with less | more
    · obtain ⟨pre, p, post, shape, below, here, above⟩ :=
        ih order.2 less fun c member => new c (List.mem_cons_of_mem _ member)
      refine ⟨d :: pre, p, post, by rw [shape]; rfl, ?_, here, above⟩
      intro a member
      rcases List.mem_cons.mp member with rfl | member
      · exact low
      · exact below a member
    · refine ⟨[], d, e :: es, rfl, nofun, low, fun c member => ?_⟩
      rcases List.mem_cons.mp member with rfl | member
      · exact more
      · have before := (List.pairwise_cons.mp order.2).1 c member
        have low := addr_le_stop e
        unfold Before at before
        omega

/-! ## `free` -/

/-- The list after `b` was put back behind `p`. -/
def release (b : Block) (pre : List Block) (p : Block) (post : List Block) : List Block :=
  pre ++ join p (join b post)

/-- `b` belongs between `p` and `post`. -/
structure Fits (base : Nat) (h : Heap) (live : List Block) (b : Block) (pre : List Block) (p : Block)
    (post : List Block) : Prop where
  holds : Holds base h (b :: live) (pre ++ p :: post)
  below : ∀ a ∈ pre, a.addr < b.addr
  here : p.addr < b.addr
  above : ∀ c ∈ post, b.addr < c.addr

theorem Holds.fits (holds : Holds base h (b :: live) L) :
    ∃ pre p post, L = pre ++ p :: post ∧ Fits base h live b pre p post := by
  obtain ⟨bs, shape⟩ := holds.head
  have low := (holds.bound (List.mem_append_right _ List.mem_cons_self)
    (holds.used b List.mem_cons_self)).1
  have new : ∀ c ∈ bs, c.addr ≠ b.addr := by
    intro c member same
    have inL : c ∈ L := shape ▸ List.mem_cons_of_mem _ member
    have apart := (List.pairwise_append.mp holds.apart).2.2 c inL b List.mem_cons_self
    unfold Apart at apart
    omega
  obtain ⟨pre, p, post, split, below, here, above⟩ :=
    split_at (shape ▸ holds.order) (show base < b.addr by omega) new
  rw [← shape] at split
  exact ⟨pre, p, post, split, split ▸ holds, below, here, above⟩

namespace Fits

variable (fits : Fits base h live b pre p post)

include fits

theorem positive : 0 < b.units := fits.holds.used b List.mem_cons_self

theorem bound : base + 8 ≤ b.addr ∧ b.stop ≤ kernbase :=
  fits.holds.bound (List.mem_append_right _ List.mem_cons_self) fits.positive

/-- The header of `b` is apart from the others. -/
theorem apart {c : Block} (member : c ∈ pre ++ p :: post ∨ c ∈ live) : Apart b.addr c.addr := by
  have apart := List.pairwise_append.mp fits.holds.apart
  rcases member with inL | inUse
  · exact (apart.2.2 c inL b List.mem_cons_self).symm
  · exact (List.pairwise_cons.mp apart.2.1).1 c inUse

/-- The header of `p` is apart from the others. -/
theorem apart_pred {c : Block} (member : c ∈ pre ∨ c ∈ post ∨ c ∈ live) :
    Apart p.addr c.addr := by
  have apart := List.pairwise_append.mp fits.holds.apart
  have apartL := List.pairwise_append.mp apart.1
  rcases member with inPre | inPost | inUse
  · exact (apartL.2.2 c inPre p List.mem_cons_self).symm
  · exact (List.pairwise_cons.mp apartL.2.1).1 c inPost
  · exact apart.2.2 p (List.mem_append_right _ List.mem_cons_self) c
      (List.mem_cons_of_mem _ inUse)

theorem disjoint {c : Block} (member : c ∈ pre ++ p :: post) (y : Nat) :
    ¬(c.covers y = true ∧ b.covers y = true) :=
  (List.pairwise_append.mp fits.holds.disjoint).2.2 c member b List.mem_cons_self y

theorem pred_stop : p.stop ≤ b.addr :=
  stop_le_of_disjoint (fits.disjoint (List.mem_append_right _ List.mem_cons_self)) fits.positive
    fits.here.le

theorem stop_succ {c : Block} (member : c ∈ post) : b.stop ≤ c.addr := by
  have inL : c ∈ pre ++ p :: post := List.mem_append_right _ (List.mem_cons_of_mem _ member)
  have order := fits.above c member
  refine stop_le_of_disjoint (fun y both => fits.disjoint inL y both.symm) ?_ order.le
  rcases fits.holds.nonempty c inL with rfl | some
  · have low := fits.bound.1
    dsimp only at order
    omega
  · exact some

theorem join_bound (placed : Placed base) {c : Block} (member : c ∈ join b post) :
    c.stop ≤ kernbase := by
  rcases mem_join_stop member with same | ⟨d, later, same⟩
  · exact same ▸ fits.bound.2
  · exact same ▸ fits.holds.free_bound placed
      (List.mem_append_right _ (List.mem_cons_of_mem _ later))

theorem apart_join {c : Block} (member : c ∈ join b post) : Apart p.addr c.addr := by
  rcases mem_join_addr member with same | later
  · rw [same]
    exact (fits.apart (.inl (List.mem_append_right _ List.mem_cons_self))).symm
  · exact fits.apart_pred (.inr (.inl later))

/-- The assignments link the list with `b` in it. -/
theorem linked (placed : Placed base) :
    Linked (link h.mem b.addr p.addr) base (release b pre p post) := by
  obtain ⟨linkedPre, linkedP⟩ := linked_append.mp fits.holds.linked
  have inP : p ∈ pre ++ p :: post := List.mem_append_right _ List.mem_cons_self
  have apartP := fits.apart (.inl inP)
  have low := placed.low
  have next : ptr h.mem p.addr = first base post := linkedP.1.2
  have linked1 : Linked (attach h.mem b.addr (first base post)) base (join b post) := by
    refine attach_linked (fits.holds.sizes b List.mem_cons_self) linkedP.2 (fun c member => ?_)
      fits.bound.2 (fun c member => ?_) (by omega) fun _ same => ?_
    · exact fits.apart (.inl (List.mem_append_right _ (List.mem_cons_of_mem _ member)))
    · exact fits.holds.free_bound placed (List.mem_append_right _ (List.mem_cons_of_mem _ member))
    · have := addr_le_stop b
      have := fits.bound.1
      omega
  obtain ⟨b', member, -, -, start⟩ := join_head b post
  have linked2 := attach_linked (b := p) ((size_attach_apart apartP).trans linkedP.1.1) linked1
    (fun c => fits.apart_join) (fits.holds.free_bound placed inP)
    (fun c => fits.join_bound placed) (by omega)
    (fun none => absurd member (by rw [none]; exact List.not_mem_nil))
  rw [link_eq apartP, next]
  rw [start base] at linked2
  obtain ⟨p', -, -, -, startP⟩ := join_head p (join b post)
  refine linked_append.mpr ⟨?_, linked2⟩
  rw [startP base]
  refine linkedPre.congr fun a member => ?_
  exact (sameHeader_attach (fits.apart (.inl (List.mem_append_left _ member)))).trans
    (sameHeader_attach (fits.apart_pred (.inl member)))

theorem order : (release b pre p post).Pairwise Before := by
  have order := List.pairwise_append.mp fits.holds.order
  have orderP := List.pairwise_cons.mp order.2.1
  refine List.pairwise_append.mpr ⟨order.1, ?_, fun a inPre c member => ?_⟩
  · refine join_order (join_order orderP.2 fun c => fits.stop_succ) fun c member => ?_
    rcases mem_join_addr member with same | later
    · exact same ▸ fits.pred_stop
    · exact (orderP.1 c later).le
  · have before : a.stop < p.addr := order.2.2 a inPre p List.mem_cons_self
    have here := fits.here
    show a.stop < c.addr
    rcases mem_join_addr member with same | member
    · omega
    · rcases mem_join_addr member with same | later
      · omega
      · exact order.2.2 a inPre c (List.mem_cons_of_mem _ later)

theorem nonempty {c : Block} (member : c ∈ release b pre p post) :
    c = ⟨base, 0⟩ ∨ 0 < c.units := by
  have old := fits.holds.nonempty
  have some := fits.positive
  have joined : ∀ d ∈ join b post, d = ⟨base, 0⟩ ∨ 0 < d.units := by
    intro d member
    rcases mem_join member with rfl | later | ⟨e, -, -, rfl⟩
    · exact .inr some
    · exact old d (List.mem_append_right _ (List.mem_cons_of_mem _ later))
    · exact .inr (Nat.add_pos_left some _)
  rcases List.mem_append.mp member with inPre | member
  · exact old c (List.mem_append_left _ inPre)
  · rcases mem_join member with rfl | later | ⟨d, next, touch, rfl⟩
    · exact old c (List.mem_append_right _ List.mem_cons_self)
    · exact joined c later
    · -- What touches `p` is `b`, or it is `b` merged with what follows.
      right
      rcases joined d next with rfl | positive
      · have low := fits.bound.1
        rcases mem_join_addr next with same | later
        · dsimp only at same
          omega
        · have high := fits.above _ later
          dsimp only at high
          omega
      · exact Nat.add_pos_right _ positive

theorem head : ∃ bs, release b pre p post = ⟨base, 0⟩ :: bs := by
  obtain ⟨bs, shape⟩ := fits.holds.head
  cases pre with
  | cons a as => exact ⟨as ++ join p (join b post), by rw [release, (List.cons.inj shape).1]; rfl⟩
  | nil =>
    obtain ⟨rfl, -⟩ := List.cons.inj shape
    have low := fits.bound.1
    obtain ⟨b', rest, joined, same⟩ : ∃ b' rest, join b post = b' :: rest ∧ b'.addr = b.addr := by
      obtain ⟨b', member, -, -, start⟩ := join_head b post
      cases joined : join b post with
      | nil => rw [joined] at member; cases member
      | cons d ds =>
        have first := start 0
        rw [joined] at first
        exact ⟨d, ds, rfl, first⟩
    refine ⟨b' :: rest, ?_⟩
    rw [release, List.nil_append, joined, join, if_neg]
    unfold Block.stop
    dsimp only
    omega

/-- `free` puts `b` back. -/
theorem release_holds (placed : Placed base) :
    Holds base { h with mem := link h.mem b.addr p.addr, freep := p.addr } live
      (release b pre p post) where
  head := fits.head
  linked := by
    dsimp only
    exact fits.linked placed
  roving := by
    obtain ⟨p', member, same, -, -⟩ := join_head p (join b post)
    exact ⟨p', List.mem_append_right _ member, same.symm⟩
  order := fits.order
  sizes c member := by
    have inUse := List.mem_cons_of_mem b member
    rw [link_eq (fits.apart (.inl (List.mem_append_right _ List.mem_cons_self))),
      size_attach_apart (fits.apart_pred (.inr (.inr member))),
      size_attach_apart (fits.apart (.inr member))]
    exact fits.holds.sizes c inUse
  nonempty c := fits.nonempty
  used c member := fits.holds.used c (List.mem_cons_of_mem _ member)
  tiled y := by
    have tiled := fits.holds.tiled y
    simp only [release, cover_append, cover_cons, cover_join] at tiled ⊢
    omega
  once := fits.holds.once
  bounds := fits.holds.bounds

end Fits

/-- Freeing a block in use returns, and puts the block back into the list. -/
theorem free_holds (placed : Placed base) (holds : Holds base h (b :: live) L) :
    ∃ h' L', Settles (fun fuel => free fuel h (b.addr + 8)) h' ∧ Holds base h' live L' ∧
      h'.regions = h.regions ∧ h'.answers = h.answers ∧ ∃ c ∈ L', b.units ≤ c.units := by
  obtain ⟨pre, p, post, rfl, fits⟩ := holds.fits
  obtain ⟨f, roving, freep⟩ := holds.roving
  have search := freeSearch_settles holds.linked holds.order (holds.first_eq 0) fits.below fits.here
    fits.above roving
  obtain ⟨b', inB, -, more, -⟩ := join_head b post
  obtain ⟨c, inP, most⟩ := join_keeps (b := p) inB
  refine ⟨_, _, ?_, fits.release_holds placed, rfl, rfl, c, List.mem_append_right _ inP,
    more.trans most⟩
  unfold free
  rw [Nat.add_sub_cancel, freep]
  exact search.map _

end RandomRepo.Xv6.Heap

import RandomRepo.Xv6.UmallocFree

/-!
`malloc` on the free list, and runs of a program that allocates, frees and writes to its memory.

The loop of `malloc` goes round the list once.  It takes a block that is large enough, or it
comes back to `freep` having seen that there is none; then `morecore` puts a new block into
the list that is large enough, and the second round finds it.
-/

namespace RandomRepo.Xv6.Heap

variable {m : Memory} {base n : Nat} {h : Heap} {b c f p q x : Block}
  {A C L M live : List Block}

/-! ## Taking a block -/

theorem head_append {rest rest' : List Block} (head : ∃ bs, A ++ x :: rest = c :: bs) :
    ∃ bs, A ++ x :: rest' = c :: bs := by
  obtain ⟨bs, shape⟩ := head
  cases A with
  | nil => exact ⟨rest', by rw [List.nil_append, (List.cons.inj shape).1]⟩
  | cons a as => exact ⟨as ++ x :: rest', by rw [List.cons_append, (List.cons.inj shape).1]⟩

/-- All of `q` is taken. -/
theorem Holds.take_all (holds : Holds base h live (A ++ x :: q :: C)) (some : 0 < q.units) :
    Holds base { h with mem := setPtr h.mem x.addr (ptr h.mem q.addr), freep := x.addr }
      (q :: live) (A ++ x :: C) := by
  have apart := List.pairwise_append.mp holds.apart
  have apartL := List.pairwise_append.mp apart.1
  have apartX := List.pairwise_cons.mp apartL.2.1
  have inX : x ∈ A ++ x :: q :: C := List.mem_append_right _ List.mem_cons_self
  have sub : (A ++ x :: C).Sublist (A ++ x :: q :: C) :=
    (List.Sublist.refl A).append ((List.sublist_cons_self q C).cons_cons x)
  obtain ⟨linkedA, linkedX⟩ := linked_append.mp holds.linked
  obtain ⟨⟨sizeX, -⟩, ⟨-, ptrQ⟩, linkedC⟩ := linkedX
  exact {
    head := head_append holds.head
    linked := by
      refine linked_append.mpr ⟨linkedA.congr fun a member => ?_,
        ⟨size_setPtr.trans sizeX, (ptr_setPtr ptr_lt).trans ptrQ⟩, linkedC.congr fun c member => ?_⟩
      · exact sameHeader_setPtr (apartL.2.2 a member x List.mem_cons_self).symm
      · exact sameHeader_setPtr (apartX.1 c (List.mem_cons_of_mem _ member))
    roving := ⟨x, List.mem_append_right _ List.mem_cons_self, rfl⟩
    order := holds.order.sublist sub
    sizes := by
      intro c member
      rcases List.mem_cons.mp member with rfl | member
      · rw [(sameHeader_setPtr (apartX.1 c List.mem_cons_self)).size]
        exact holds.linked.size_of_mem
          (List.mem_append_right _ (List.mem_cons_of_mem _ List.mem_cons_self))
      · rw [(sameHeader_setPtr (apart.2.2 x inX c member)).size]
        exact holds.sizes c member
    nonempty := fun c member => holds.nonempty c (sub.subset member)
    used := by
      intro c member
      rcases List.mem_cons.mp member with rfl | member
      · exact some
      · exact holds.used c member
    tiled := by
      intro y
      have tiled := holds.tiled y
      simp only [cover_append, cover_cons] at tiled ⊢
      omega
    once := holds.once
    bounds := holds.bounds }

/-- Every other header is clear of the bytes of `q`. -/
theorem Holds.clear (holds : Holds base h live (A ++ x :: q :: C)) (some : 0 < q.units)
    (member : c ∈ (A ++ x :: C) ++ live) : c.addr + 8 ≤ q.addr ∨ q.stop ≤ c.addr := by
  have inQ : q ∈ A ++ x :: q :: C :=
    List.mem_append_right _ (List.mem_cons_of_mem _ List.mem_cons_self)
  have perm : ((A ++ x :: q :: C) ++ live).Perm (q :: ((A ++ x :: C) ++ live)) := by
    have first : (A ++ x :: q :: C).Perm (q :: (A ++ x :: C)) :=
      (List.Perm.append_left A (List.Perm.swap q x C)).trans List.perm_middle
    exact first.append_right live
  have old : c ∈ (A ++ x :: q :: C) ++ live := perm.mem_iff.mpr (List.mem_cons_of_mem _ member)
  have disjoint := List.pairwise_cons.mp
    ((perm.pairwise_iff fun apart y both => apart y both.symm).mp holds.disjoint)
  rcases holds.kind old with rfl | positive
  · exact .inl (holds.bound (List.mem_append_left _ inQ) some).1
  · rcases le_total c.addr q.addr with order | order
    · have below := stop_le_of_disjoint (fun y both => disjoint.1 c member y both.symm) some order
      unfold Block.stop at below
      exact .inl (by omega)
    · exact .inr (stop_le_of_disjoint (disjoint.1 c member) positive order)

/-- The end of `q` is taken. -/
theorem Holds.take_tail (holds : Holds base h live (A ++ x :: q :: C)) (some : 0 < n)
    (less : n < q.units) :
    Holds base { h with
        mem := setSize (setSize h.mem q.addr (q.units - n)) (q.addr + 8 * (q.units - n)) n
        freep := x.addr }
      (⟨q.addr + 8 * (q.units - n), n⟩ :: live) (A ++ x :: ⟨q.addr, q.units - n⟩ :: C) := by
  have kern : kernbase = 2147483648 := rfl
  have inQ : q ∈ A ++ x :: q :: C :=
    List.mem_append_right _ (List.mem_cons_of_mem _ List.mem_cons_self)
  obtain ⟨low, high⟩ := holds.bound (List.mem_append_left _ inQ) (by omega)
  have stop : q.stop = q.addr + 8 * q.units := rfl
  have own : Apart (q.addr + 8 * (q.units - n)) q.addr := .inr (by omega)
  have same : ∀ c ∈ (A ++ x :: C) ++ live, SameHeader h.mem
      (setSize (setSize h.mem q.addr (q.units - n)) (q.addr + 8 * (q.units - n)) n) c.addr := by
    intro c member
    have clear := holds.clear (by omega) member
    refine (sameHeader_setSize ?_).trans (sameHeader_setSize ?_) <;> unfold Apart <;> omega
  have inA : ∀ c ∈ A, c ∈ (A ++ x :: C) ++ live := fun c member =>
    List.mem_append_left _ (List.mem_append_left _ member)
  have inX : ∀ c ∈ x :: C, c ∈ (A ++ x :: C) ++ live := fun c member =>
    List.mem_append_left _ (List.mem_append_right _ member)
  obtain ⟨linkedA, linkedX⟩ := linked_append.mp holds.linked
  obtain ⟨⟨sizeX, ptrX⟩, ⟨-, ptrQ⟩, linkedC⟩ := linkedX
  have order := List.pairwise_append.mp holds.order
  have orderX := List.pairwise_cons.mp order.2.1
  have orderQ := List.pairwise_cons.mp orderX.2
  exact {
    head := head_append holds.head
    linked := by
      have sameX := same x (inX x List.mem_cons_self)
      refine linked_append.mpr ⟨linkedA.congr fun a member => same a (inA a member),
        ⟨sameX.size.trans sizeX, sameX.ptr.trans ptrX⟩, ⟨?_, ?_⟩,
        linkedC.congr fun c member => same c (inX c (List.mem_cons_of_mem _ member))⟩
      · rw [(sameHeader_setSize own).size]
        exact size_setSize (by omega)
      · rw [(sameHeader_setSize own).ptr, ptr_setSize]
        exact ptrQ
    roving := ⟨x, List.mem_append_right _ List.mem_cons_self, rfl⟩
    order := by
      refine List.pairwise_append.mpr ⟨order.1, List.pairwise_cons.mpr ⟨fun c member => ?_,
        List.pairwise_cons.mpr ⟨fun c member => ?_, orderQ.2⟩⟩, fun a front c member => ?_⟩
      · rcases List.mem_cons.mp member with rfl | member
        · exact orderX.1 q List.mem_cons_self
        · exact orderX.1 c (List.mem_cons_of_mem _ member)
      · have before := orderQ.1 c member
        unfold Before Block.stop at before ⊢
        dsimp only
        omega
      · rcases List.mem_cons.mp member with rfl | member
        · exact order.2.2 a front c List.mem_cons_self
        · rcases List.mem_cons.mp member with rfl | member
          · exact order.2.2 a front q (List.mem_cons_of_mem _ List.mem_cons_self)
          · exact order.2.2 a front c (List.mem_cons_of_mem _ (List.mem_cons_of_mem _ member))
    sizes := by
      intro c member
      rcases List.mem_cons.mp member with rfl | member
      · exact size_setSize (by omega)
      · rw [(same c (List.mem_append_right _ member)).size]
        exact holds.sizes c member
    nonempty := by
      intro c member
      rcases List.mem_append.mp member with member | member
      · exact holds.nonempty c (List.mem_append_left _ member)
      · rcases List.mem_cons.mp member with rfl | member
        · exact holds.nonempty c (List.mem_append_right _ List.mem_cons_self)
        · rcases List.mem_cons.mp member with rfl | member
          · exact .inr (Nat.sub_pos_of_lt less)
          · exact holds.nonempty c
              (List.mem_append_right _ (List.mem_cons_of_mem _ (List.mem_cons_of_mem _ member)))
    used := by
      intro c member
      rcases List.mem_cons.mp member with rfl | member
      · exact some
      · exact holds.used c member
    tiled := by
      intro y
      have tiled := holds.tiled y
      have parts : (q.covers y).toNat = (Block.covers ⟨q.addr + 8 * (q.units - n), n⟩ y).toNat +
          (Block.covers ⟨q.addr, q.units - n⟩ y).toNat := by
        rw [← covers_add, Nat.sub_add_cancel less.le]
      simp only [cover_append, cover_cons] at tiled ⊢
      omega
    once := holds.once
    bounds := holds.bounds }

/-- What `malloc` leaves when it returns `ap` for `n` units. -/
def Returns (base : Nat) (live : List Block) (n : Nat) (r : Nat × Heap) : Prop :=
  (r.1 = 0 ∧ ∃ L, Holds base r.2 live L) ∨
    ∃ b : Block, r.1 = b.addr + 8 ∧ b.units = n ∧ ∃ L, Holds base r.2 (b :: live) L

theorem Holds.take (holds : Holds base h live (A ++ x :: q :: C)) (some : 0 < n)
    (enough : n ≤ q.units) : Returns base live n (take h n x.addr q.addr) := by
  have kern : kernbase = 2147483648 := rfl
  have inQ : q ∈ A ++ x :: q :: C :=
    List.mem_append_right _ (List.mem_cons_of_mem _ List.mem_cons_self)
  have size : size h.mem q.addr = q.units := holds.linked.size_of_mem inQ
  have bound := (holds.bound (List.mem_append_left _ inQ) (by omega)).2
  unfold Block.stop at bound
  right
  unfold Heap.take
  rw [size]
  by_cases whole : q.units = n
  · rw [if_pos whole]
    exact ⟨q, rfl, whole, _, holds.take_all (by omega)⟩
  · rw [if_neg whole]
    dsimp only
    rw [size_setSize (by omega), u32_of_lt (by omega)]
    exact ⟨⟨q.addr + 8 * (q.units - n), n⟩, rfl, rfl, _, holds.take_tail some (by omega)⟩

/-! ## The rounds of `malloc` -/

/-- The block that leads to `q` stands before it. -/
theorem Holds.pred (holds : Holds base h live L) (inX : x ∈ L) (inQ : q ∈ L) (some : 0 < q.units)
    (leads : ptr h.mem x.addr = q.addr) : ∃ A C, L = A ++ x :: q :: C := by
  have low := (holds.bound (List.mem_append_left _ inQ) some).1
  obtain ⟨front, C, shape⟩ := List.append_of_mem inQ
  obtain ⟨bs, head⟩ := holds.head
  obtain ⟨A, y, rfl⟩ : ∃ A y, front = A ++ [y] := by
    rcases List.eq_nil_or_concat front with rfl | ⟨A, y, rfl⟩
    · rw [shape] at head
      rw [(List.cons.inj head).1] at some
      cases some
    · exact ⟨A, y, List.concat_eq_append ..⟩
  have linked := holds.linked
  have order := holds.order
  rw [shape, List.append_assoc] at linked order
  obtain ⟨linkedA, linkedY⟩ := linked_append.mp linked
  have ordered := List.pairwise_append.mp order
  have orderY := List.pairwise_cons.mp ordered.2.1
  have yq : y.stop < q.addr := orderY.1 q List.mem_cons_self
  have lowY := addr_le_stop y
  rw [shape, List.append_assoc] at inX
  rcases List.mem_append.mp inX with inA | member
  · exfalso
    rcases linkedA.succ ordered.1 inA with last | ⟨c, inA', -, next⟩
    · have : y.addr = q.addr := last.symm.trans leads
      omega
    · have cq : c.stop < q.addr :=
        ordered.2.2 c inA' q (List.mem_cons_of_mem _ List.mem_cons_self)
      have lowC := addr_le_stop c
      omega
  · rcases List.mem_cons.mp member with rfl | member
    · exact ⟨A, C, by rw [shape, List.append_assoc]; rfl⟩
    · exfalso
      have far : q.addr ≤ x.addr := by
        rcases List.mem_cons.mp member with rfl | member
        · exact le_rfl
        · have before : q.stop < x.addr := (List.pairwise_cons.mp orderY.2).1 x member
          have lowQ := addr_le_stop q
          omega
      rcases linkedY.2.succ orderY.2 member with last | ⟨c, -, before, next⟩
      · omega
      · have lowX := addr_le_stop x
        unfold Before at before
        omega

/-- The loop goes along the list until a block is large enough or `freep` is reached. -/
theorem mallocLoop_walk (freep : h.freep = f.addr) (linked : Linked h.mem f.addr M)
    (leads : ptr h.mem x.addr = first f.addr M) (other : ∀ c ∈ M, c.addr ≠ f.addr) :
    ∃ y ∈ x :: M, ∃ q ∈ M ++ [f], ptr h.mem y.addr = q.addr ∧
      (n ≤ q.units ∨ q = f ∧ ∀ c ∈ M, c.units < n) ∧
      ∀ r, Settles (fun fuel => mallocLoop n fuel h y.addr q.addr) r →
        Settles (fun fuel => mallocLoop n fuel h x.addr (first f.addr M)) r := by
  induction M generalizing x with
  | nil =>
    exact ⟨x, List.mem_cons_self, f, List.mem_singleton_self f, leads, .inr ⟨rfl, nofun⟩,
      fun r settles => settles⟩
  | cons c cs ih =>
    by_cases enough : n ≤ c.units
    · exact ⟨x, List.mem_cons_self, c, List.mem_cons_self, leads, .inl enough,
        fun r settles => settles⟩
    · obtain ⟨y, inY, q, inQ, next, found, reach⟩ :=
        ih linked.2 linked.1.2 fun d member => other d (List.mem_cons_of_mem _ member)
      refine ⟨y, List.mem_cons_of_mem _ inY, q, List.mem_cons_of_mem _ inQ, next, ?_,
        fun r settles => (reach r settles).turn fun fuel => ?_⟩
      · refine found.imp_right fun ⟨same, small⟩ => ⟨same, fun d member => ?_⟩
        rcases List.mem_cons.mp member with rfl | member
        · omega
        · exact small d member
      · have here := other c List.mem_cons_self
        rw [first, mallocLoop, linked.1.1, if_neg enough, if_neg (freep ▸ here), linked.1.2]

/-- One round from `freep`. -/
theorem Holds.round (holds : Holds base h live L) (n : Nat) :
    ∃ x ∈ L, ∃ q ∈ L, ptr h.mem x.addr = q.addr ∧
      (n ≤ q.units ∨ h.freep = q.addr ∧ ∀ c ∈ L, c.units < n) ∧
      ∀ r, Settles (fun fuel => mallocLoop n fuel h x.addr q.addr) r →
        Settles (fun fuel => mallocLoop n fuel h h.freep (ptr h.mem h.freep)) r := by
  obtain ⟨f, roving, freep⟩ := holds.roving
  obtain ⟨A, C, shape⟩ := List.append_of_mem roving
  have linked := holds.linked
  have apart := (List.pairwise_append.mp holds.apart).1
  rw [shape] at linked apart
  obtain ⟨linkedA, ⟨sizeF, ptrF⟩, linkedC⟩ := linked_append.mp linked
  have start : first f.addr A = base := by
    have head := holds.first_eq f.addr
    rw [shape] at head
    cases A <;> exact head
  have turned : Linked h.mem f.addr (C ++ A) := linked_append.mpr ⟨start.symm ▸ linkedC, linkedA⟩
  have leads : ptr h.mem f.addr = first f.addr (C ++ A) := by
    rw [ptrF, ← start]
    cases C <;> rfl
  have other : ∀ c ∈ C ++ A, c.addr ≠ f.addr := by
    intro c member same
    have apartA := List.pairwise_append.mp apart
    have away : Apart f.addr c.addr := by
      rcases List.mem_append.mp member with inC | inA
      · exact (List.pairwise_cons.mp apartA.2.1).1 c inC
      · exact (apartA.2.2 c inA f List.mem_cons_self).symm
    unfold Apart at away
    omega
  have back : ∀ c, c ∈ f :: (C ++ A) ↔ c ∈ L := by
    intro c
    rw [shape]
    simp only [List.mem_cons, List.mem_append]
    tauto
  obtain ⟨x, inX, q, inQ, next, found, reach⟩ := mallocLoop_walk freep turned leads other
  have inQ' : q ∈ f :: (C ++ A) := by
    simp only [List.mem_cons, List.mem_append, List.not_mem_nil, or_false] at inQ ⊢
    tauto
  refine ⟨x, (back x).mp inX, q, (back q).mp inQ', next, ?_, ?_⟩
  · by_cases enough : n ≤ q.units
    · exact .inl enough
    · obtain ⟨rfl, small⟩ := found.resolve_left enough
      refine .inr ⟨freep, fun c member => ?_⟩
      rcases List.mem_cons.mp ((back c).mpr member) with rfl | member
      · omega
      · exact small c member
  · rw [freep, leads]
    exact reach

/-- A list with a block that is large enough. -/
theorem Holds.malloc_found (holds : Holds base h live L) (some : 0 < n)
    (found : ∃ c ∈ L, n ≤ c.units) :
    ∃ r, Settles (fun fuel => mallocLoop n fuel h h.freep (ptr h.mem h.freep)) r ∧
      Returns base live n r := by
  obtain ⟨x, inX, q, inQ, next, stop, reach⟩ := holds.round n
  have enough : n ≤ q.units := by
    refine stop.resolve_right fun ⟨_, small⟩ => ?_
    obtain ⟨c, member, large⟩ := found
    exact absurd large (Nat.not_le.mpr (small c member))
  obtain ⟨A, C, rfl⟩ := holds.pred inX inQ (by omega) next
  refine ⟨_, reach _ ((Settles.pure _).turn fun fuel => ?_), holds.take some enough⟩
  rw [mallocLoop, holds.linked.size_of_mem inQ, if_pos enough]

/-! ## More memory -/

/-- `sbrk` returns memory above all that it has returned before. -/
structure Fresh (base : Nat) (h : Heap) (g nu : Nat) : Prop where
  low : base + 8 ≤ g
  above : ∀ r ∈ h.regions, r.stop ≤ g
  fits : g + 8 * nu ≤ kernbase

/-- A region granted is a block in use, until it is freed. -/
theorem Holds.grow {g nu : Nat} (holds : Holds base h live L) (some : 0 < nu)
    (fresh : Fresh base h g nu) (answers : List (Option Nat)) :
    Holds base ⟨setSize h.mem g nu, h.freep, answers, ⟨g, nu⟩ :: h.regions⟩ (⟨g, nu⟩ :: live) L := by
  have kern : kernbase = 2147483648 := rfl
  have fits := fresh.fits
  have same : ∀ c ∈ L ++ live, SameHeader h.mem (setSize h.mem g nu) c.addr := by
    intro c member
    refine sameHeader_setSize (.inr ?_)
    rcases holds.kind member with rfl | positive
    · exact fresh.low
    · obtain ⟨-, r, region, below⟩ := holds.inside member positive
      have above := fresh.above r region
      unfold Block.stop at below above
      omega
  exact {
    head := holds.head
    linked := holds.linked.congr fun c member => same c (List.mem_append_left _ member)
    roving := holds.roving
    order := holds.order
    sizes := by
      intro c member
      rcases List.mem_cons.mp member with rfl | member
      · exact size_setSize (by omega)
      · exact (same c (List.mem_append_right _ member)).size.trans (holds.sizes c member)
    nonempty := holds.nonempty
    used := by
      intro c member
      rcases List.mem_cons.mp member with rfl | member
      · exact some
      · exact holds.used c member
    tiled := by
      intro y
      have tiled := holds.tiled y
      simp only [cover_append, cover_cons] at tiled ⊢
      omega
    once := by
      intro y
      have once := holds.once y
      rw [cover_cons, Block.covers_toNat]
      split_ifs with inside
      · have none : cover Block.covers h.regions y = 0 := by
          by_contra covered
          obtain ⟨r, member, covers⟩ := cover_pos.mp (Nat.pos_of_ne_zero covered)
          have above := fresh.above r member
          rw [Block.covers_iff] at covers
          dsimp only at inside
          omega
        omega
      · exact once
    bounds := by
      intro r member
      rcases List.mem_cons.mp member with rfl | member
      · exact ⟨fresh.low, fits⟩
      · exact holds.bounds r member }

theorem Holds.freep_ne (placed : Placed base) (holds : Holds base h live L) : h.freep ≠ 0 := by
  obtain ⟨f, member, freep⟩ := holds.roving
  have base0 := placed.nonzero
  rcases holds.nonempty f member with rfl | positive
  · rw [freep]
    dsimp only
    omega
  · have low := (holds.bound (List.mem_append_left _ member) positive).1
    omega

theorem le_coreUnits (n : Nat) : n ≤ coreUnits n ∧ 0 < coreUnits n := by
  unfold coreUnits
  split <;> omega

/-- The loop of `malloc` returns, whatever `sbrk` answers. -/
theorem Holds.malloc_settles (placed : Placed base) (holds : Holds base h live L) (some : 0 < n)
    {answer : Option Nat} (answers : h.answers = [answer])
    (fresh : ∀ g, answer = Option.some g → Fresh base h g (coreUnits n)) :
    ∃ r, Settles (fun fuel => mallocLoop n fuel h h.freep (ptr h.mem h.freep)) r ∧
      Returns base live n r := by
  obtain ⟨x, inX, q, inQ, next, stop, reach⟩ := holds.round n
  by_cases enough : n ≤ q.units
  · exact holds.malloc_found some ⟨q, inQ, enough⟩
  obtain ⟨back, small⟩ := stop.resolve_left enough
  have asks : ∀ fuel, mallocLoop n (fuel + 1) h x.addr q.addr =
      (morecore fuel h n).bind fun a =>
        if a.1 = 0 then Option.some (0, a.2) else mallocLoop n fuel a.2 a.1 (ptr a.2.mem a.1) := by
    intro fuel
    rw [mallocLoop, holds.linked.size_of_mem inQ, if_neg enough, if_pos back.symm]
  cases answer with
  | none =>
    refine ⟨(0, { h with answers := [] }), reach _ (.turn (.pure _) fun fuel => ?_),
      .inl ⟨rfl, L, ?_⟩⟩
    · rw [asks, morecore, sbrk, answers]
      rfl
    · exact ⟨holds.head, holds.linked, holds.roving, holds.order, holds.sizes, holds.nonempty,
        holds.used, holds.tiled, holds.once, holds.bounds⟩
  | some g =>
    obtain ⟨more, positive⟩ := le_coreUnits n
    obtain ⟨h', L', freed, holds', -, -, c, inC, large⟩ :=
      free_holds placed (holds.grow positive (fresh g rfl) [])
    have nonzero := holds'.freep_ne placed
    have core : Settles (fun fuel => morecore fuel h n) (h'.freep, h') := by
      unfold morecore sbrk
      rw [answers]
      exact freed.map fun h => (h.freep, h)
    obtain ⟨r, settles, returns⟩ := holds'.malloc_found some ⟨c, inC, more.trans large⟩
    refine ⟨r, reach r (.turn (core.bind ?_) asks), returns⟩
    refine ⟨settles.choose, fun fuel more => ?_⟩
    dsimp only
    rw [if_neg nonzero]
    exact settles.choose_spec fuel more

/-! ## Fuel -/

theorem freeSearch_mono {bp p r fuel : Nat} (found : freeSearch m bp fuel p = some r) (k : Nat) :
    freeSearch m bp (fuel + k) p = some r := by
  induction fuel generalizing p with
  | zero => cases found
  | succ fuel ih =>
    rw [Nat.add_right_comm, freeSearch]
    rw [freeSearch] at found
    split_ifs at found ⊢
    · exact found
    · exact found
    · exact ih found

theorem free_mono {ap fuel : Nat} {h' : Heap} (found : free fuel h ap = some h') (k : Nat) :
    free (fuel + k) h ap = some h' := by
  obtain ⟨p, search, done⟩ := Option.map_eq_some_iff.mp found
  exact Option.map_eq_some_iff.mpr ⟨p, freeSearch_mono search k, done⟩

theorem morecore_mono {fuel : Nat} {r : Nat × Heap} (found : morecore fuel h n = some r) (k : Nat) :
    morecore (fuel + k) h n = some r := by
  obtain ⟨⟨p, h'⟩, asked, rest⟩ := Option.bind_eq_some_iff.mp found
  refine Option.bind_eq_some_iff.mpr ⟨(p, h'), asked, ?_⟩
  cases p with
  | none => exact rest
  | some p =>
    obtain ⟨h'', freed, done⟩ := Option.map_eq_some_iff.mp rest
    exact Option.map_eq_some_iff.mpr ⟨h'', free_mono freed k, done⟩

theorem mallocLoop_mono {prevp p fuel : Nat} {r : Nat × Heap}
    (found : mallocLoop n fuel h prevp p = some r) (k : Nat) :
    mallocLoop n (fuel + k) h prevp p = some r := by
  induction fuel generalizing h prevp p with
  | zero => cases found
  | succ fuel ih =>
    rw [Nat.add_right_comm, mallocLoop]
    rw [mallocLoop] at found
    split_ifs at found ⊢ with enough back
    · exact found
    · obtain ⟨⟨p, h'⟩, core, rest⟩ := Option.bind_eq_some_iff.mp found
      refine Option.bind_eq_some_iff.mpr ⟨(p, h'), morecore_mono core k, ?_⟩
      dsimp only at rest ⊢
      split_ifs at rest ⊢
      · exact rest
      · exact ih rest
    · exact ih found

/-! ## Runs -/

/-- A program with its allocator, and the blocks it has been given and not freed. -/
structure Program where
  heap : Heap
  live : List Block

/-- What a program does: `malloc` with an answer of `sbrk`, should it be asked, `free`, and writing
a byte. -/
inductive Op where
  | malloc (nbytes : Nat) (answer : Option Nat)
  | free (ap : Nat)
  | store (y : Nat) (v : UInt8)

/-- The blocks in use after `malloc` returned `ap`. -/
def given (ap nunits : Nat) (live : List Block) : List Block :=
  if ap = 0 then live else ⟨ap - 8, nunits⟩ :: live

inductive Step (base : Nat) : Program → Op → Program → Prop
  | malloc {s : Program} {nbytes fuel ap : Nat} {answer : Option Nat} {h : Heap}
      (call : malloc base fuel { s.heap with answers := [answer] } nbytes = some (ap, h)) :
      Step base s (.malloc nbytes answer) ⟨h, given ap (unitsFor nbytes) s.live⟩
  | free {s : Program} {fuel ap : Nat} {h : Heap} (call : free fuel s.heap ap = some h) :
      Step base s (.free ap) ⟨h, s.live.eraseP fun b => b.addr + 8 = ap⟩
  | store (s : Program) (y : Nat) (v : UInt8) :
      Step base s (.store y v)
        { s with heap := { s.heap with mem := fun x => if x = y then v else s.heap.mem x } }

/-- The program keeps to its memory: what it asks for has a number of units, and of bytes for
`sbrk`, that does not overflow, it frees what it was given, and it writes to the bytes it was
given or to bytes that are not the allocator's. -/
def Allowed (base : Nat) (s : Program) : Op → Prop
  | .malloc nbytes answer =>
    nbytes + 7 < 4294967296 ∧ 8 * coreUnits (unitsFor nbytes) < 2147483648 ∧
      ∀ g, answer = some g → Fresh base s.heap g (coreUnits (unitsFor nbytes))
  | .free ap => ∃ b ∈ s.live, ap = b.addr + 8
  | .store y _ =>
    (∃ b ∈ s.live, b.addr + 8 ≤ y ∧ y < b.stop) ∨
      (y < base ∨ base + 8 ≤ y) ∧ ∀ r ∈ s.heap.regions, ¬r.covers y = true

/-- The program begins with whatever its memory holds and `freep` null. -/
def Program.boot (m : Memory) : Program := ⟨⟨m, 0, [], []⟩, []⟩

/-- Before the first `malloc` there is nothing; afterwards there is a free list. -/
def Sound (base : Nat) (s : Program) : Prop :=
  (s.heap.freep = 0 ∧ s.live = [] ∧ s.heap.regions = []) ∨ ∃ L, Holds base s.heap s.live L

theorem Holds.perm {live' : List Block} (holds : Holds base h live L) (perm : live.Perm live') :
    Holds base h live' L where
  head := holds.head
  linked := holds.linked
  roving := holds.roving
  order := holds.order
  sizes b member := holds.sizes b (perm.mem_iff.mpr member)
  nonempty := holds.nonempty
  used b member := holds.used b (perm.mem_iff.mpr member)
  tiled y := by
    rw [← holds.tiled y]
    exact cover_perm (perm.symm.append_left L)
  once := holds.once
  bounds := holds.bounds

/-- Only the memory, `freep` and the regions matter. -/
theorem Holds.answers (holds : Holds base h live L) (answers : List (Option Nat)) :
    Holds base { h with answers } live L :=
  ⟨holds.head, holds.linked, holds.roving, holds.order, holds.sizes, holds.nonempty, holds.used,
    holds.tiled, holds.once, holds.bounds⟩

/-- The list that the first `malloc` makes. -/
theorem init_holds (placed : Placed base) (null : h.freep = 0) (none : h.regions = []) :
    Holds base (init base h) [] [⟨base, 0⟩] := by
  have kern : kernbase = 2147483648 := rfl
  have low := placed.low
  unfold init
  rw [if_pos null]
  exact {
    head := ⟨[], rfl⟩
    linked := by
      refine ⟨⟨size_setSize (by omega), ?_⟩, trivial⟩
      rw [ptr_setSize]
      exact ptr_setPtr (by omega)
    roving := ⟨_, List.mem_singleton_self _, rfl⟩
    order := List.pairwise_singleton ..
    sizes := nofun
    nonempty := fun b member => .inl (List.mem_singleton.mp member)
    used := nofun
    tiled := by
      intro y
      rw [none]
      rw [List.append_nil, cover_cons, Block.covers_toNat, if_neg]
      · rfl
      · exact fun both => absurd both.1 (Nat.not_le.mpr both.2)
    once := by
      rw [none]
      exact fun y => Nat.zero_le 1
    bounds := by
      rw [none]
      nofun }

/-- `malloc` returns in every state between calls. -/
theorem Sound.malloc (placed : Placed base) {s : Program} (sound : Sound base s) {nbytes : Nat}
    {answer : Option Nat} (allowed : Allowed base s (.malloc nbytes answer)) :
    ∃ r, Settles (fun fuel => Heap.malloc base fuel { s.heap with answers := [answer] } nbytes) r ∧
      Returns base s.live (unitsFor nbytes) r := by
  obtain ⟨-, -, fresh⟩ := allowed
  have some : 0 < unitsFor nbytes := Nat.succ_pos _
  unfold Heap.malloc
  rcases sound with ⟨null, none, nowhere⟩ | ⟨L, holds⟩
  · rw [none]
    have holds : Holds base (init base { s.heap with answers := [answer] }) [] [⟨base, 0⟩] :=
      init_holds placed null nowhere
    have answers : (init base { s.heap with answers := [answer] }).answers = [answer] := by
      unfold init
      rw [if_pos null]
    refine holds.malloc_settles placed some answers fun g same => ?_
    · obtain ⟨low, above, fits⟩ := fresh g same
      refine ⟨low, ?_, fits⟩
      unfold init
      rw [if_pos null]
      exact above
  · have same : init base { s.heap with answers := [answer] } =
        { s.heap with answers := [answer] } := if_neg (holds.freep_ne placed)
    rw [same]
    refine (holds.answers [answer]).malloc_settles placed some rfl fun g same => ?_
    exact ⟨(fresh g same).low, (fresh g same).above, (fresh g same).fits⟩

/-- `free` returns for every block in use. -/
theorem Sound.free (placed : Placed base) {s : Program} (sound : Sound base s) {ap : Nat}
    (allowed : Allowed base s (.free ap)) :
    ∃ h', Settles (fun fuel => Heap.free fuel s.heap ap) h' ∧
      ∃ L, Holds base h' (s.live.eraseP fun b => b.addr + 8 = ap) L := by
  obtain ⟨b, member, same⟩ := allowed
  rcases sound with ⟨-, none, -⟩ | ⟨L, holds⟩
  · rw [none] at member
    cases member
  · obtain ⟨c, front, back, -, found, shape, erased⟩ :=
      List.exists_of_eraseP member (p := fun b => decide (b.addr + 8 = ap)) (decide_eq_true same.symm)
    have own : c.addr + 8 = ap := of_decide_eq_true found
    have perm : s.live.Perm (c :: (front ++ back)) := shape ▸ List.perm_middle
    obtain ⟨h', L', settles, holds', -⟩ := free_holds placed (holds.perm perm)
    rw [own] at settles
    exact ⟨h', settles, L', erased ▸ holds'⟩

theorem Sound.store {s : Program} (sound : Sound base s) {y : Nat} {v : UInt8}
    (allowed : Allowed base s (.store y v)) :
    Sound base
      { s with heap := { s.heap with mem := fun x => if x = y then v else s.heap.mem x } } := by
  rcases sound with before | ⟨L, holds⟩
  · exact .inl before
  right
  have same : ∀ c ∈ L ++ s.live,
      SameHeader s.heap.mem (fun x => if x = y then v else s.heap.mem x) c.addr := by
    intro c member x low high
    refine if_neg ?_
    rintro rfl
    rcases allowed with ⟨b, inUse, first, last⟩ | ⟨outside, nowhere⟩
    · -- The byte is behind the header of a block in use, so no other block has it.
      have covered : b.covers x = true := Block.covers_iff.mpr ⟨by omega, last⟩
      rcases holds.kind member with rfl | positive
      · have low' := (holds.bound (List.mem_append_right _ inUse) (holds.used b inUse)).1
        dsimp only at high
        omega
      · have own : c.covers x = true := by
          refine Block.covers_iff.mpr ⟨low, ?_⟩
          unfold Block.stop
          omega
        by_cases other : c = b
        · subst other
          omega
        · have symm : Std.Symm fun b c : Block => ∀ y, ¬(b.covers y = true ∧ c.covers y = true) :=
            ⟨fun _ _ apart y both => apart y both.symm⟩
          exact holds.disjoint.forall member (List.mem_append_right _ inUse) other x ⟨own, covered⟩
    · rcases holds.kind member with rfl | positive
      · dsimp only at low high
        omega
      · obtain ⟨r, region, inside⟩ := holds.covered member (y := x)
          (Block.covers_iff.mpr ⟨low, by unfold Block.stop; omega⟩)
        exact nowhere r region inside
  refine ⟨L, holds.head, ?_, holds.roving, holds.order, fun b member => ?_, holds.nonempty,
    holds.used, holds.tiled, holds.once, holds.bounds⟩
  · exact holds.linked.congr fun c member => same c (List.mem_append_left _ member)
  · exact (same b (List.mem_append_right _ member)).size.trans (holds.sizes b member)

theorem Sound.step (placed : Placed base) {s t : Program} {op : Op} (sound : Sound base s)
    (allowed : Allowed base s op) (step : Step base s op t) : Sound base t := by
  cases step with
  | @malloc nbytes fuel ap answer h call =>
    obtain ⟨r, settles, returns⟩ := sound.malloc placed allowed
    have same : (ap, h) = r := settles.unique (fun _ k found => mallocLoop_mono found k) call
    subst same
    right
    show ∃ L, Holds base h (given ap (unitsFor nbytes) s.live) L
    rcases returns with ⟨null, holds⟩ | ⟨b, block, units, holds⟩
    · rw [given, if_pos null]
      exact holds
    · have own : (⟨ap - 8, unitsFor nbytes⟩ : Block) = b := by
        rw [show ap = b.addr + 8 from block, Nat.add_sub_cancel, ← units]
      rw [given, if_neg (by rw [show ap = b.addr + 8 from block]; exact Nat.succ_ne_zero _), own]
      exact holds
  | @free fuel ap h call =>
    obtain ⟨h', settles, holds⟩ := sound.free placed allowed
    have same : h = h' := settles.unique (fun _ k found => free_mono found k) call
    subst same
    exact .inr holds
  | store y v => exact sound.store allowed

/-- **Between calls**: the free list leads through `base` in the order of the addresses, with
no two blocks that overlap or touch, and the free blocks and the blocks in use are disjoint and
make up the memory that `sbrk` has granted. -/
structure Intact (base : Nat) (s : Program) (L : List Block) : Prop where
  circular : (∃ bs, L = ⟨base, 0⟩ :: bs) ∧ Linked s.heap.mem base L
  roving : ∃ f ∈ L, s.heap.freep = f.addr
  ordered : L.Pairwise Before
  disjoint : (L ++ s.live).Pairwise fun b c => ∀ y, ¬(b.covers y = true ∧ c.covers y = true)
  partition : ∀ y, (∃ b ∈ L ++ s.live, b.covers y = true) ↔ ∃ r ∈ s.heap.regions, r.covers y = true
  headers : ∀ b ∈ s.live, size s.heap.mem b.addr = b.units

theorem Holds.intact {s : Program} (holds : Holds base s.heap s.live L) : Intact base s L where
  circular := ⟨holds.head, holds.linked⟩
  roving := holds.roving
  ordered := holds.order
  disjoint := holds.disjoint
  partition y := by rw [← cover_pos, ← cover_pos, holds.tiled y]
  headers := holds.sizes

/-! ## Scripts -/

instance (base : Nat) (h : Heap) (g nu : Nat) : Decidable (Fresh base h g nu) :=
  decidable_of_iff (base + 8 ≤ g ∧ (∀ r ∈ h.regions, r.stop ≤ g) ∧ g + 8 * nu ≤ kernbase)
    ⟨fun ⟨low, above, fits⟩ => ⟨low, above, fits⟩, fun fresh => ⟨fresh.low, fresh.above, fresh.fits⟩⟩

instance (base : Nat) (s : Program) : (op : Op) → Decidable (Allowed base s op)
  | .malloc _ answer =>
    inferInstanceAs (Decidable (_ ∧ _ ∧ ∀ g ∈ answer, Fresh base s.heap g _))
  | .free ap => inferInstanceAs (Decidable (∃ b ∈ s.live, ap = b.addr + 8))
  | .store y _ => inferInstanceAs (Decidable ((∃ b ∈ s.live, b.addr + 8 ≤ y ∧ y < b.stop) ∨
        (y < base ∨ base + 8 ≤ y) ∧ ∀ r ∈ s.heap.regions, ¬r.covers y = true))

/-- The state after an operation that is allowed and returns with this fuel. -/
def Program.next (base fuel : Nat) (s : Program) (op : Op) : Option Program :=
  if Allowed base s op then
    match op with
    | .malloc nbytes answer =>
      (Heap.malloc base fuel { s.heap with answers := [answer] } nbytes).map fun (ap, h) =>
        ⟨h, given ap (unitsFor nbytes) s.live⟩
    | .free ap =>
      (Heap.free fuel s.heap ap).map fun h => ⟨h, s.live.eraseP fun b => b.addr + 8 = ap⟩
    | .store y v =>
      some { s with heap := { s.heap with mem := fun x => if x = y then v else s.heap.mem x } }
  else none

theorem Program.next_step {fuel : Nat} {s t : Program} {op : Op}
    (next : Program.next base fuel s op = some t) : Allowed base s op ∧ Step base s op t := by
  unfold Program.next at next
  split_ifs at next with allowed
  refine ⟨allowed, ?_⟩
  cases op with
  | malloc nbytes answer =>
    obtain ⟨⟨ap, h⟩, call, rfl⟩ := Option.map_eq_some_iff.mp next
    exact .malloc call
  | free ap =>
    obtain ⟨h, call, rfl⟩ := Option.map_eq_some_iff.mp next
    exact .free call
  | store y v =>
    cases next
    exact .store s y v

/-- **User heap integrity.**  In every state that a program reaches which keeps to its memory, the
heap is intact, `free` returns for every block in use, and `malloc` returns whatever `sbrk`
answers. -/
theorem heap_integrity (placed : Placed base) {s : Program}
    (run : Run (Step base) (Allowed base) (Program.boot m) s) :
    ((s.heap.freep = 0 ∧ s.live = [] ∧ s.heap.regions = []) ∨ ∃ L, Intact base s L) ∧
      (∀ b ∈ s.live, ∃ h, Settles (fun fuel => free fuel s.heap (b.addr + 8)) h) ∧
      ∀ nbytes answer, Allowed base s (.malloc nbytes answer) →
        ∃ r, Settles (fun fuel => malloc base fuel { s.heap with answers := [answer] } nbytes) r := by
  have sound : Sound base s := run.invariant (Sound base) (.inl ⟨rfl, rfl, rfl⟩)
    fun _ _ _ sound allowed step => sound.step placed allowed step
  refine ⟨sound.imp_right fun ⟨L, holds⟩ => ⟨L, holds.intact⟩, fun b member => ?_,
    fun nbytes answer allowed => ?_⟩
  · obtain ⟨h, settles, -⟩ := sound.free placed ⟨b, member, rfl⟩
    exact ⟨h, settles⟩
  · obtain ⟨r, settles, -⟩ := sound.malloc placed allowed
    exact ⟨r, settles⟩

/-- Two blocks are taken from one region, written to and freed, and merge into the region again;
then a region that does not touch it is added. -/
theorem heap_integrity_of_merge : ∃ s : Program,
    Run (Step 64) (Allowed 64) (Program.boot fun _ => 7) s ∧
      (s.live = [⟨65536, 5001⟩] ∧ size s.heap.mem 4096 = 4096) ∧
      ((s.heap.freep = 0 ∧ s.live = [] ∧ s.heap.regions = []) ∨ ∃ L, Intact 64 s L) ∧
      (∀ b ∈ s.live, ∃ h, Settles (fun fuel => free fuel s.heap (b.addr + 8)) h) ∧
      ∀ nbytes answer, Allowed 64 s (.malloc nbytes answer) →
        ∃ r, Settles (fun fuel => malloc 64 fuel { s.heap with answers := [answer] } nbytes) r := by
  obtain ⟨s, run, final⟩ := Run.follow_any (Step 64) (Allowed 64)
    (fun _ _ _ next => Program.next_step next)
    (show (follow (Program.next 64 9)
      [.malloc 20 (some 4096), .malloc 8 none, .store 36840 255, .free 36840, .free 36824,
        .malloc 40000 (some 65536)] (Program.boot fun _ => 7)).any
          (fun s => decide (s.live = [⟨65536, 5001⟩] ∧ size s.heap.mem 4096 = 4096)) = true
      by decide +kernel)
  exact ⟨s, run, of_decide_eq_true final, heap_integrity ⟨by decide, by decide⟩ run⟩

end RandomRepo.Xv6.Heap

import Mathlib.Data.List.Chain
import Mathlib.Data.List.Nodup

/-!
Circular doubly linked lists.

`Links` are the `prev` and `next` pointers of some nodes.  `Ring links head xs` says that
they lead from `head` through `xs` and back to `head`, in both directions.  Nodes are
unlinked and put in front by the usual assignments to four pointers, made one after
the other, and the ring is searched from either end.
-/

namespace RandomRepo

variable {α : Type} {h b : α} {xs ys : List α}

structure Links (α : Type) where
  next : α → α
  prev : α → α

/-- The second node follows the first one. -/
def Links.Joins (L : Links α) (x y : α) : Prop := L.next x = y ∧ L.prev y = x

structure Ring (L : Links α) (head : α) (xs : List α) : Prop where
  nodup : (head :: xs).Nodup
  chain : (head :: (xs ++ [head])).IsChain L.Joins

/-- The head alone, linked to itself. -/
theorem Ring.single (h : α) : Ring (⟨fun _ => h, fun _ => h⟩ : Links α) h [] :=
  ⟨List.nodup_singleton h, by
    rw [List.nil_append, List.isChain_cons_cons]
    exact ⟨⟨rfl, rfl⟩, .singleton h⟩⟩

/-- A chain survives if its inner edges do. -/
theorem chain_congr {R S : α → α → Prop} {p : α} (chain : (xs ++ [p]).IsChain R)
    (keep : ∀ x ∈ xs, ∀ y ∈ (xs ++ [p]).tail, R x y → S x y) : (xs ++ [p]).IsChain S := by
  induction xs with
  | nil => exact .singleton p
  | cons x xs ih =>
    rw [List.cons_append, List.isChain_cons] at chain ⊢
    refine ⟨fun y first => ?_, ih chain.2 fun z hz y hy => ?_⟩
    · exact keep x List.mem_cons_self y (List.mem_of_mem_head? first) (chain.1 y first)
    · exact keep z (List.mem_cons_of_mem _ hz) y (List.mem_of_mem_tail hy)

section Update

variable [DecidableEq α] {L : Links α}

def Links.setNext (L : Links α) (x y : α) : Links α := { L with next := Function.update L.next x y }

def Links.setPrev (L : Links α) (x y : α) : Links α := { L with prev := Function.update L.prev x y }

/-- Take a node out: `b->next->prev = b->prev; b->prev->next = b->next`. -/
def Links.unlink (L : Links α) (b : α) : Links α :=
  let L := L.setPrev (L.next b) (L.prev b)
  L.setNext (L.prev b) (L.next b)

/-- Put a node behind the head: `b->next = head.next; b->prev = &head; head.next->prev = b;
head.next = b`. -/
def Links.pushFront (L : Links α) (h b : α) : Links α :=
  let L := L.setNext b (L.next h)
  let L := L.setPrev b h
  let L := L.setPrev (L.next h) b
  L.setNext h b

theorem Links.Joins.update {x y p n p' n' : α} (joins : L.Joins x y) (hx : x ≠ p) (hy : y ≠ n) :
    Links.Joins ⟨Function.update L.next p n', Function.update L.prev n p'⟩ x y :=
  ⟨(Function.update_of_ne hx ..).trans joins.1, (Function.update_of_ne hy ..).trans joins.2⟩

theorem Links.unlink_eq {p n : α} (prev : L.prev b = p) (next : L.next b = n) (other : b ≠ n) :
    L.unlink b = ⟨Function.update L.next p n, Function.update L.prev n p⟩ := by
  unfold unlink setPrev setNext
  dsimp only
  rw [next, prev, Function.update_of_ne other, prev]

theorem Ring.unlink (ring : Ring L h (xs ++ b :: ys)) : Ring (L.unlink b) h (xs ++ ys) := by
  obtain ⟨nodup, chain⟩ := ring
  -- `p` and `n` are the neighbours of `b`.
  obtain ⟨as, p, before⟩ := (List.eq_nil_or_concat (h :: xs)).resolve_left nofun
  rw [List.concat_eq_append] at before
  obtain ⟨n, bs, after⟩ : ∃ n bs, ys ++ [h] = n :: bs := by
    cases ys with
    | nil => exact ⟨h, [], rfl⟩
    | cons y ys => exact ⟨y, ys ++ [h], rfl⟩
  rw [← List.cons_append, List.nodup_append, List.nodup_cons, List.nodup_cons] at nodup
  obtain ⟨⟨notHead, inFront⟩, ⟨notBack, inBack⟩, apart⟩ := nodup
  have pFront : p ∈ h :: xs := by
    rw [before]
    exact List.mem_append_right _ (List.mem_singleton_self p)
  have nBack : n ∈ ys ++ [h] := by
    rw [after]
    exact List.mem_cons_self
  have headOut : h ∉ ys := fun member =>
    apart h List.mem_cons_self h (List.mem_cons_of_mem _ member) rfl
  have bn : b ≠ n := by
    rintro rfl
    rcases List.mem_append.mp nBack with member | member
    · exact notBack member
    · cases List.mem_singleton.mp member
      exact apart h List.mem_cons_self h List.mem_cons_self rfl
  have shape : h :: ((xs ++ b :: ys) ++ [h]) = as ++ p :: b :: n :: bs := by
    calc h :: ((xs ++ b :: ys) ++ [h]) = (h :: xs) ++ b :: (ys ++ [h]) := by simp
      _ = as ++ p :: b :: n :: bs := by simp [before, after]
  rw [shape, List.isChain_append_cons_cons, List.isChain_cons_cons] at chain
  obtain ⟨front, ⟨-, prev⟩, ⟨next, -⟩, back⟩ := chain
  rw [Links.unlink_eq prev next bn]
  refine ⟨?_, ?_⟩
  · rw [← List.cons_append, List.nodup_append, List.nodup_cons]
    exact ⟨⟨notHead, inFront⟩, inBack, fun x hx y hy => apart x hx y (List.mem_cons_of_mem _ hy)⟩
  · have shape' : h :: ((xs ++ ys) ++ [h]) = as ++ p :: n :: bs := by
      calc h :: ((xs ++ ys) ++ [h]) = (h :: xs) ++ (ys ++ [h]) := by simp
        _ = as ++ p :: n :: bs := by simp [before, after]
    rw [shape', List.isChain_append_cons_cons]
    refine ⟨chain_congr front fun x hx y hy joins => ?_, ?_, ?_⟩
    · have notP : x ≠ p := by
        rintro rfl
        have distinct : (h :: xs).Nodup := List.nodup_cons.mpr ⟨notHead, inFront⟩
        rw [before, List.nodup_append] at distinct
        exact distinct.2.2 x hx x (List.mem_singleton_self x) rfl
      have inXs : y ∈ xs := by
        rw [← before] at hy
        exact hy
      have notN : y ≠ n := by
        rintro rfl
        rcases List.mem_append.mp nBack with member | member
        · exact apart y (List.mem_cons_of_mem _ inXs) y (List.mem_cons_of_mem _ member) rfl
        · cases List.mem_singleton.mp member
          exact notHead inXs
      exact joins.update notP notN
    · exact ⟨Function.update_self .., Function.update_self ..⟩
    · rw [← after] at back ⊢
      refine chain_congr back fun x hx y hy joins => ?_
      have notP : x ≠ p := by
        rintro rfl
        exact apart x pFront x (List.mem_cons_of_mem _ hx) rfl
      have notN : y ≠ n := by
        rintro rfl
        have distinct : (ys ++ [h]).Nodup := by
          rw [List.nodup_append]
          refine ⟨inBack, List.nodup_singleton h, ?_⟩
          rintro x hx _ hy rfl
          exact headOut (List.mem_singleton.mp hy ▸ hx)
        rw [after] at distinct hy
        exact (List.nodup_cons.mp distinct).1 hy
      exact joins.update notP notN

theorem Links.pushFront_eq (other : b ≠ h) :
    L.pushFront h b = ⟨Function.update (Function.update L.next b (L.next h)) h b,
      Function.update (Function.update L.prev b h) (L.next h) b⟩ := by
  unfold pushFront setPrev setNext
  dsimp only
  rw [Function.update_of_ne other.symm]

theorem Ring.pushFront (ring : Ring L h xs) (new : b ∉ h :: xs) :
    Ring (L.pushFront h b) h (b :: xs) := by
  obtain ⟨nodup, chain⟩ := ring
  obtain ⟨n, bs, after⟩ : ∃ n bs, xs ++ [h] = n :: bs := by
    cases xs with
    | nil => exact ⟨h, [], rfl⟩
    | cons x xs => exact ⟨x, xs ++ [h], rfl⟩
  have bh : b ≠ h := fun same => new (same ▸ List.mem_cons_self)
  have distinct : (xs ++ [h]).Nodup := by
    rw [List.nodup_append_comm]
    exact nodup
  have notIn : b ∉ xs ++ [h] := by
    rw [List.mem_append, List.mem_singleton, not_or]
    exact ⟨fun member => new (List.mem_cons_of_mem _ member), bh⟩
  rw [after, List.isChain_cons_cons] at chain
  obtain ⟨⟨next, -⟩, back⟩ := chain
  have bn : b ≠ n := by
    rintro rfl
    exact notIn (after ▸ List.mem_cons_self)
  rw [Links.pushFront_eq bh, next]
  refine ⟨?_, ?_⟩
  · rw [List.nodup_cons] at nodup ⊢
    rw [List.mem_cons, List.nodup_cons, not_or]
    exact ⟨⟨bh.symm, nodup.1⟩, fun member => new (List.mem_cons_of_mem _ member), nodup.2⟩
  · rw [List.cons_append, after, List.isChain_cons_cons, List.isChain_cons_cons]
    refine ⟨⟨Function.update_self .., ?_⟩, ⟨?_, Function.update_self ..⟩, ?_⟩
    · exact (Function.update_of_ne bn ..).trans (Function.update_self ..)
    · exact (Function.update_of_ne bh ..).trans (Function.update_self ..)
    · rw [← after] at back ⊢
      refine chain_congr back fun x hx y hy joins => ?_
      have xb : x ≠ b := fun same => notIn (same ▸ List.mem_append_left _ hx)
      have yb : y ≠ b := fun same => notIn (same ▸ List.mem_of_mem_tail hy)
      have xh : x ≠ h := fun same => (List.nodup_cons.mp nodup).1 (same ▸ hx)
      have yn : y ≠ n := by
        rintro rfl
        rw [after] at distinct hy
        exact (List.nodup_cons.mp distinct).1 hy
      exact (joins.update xb yb).update xh yn

/-- A node is moved to the front. -/
theorem Ring.touch (ring : Ring L h (xs ++ b :: ys)) :
    Ring ((L.unlink b).pushFront h b) h (b :: (xs ++ ys)) := by
  refine ring.unlink.pushFront ?_
  have moved : (h :: b :: (xs ++ ys)).Nodup :=
    (List.Perm.cons h List.perm_middle).nodup_iff.mp ring.nodup
  rw [List.nodup_cons, List.nodup_cons] at moved
  rw [List.mem_cons, not_or]
  exact ⟨fun same => moved.1 (same ▸ List.mem_cons_self), moved.2.1⟩

/-- Nodes are put in front one after the other. -/
theorem Ring.pushAll (ring : Ring L h xs) (new : (ys ++ h :: xs).Nodup) :
    Ring (ys.foldl (fun L b => L.pushFront h b) L) h (ys.reverse ++ xs) := by
  induction ys generalizing L xs with
  | nil => exact ring
  | cons y ys ih =>
    rw [List.cons_append, List.nodup_cons] at new
    have front : y ∉ h :: xs := fun member => new.1 (List.mem_append_right _ member)
    rw [List.foldl_cons, List.reverse_cons, List.append_assoc]
    refine ih (ring.pushFront front) ?_
    have moved : (ys ++ h :: y :: xs).Perm (y :: (ys ++ h :: xs)) :=
      (List.Perm.append_left ys (List.Perm.swap y h xs)).trans List.perm_middle
    exact moved.nodup_iff.mpr (List.nodup_cons.mpr new)

/-! ## Searching -/

/-- Follow a pointer from `b` until a node is found or the head is reached again; as many turns as
there is fuel. -/
def Links.search (step : α → α) (h : α) (p : α → Bool) : Nat → α → Option α
  | 0, _ => none
  | fuel + 1, b =>
    if b = h then none else if p b then some b else search step h p fuel (step b)

theorem search_eq {step : α → α} {p : α → Bool} {fuel : Nat}
    (chain : (xs ++ [h]).IsChain fun x y => step x = y) (notIn : h ∉ xs)
    (enough : xs.length < fuel) : Links.search step h p fuel (xs.headD h) = xs.find? p := by
  induction xs generalizing fuel with
  | nil =>
    cases fuel with
    | zero => cases enough
    | succ fuel => exact if_pos rfl
  | cons x xs ih =>
    cases fuel with
    | zero => cases enough
    | succ fuel =>
      have other : x ≠ h := fun same => notIn (same ▸ List.mem_cons_self)
      rw [List.headD_cons, Links.search, if_neg other, List.find?_cons]
      cases hit : p x with
      | true => rfl
      | false =>
        rw [List.cons_append, List.isChain_cons] at chain
        have next : step x = xs.headD h := by
          refine chain.1 _ ?_
          cases xs <;> rfl
        rw [next]
        exact ih chain.2 (fun member => notIn (List.mem_cons_of_mem _ member))
          (Nat.lt_of_succ_lt_succ enough)

theorem search_ring {step : α → α} {p : α → Bool} {fuel : Nat}
    (chain : (h :: (xs ++ [h])).IsChain fun x y => step x = y) (notIn : h ∉ xs)
    (enough : xs.length < fuel) : Links.search step h p fuel (step h) = xs.find? p := by
  rw [List.isChain_cons] at chain
  have first : step h = xs.headD h := by
    refine chain.1 _ ?_
    cases xs <;> rfl
  rw [first]
  exact search_eq chain.2 notIn enough

/-- The loop over `next` finds the first node of the ring with the property. -/
theorem Ring.search_next {p : α → Bool} {fuel : Nat} (ring : Ring L h xs)
    (enough : xs.length < fuel) : Links.search L.next h p fuel (L.next h) = xs.find? p :=
  search_ring (ring.chain.imp fun _ _ joins => joins.1) (List.nodup_cons.mp ring.nodup).1 enough

/-- The loop over `prev` finds the last one. -/
theorem Ring.search_prev {p : α → Bool} {fuel : Nat} (ring : Ring L h xs)
    (enough : xs.length < fuel) :
    Links.search L.prev h p fuel (L.prev h) = xs.reverse.find? p := by
  have back : (h :: (xs ++ [h])).reverse.IsChain fun x y => L.prev x = y :=
    List.isChain_reverse.mpr (ring.chain.imp fun _ _ joins => joins.2)
  refine search_ring (by simpa using back) ?_ (by rwa [List.length_reverse])
  rw [List.mem_reverse]
  exact (List.nodup_cons.mp ring.nodup).1

end Update

end RandomRepo

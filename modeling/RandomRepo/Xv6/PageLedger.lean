import RandomRepo.Lib.Ledger
import RandomRepo.Xv6.Kalloc

/-!
# Ownership of physical pages

`Owns L T m S` accounts for physical memory: the free list and the pages `S`
that somebody holds are together exactly the pages `T`, all of them pages
`kfree` accepts, and no page has been freed twice so far.

`Moves L m S m' S'` is what a kernel function does with pages: whoever else holds
the pages `R`, it turns a memory in which its caller holds `S` into one in which
the caller holds `S'`, and leaves the contents of `R` alone.  The pages of the
others are quantified inside, so the relation composes and frames.
-/

namespace RandomRepo.Xv6

structure Owns (L : Layout) (T : Multiset Nat) (m : Kmem) (S : Multiset Nat) : Prop where
  ledger : Ledger T m.freelist S
  ram : ∀ p ∈ T, L.InRam p
  once : m.twice = false

def Moves (L : Layout) (m : Kmem) (S : Multiset Nat) (m' : Kmem) (S' : Multiset Nat) : Prop :=
  ∀ T R, Owns L T m (S + R) →
    Owns L T m' (S' + R) ∧ ∀ q ∈ R, m'.data q = m.data q

variable {L : Layout} {m m₁ m₂ m' : Kmem} {S S₁ S₂ S' T F R : Multiset Nat} {p : Nat}

theorem Owns.congr (owns : Owns L T m S) (h : S = S') : Owns L T m S' := h ▸ owns

theorem Owns.inRam (owns : Owns L T m S) (h : p ∈ S) : L.InRam p :=
  owns.ram p (owns.ledger.mem_of_held h)

theorem Owns.free_inRam (owns : Owns L T m S) (h : p ∈ m.freelist) : L.InRam p :=
  owns.ram p (owns.ledger.mem_of_free (Multiset.mem_coe.mpr h))

theorem Moves.refl (L : Layout) (m : Kmem) (S : Multiset Nat) : Moves L m S m S :=
  fun _ _ owns => ⟨owns, fun _ _ => rfl⟩

theorem Moves.trans (first : Moves L m S m₁ S₁) (second : Moves L m₁ S₁ m' S') :
    Moves L m S m' S' := by
  intro T R owns
  obtain ⟨owns₁, same₁⟩ := first T R owns
  obtain ⟨owns', same'⟩ := second T R owns₁
  exact ⟨owns', fun q hq => (same' q hq).trans (same₁ q hq)⟩

theorem Moves.congr (moves : Moves L m S m' S') (h : S = S₁) (h' : S' = S₂) :
    Moves L m S₁ m' S₂ := h ▸ h' ▸ moves

/-- Pages the function does not touch may be held by its caller as well. -/
theorem Moves.frame (moves : Moves L m S m' S') (F : Multiset Nat) :
    Moves L m (S + F) m' (S' + F) := by
  intro T R owns
  rw [add_assoc] at owns ⊢
  obtain ⟨owns', same⟩ := moves T (F + R) owns
  exact ⟨owns', fun q hq => same q (Multiset.mem_add.mpr (.inr hq))⟩

theorem Moves.owns (moves : Moves L m S m' S') (owns : Owns L T m (S + R)) :
    Owns L T m' (S' + R) :=
  (moves T R owns).1

theorem Moves.same (moves : Moves L m S m' S') (owns : Owns L T m (S + R)) {q : Nat}
    (hq : q ∈ R) : m'.data q = m.data q :=
  (moves T R owns).2 q hq

theorem kalloc_none_moves (h : kalloc m = (none, m')) : Moves L m 0 m' 0 := by
  rcases kalloc_cases h with ⟨-, -, rfl⟩ | ⟨p, rest, -, impossible, -⟩
  · exact fun _ _ owns => ⟨⟨owns.ledger, owns.ram, owns.once⟩, fun _ _ => rfl⟩
  · cases impossible

theorem kalloc_some_moves (h : kalloc m = (some p, m')) : Moves L m 0 m' {p} := by
  rcases kalloc_cases h with ⟨-, impossible, -⟩ | ⟨q, rest, free, hq, rfl⟩
  · cases impossible
  · cases hq
    intro T R owns
    rw [zero_add] at owns
    refine ⟨⟨?_, owns.ram, owns.once⟩, fun _ _ => rfl⟩
    have ledger := owns.ledger
    rw [free, ← Multiset.cons_coe] at ledger
    rw [Multiset.singleton_add]
    exact ledger.take

theorem kalloc_data {r : Option Nat} (h : kalloc m = (r, m')) : m'.data = m.data := by
  rcases kalloc_cases h with ⟨-, -, rfl⟩ | ⟨p, rest, -, -, rfl⟩ <;> rfl

/-- A function that only writes to page `p` needs nothing but `p`. -/
theorem Moves.of_data {d : Nat → PageData} (h : ∀ q, q ≠ p → d q = m.data q) :
    Moves L m {p} { m with data := d } {p} := by
  intro T R owns
  refine ⟨⟨owns.ledger, owns.ram, owns.once⟩, fun q hq => h q ?_⟩
  rintro rfl
  exact owns.ledger.apart (Multiset.mem_singleton_self q) hq

theorem memset_moves (c : UInt8) : Moves L m {p} (m.memset p c) {p} :=
  Moves.of_data fun _ hq => Function.update_of_ne hq _ _

theorem copyPage_moves (src : Nat) : Moves L m {p} (m.copyPage p src) {p} :=
  Moves.of_data fun _ hq => Function.update_of_ne hq _ _

theorem write_moves (off : Nat) (bytes : List UInt8) :
    Moves L m {p} (m.write p off bytes) {p} :=
  Moves.of_data fun _ hq => Function.update_of_ne hq _ _

theorem kfree_moves (h : kfree L p m = .ok m') : Moves L m {p} m' 0 := by
  obtain ⟨-, rfl⟩ := kfree_eq_ok h
  intro T R owns
  have notFree : p ∉ (m.freelist : Multiset Nat) :=
    owns.ledger.not_free (Multiset.mem_add.mpr (.inl (Multiset.mem_singleton_self p)))
  refine ⟨⟨?_, owns.ram, ?_⟩, fun q hq => Function.update_of_ne ?_ _ _⟩
  · have ledger := owns.ledger
    rw [Multiset.singleton_add] at ledger
    rw [zero_add, ← Multiset.cons_coe]
    exact ledger.give
  · simpa [owns.once] using notFree
  · rintro rfl
    exact owns.ledger.apart (Multiset.mem_singleton_self q) hq

/-- A page somebody holds can be freed. -/
theorem Owns.kfree (owns : Owns L T m S) (h : p ∈ S) : ∃ m', kfree L p m = .ok m' :=
  ⟨_, kfree_ok (owns.inRam h)⟩

theorem Owns.length_add (owns : Owns L T m S) : m.freelist.length + S.card = T.card := by
  rw [← owns.ledger.balance, Multiset.card_add, Multiset.coe_card]

theorem kfree_oom (h : kfree L p m = .ok m') : m'.oom = m.oom := by
  obtain ⟨-, rfl⟩ := kfree_eq_ok h
  rfl

/-- The `kalloc` that returns 0 is the one that is remembered. -/
theorem kalloc_none_oom (h : kalloc m = (none, m')) : m.freelist = [] ∧ m'.oom = true := by
  rcases kalloc_cases h with ⟨empty, -, rfl⟩ | ⟨p, rest, -, impossible, -⟩
  · exact ⟨empty, rfl⟩
  · cases impossible

theorem kalloc_some_oom (h : kalloc m = (some p, m')) : m'.oom = m.oom := by
  rcases kalloc_cases h with ⟨-, impossible, -⟩ | ⟨q, rest, -, -, rfl⟩
  · cases impossible
  · rfl

/-- With `n` free pages memory is not exhausted, and at most `n` pages are taken. -/
def Spends (n : Nat) (m m' : Kmem) : Prop :=
  n ≤ m.freelist.length → m'.oom = m.oom ∧ m.freelist.length ≤ m'.freelist.length + n

theorem kalloc_length (h : kalloc m = (some p, m')) :
    m.freelist.length = m'.freelist.length + 1 := by
  rcases kalloc_cases h with ⟨-, impossible, -⟩ | ⟨q, rest, free, -, rfl⟩
  · cases impossible
  · rw [free, List.length_cons]

end RandomRepo.Xv6

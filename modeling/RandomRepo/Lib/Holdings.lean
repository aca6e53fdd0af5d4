import Mathlib.Data.Set.Insert

/-!
Units that are each held by one cell, or by nobody.

`held c = some u` says that the cell `c` holds the unit `u`.  Units on their way into a cell or
out of one are `loose`.  `Holdings held loose used` says that no unit is in two places and that
the units that are marked as used are exactly those that are held or loose.
-/

namespace RandomRepo

variable {ι α : Type} {held held' : ι → Option α} {loose used : Set α} {c : ι} {u : α}

structure Holdings (held : ι → Option α) (loose used : Set α) : Prop where
  once : ∀ c d u, held c = some u → held d = some u → c = d
  apart : ∀ c u, held c = some u → u ∉ loose
  used_iff : ∀ u, u ∈ used ↔ (∃ c, held c = some u) ∨ u ∈ loose

namespace Holdings

theorem congr (holdings : Holdings held loose used) (same : ∀ c, held' c = held c) :
    Holdings held' loose used := by
  obtain rfl : held' = held := funext same
  exact holdings

theorem held_used (holdings : Holdings held loose used) (here : held c = some u) : u ∈ used :=
  (holdings.used_iff u).mpr (.inl ⟨c, here⟩)

/-- A unit that is not used is marked and in hand. -/
theorem take (holdings : Holdings held loose used) (unused : u ∉ used) :
    Holdings held (insert u loose) (insert u used) where
  once := holdings.once
  apart c v here := by
    rintro (rfl | other)
    · exact unused (holdings.held_used here)
    · exact holdings.apart c v here other
  used_iff v := by
    rw [Set.mem_insert_iff, Set.mem_insert_iff, holdings.used_iff v]
    exact or_left_comm

/-- A loose unit is given back. -/
theorem give (holdings : Holdings held loose used) (inHand : u ∈ loose) :
    Holdings held (loose \ {u}) (used \ {u}) where
  once := holdings.once
  apart c v here still := holdings.apart c v here still.1
  used_iff v := by
    rw [Set.mem_sdiff, Set.mem_sdiff, holdings.used_iff v]
    constructor
    · rintro ⟨⟨c, here⟩ | other, out⟩
      · exact .inl ⟨c, here⟩
      · exact .inr ⟨other, out⟩
    · rintro (⟨c, here⟩ | other)
      · refine ⟨.inl ⟨c, here⟩, ?_⟩
        rintro rfl
        exact holdings.apart c v here inHand
      · exact ⟨.inr other.1, other.2⟩

/-- A loose unit is put into an empty cell. -/
theorem put (holdings : Holdings held loose used) (inHand : u ∈ loose)
    (empty : held c = none) (cell : held' c = some u) (rest : ∀ d, d ≠ c → held' d = held d) :
    Holdings held' (loose \ {u}) used where
  once d e v hd he := by
    by_cases isD : d = c <;> by_cases isE : e = c
    · rw [isD, isE]
    · rw [isD, cell, Option.some.injEq] at hd
      rw [rest e isE, ← hd] at he
      exact absurd inHand (holdings.apart e u he)
    · rw [isE, cell, Option.some.injEq] at he
      rw [rest d isD, ← he] at hd
      exact absurd inHand (holdings.apart d u hd)
    · rw [rest d isD] at hd
      rw [rest e isE] at he
      exact holdings.once d e v hd he
  apart d v hd still := by
    by_cases isD : d = c
    · rw [isD, cell, Option.some.injEq] at hd
      exact still.2 hd.symm
    · rw [rest d isD] at hd
      exact holdings.apart d v hd still.1
  used_iff v := by
    rw [holdings.used_iff v]
    constructor
    · rintro (⟨d, hd⟩ | other)
      · refine .inl ⟨d, ?_⟩
        rw [rest d fun isC => by rw [isC, empty] at hd; cases hd]
        exact hd
      · by_cases same : v = u
        · exact .inl ⟨c, by rw [cell, same]⟩
        · exact .inr ⟨other, same⟩
    · rintro (⟨d, hd⟩ | other)
      · by_cases isD : d = c
        · rw [isD, cell, Option.some.injEq] at hd
          exact .inr (hd ▸ inHand)
        · rw [rest d isD] at hd
          exact .inl ⟨d, hd⟩
      · exact .inr other.1

/-- Some cells are emptied, and what they held is loose. -/
theorem pull (holdings : Holdings held loose used) {out : Set ι} (emptied : ∀ c ∈ out, held' c = none)
    (rest : ∀ c, c ∉ out → held' c = held c) :
    Holdings held' (loose ∪ {u | ∃ c ∈ out, held c = some u}) used where
  once d e v hd he := by
    have inD : d ∉ out := fun inside => by rw [emptied d inside] at hd; cases hd
    have inE : e ∉ out := fun inside => by rw [emptied e inside] at he; cases he
    rw [rest d inD] at hd
    rw [rest e inE] at he
    exact holdings.once d e v hd he
  apart d v hd := by
    have inD : d ∉ out := fun inside => by rw [emptied d inside] at hd; cases hd
    rw [rest d inD] at hd
    rintro (still | ⟨c, inside, hc⟩)
    · exact holdings.apart d v hd still
    · exact inD (holdings.once c d v hc hd ▸ inside)
  used_iff v := by
    rw [holdings.used_iff v]
    constructor
    · rintro (⟨d, hd⟩ | other)
      · by_cases inD : d ∈ out
        · exact .inr (.inr ⟨d, inD, hd⟩)
        · exact .inl ⟨d, by rw [rest d inD]; exact hd⟩
      · exact .inr (.inl other)
    · rintro (⟨d, hd⟩ | other | ⟨c, -, hc⟩)
      · have inD : d ∉ out := fun inside => by rw [emptied d inside] at hd; cases hd
        exact .inl ⟨d, by rw [← rest d inD]; exact hd⟩
      · exact .inr other
      · exact .inl ⟨c, hc⟩

end Holdings

end RandomRepo

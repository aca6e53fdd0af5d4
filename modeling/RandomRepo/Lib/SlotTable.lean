import Mathlib.Data.List.Basic

/-!
Tables of slots: lists whose entries are free or hold a key.

`key a = none` says that the slot `a` is free.  A table is `Distinct` if no two slots
hold the same key.  `put` overwrites a slot, or adds one at the end of the table.
-/

namespace RandomRepo

variable {α κ : Type} {key : α → Option κ} {xs : List α} {i j : Nat} {a b : α} {k : κ}

/-- The slot at the length of the table is a new one. -/
def put (xs : List α) (i : Nat) (a : α) : List α :=
  if i < xs.length then xs.set i a else xs ++ [a]

theorem getElem?_put (bound : i ≤ xs.length) (a : α) (j : Nat) :
    (put xs i a)[j]? = if j = i then some a else xs[j]? := by
  unfold put
  by_cases inside : i < xs.length
  · rw [if_pos inside, List.getElem?_set]
    by_cases here : i = j
    · subst here
      rw [if_pos rfl, if_pos rfl, if_pos inside]
    · rw [if_neg here, if_neg (Ne.symm here)]
  · have last : i = xs.length := by omega
    subst last
    rw [if_neg inside, List.getElem?_append]
    by_cases before : j < xs.length
    · rw [if_pos before, if_neg (by omega)]
    · rw [if_neg before]
      by_cases here : j = xs.length
      · subst here
        rw [if_pos rfl, Nat.sub_self]
        rfl
      · rw [if_neg here, List.getElem?_eq_none (by simp; omega),
          List.getElem?_eq_none (by omega)]

theorem length_put_le (xs : List α) (i : Nat) (a : α) : xs.length ≤ (put xs i a).length := by
  unfold put
  split_ifs
  · exact Nat.le_of_eq (List.length_set ..).symm
  · rw [List.length_append]
    omega

theorem length_put (inside : i < xs.length) (a : α) : (put xs i a).length = xs.length := by
  rw [put, if_pos inside, List.length_set]

def Distinct (key : α → Option κ) (xs : List α) : Prop :=
  ∀ (i j : Nat) (a b : α) (k : κ), xs[i]? = some a → xs[j]? = some b → key a = some k →
    key b = some k → i = j

/-- A slot gets a key that no other slot holds, or none. -/
theorem Distinct.put (distinct : Distinct key xs) (bound : i ≤ xs.length)
    (new : ∀ j b k, j ≠ i → xs[j]? = some b → key b = some k → key a ≠ some k) :
    Distinct key (put xs i a) := by
  intro j l b c k hb hc kb kc
  rw [getElem?_put bound] at hb hc
  split_ifs at hb with here <;> split_ifs at hc with there
  · rw [here, there]
  · cases hb
    exact absurd kb (new l c k there hc kc)
  · cases hc
    exact absurd kc (new j b k here hb kb)
  · exact distinct j l b c k hb hc kb kc

end RandomRepo

import Mathlib.Data.List.Basic

/-!
Lists that are cut into pieces.

`joined sep pieces` puts a separator after every piece.  A list that is read in
two parts is cut inside one of the pieces, and the first part of that piece is
carried over.

`runs blank xs` are the maximal runs of elements that are not blank.  A scan from
left to right finds the runs that a blank follows, `closedRuns`, and is left with
the elements after the last blank, `openRun`.
-/

namespace RandomRepo

variable {α : Type} {sep : α} {pieces : List (List α)} {xs ys : List α}

/-- The pieces in order, each with the separator after it. -/
def joined (sep : α) (pieces : List (List α)) : List α := pieces.flatMap (· ++ [sep])

theorem joined_cons (piece : List α) :
    joined sep (piece :: pieces) = piece ++ sep :: joined sep pieces := by
  unfold joined
  rw [List.flatMap_cons, List.append_assoc]
  rfl

/-- The first part of joined pieces ends in one of them. -/
theorem joined_cut (whole : xs ++ ys = joined sep pieces) (clean : ∀ piece ∈ pieces, sep ∉ piece) :
    ∃ done rest tail, pieces = done ++ rest ∧ xs = joined sep done ++ tail ∧
      tail ++ ys = joined sep rest ∧ sep ∉ tail := by
  induction pieces generalizing xs with
  | nil =>
    have empty := List.append_eq_nil_iff.mp whole
    rw [empty.1, empty.2]
    exact ⟨[], [], [], rfl, rfl, rfl, List.not_mem_nil⟩
  | cons piece pieces ih =>
    rw [joined_cons] at whole
    rcases List.append_eq_append_iff.mp whole with ⟨more, first, rest⟩ | ⟨more, first, rest⟩
    · -- The list is cut inside the first piece.
      refine ⟨[], piece :: pieces, xs, rfl, rfl, by rw [whole, joined_cons], fun member => ?_⟩
      exact clean piece List.mem_cons_self (by rw [first]; exact List.mem_append_left more member)
    · cases more with
      | nil =>
        rw [List.append_nil] at first
        refine ⟨[], piece :: pieces, xs, rfl, rfl, by rw [whole, joined_cons], ?_⟩
        rw [first]
        exact clean piece List.mem_cons_self
      | cons a more =>
        obtain ⟨rfl, same⟩ := List.cons.inj rest
        obtain ⟨done, pieces', tail, rfl, rfl, later, last⟩ := ih same.symm
          (fun other member => clean other (List.mem_cons_of_mem piece member))
        refine ⟨piece :: done, pieces', tail, rfl, ?_, later, last⟩
        rw [first, joined_cons, List.append_assoc]
        rfl

/-! ## Runs -/

section Runs

variable {blank : α → Bool} {word rest : List α} {a : α}

def runs (blank : α → Bool) (xs : List α) : List (List α) :=
  (xs.splitOnP blank).filter fun run => !run.isEmpty

/-- The runs that a blank follows. -/
def closedRuns (blank : α → Bool) (xs : List α) : List (List α) :=
  (xs.splitOnP blank).dropLast.filter fun run => !run.isEmpty

/-- The elements after the last blank. -/
def openRun (blank : α → Bool) (xs : List α) : List α := (xs.splitOnP blank).getLast?.getD []

/-- A list has no blank in it, or a first one. -/
theorem cut_induction (blank : α → Bool) {motive : List α → Prop}
    (solid : ∀ word, (∀ x ∈ word, blank x = false) → motive word)
    (cut : ∀ word a rest, (∀ x ∈ word, blank x = false) → blank a = true → motive rest →
      motive (word ++ a :: rest)) (xs : List α) : motive xs := by
  suffices scan : ∀ word, (∀ x ∈ word, blank x = false) → motive (word ++ xs) from
    scan [] (fun x member => absurd member List.not_mem_nil)
  induction xs with
  | nil =>
    intro word clear
    rw [List.append_nil]
    exact solid word clear
  | cons x xs ih =>
    intro word clear
    cases here : blank x with
    | true => exact cut word x xs clear here (ih [] fun y member => absurd member List.not_mem_nil)
    | false =>
      have more := ih (word ++ [x]) (List.forall_mem_append.mpr
        ⟨clear, fun y member => by rw [List.mem_singleton.mp member]; exact here⟩)
      rwa [List.append_assoc] at more

theorem closedRuns_solid (solid : ∀ x ∈ word, blank x = false) : closedRuns blank word = [] := by
  unfold closedRuns
  rw [List.splitOnP_eq_singleton solid]
  rfl

theorem openRun_solid (solid : ∀ x ∈ word, blank x = false) : openRun blank word = word := by
  unfold openRun
  rw [List.splitOnP_eq_singleton solid]
  rfl

theorem closedRuns_cut (solid : ∀ x ∈ word, blank x = false) (here : blank a = true) :
    closedRuns blank (word ++ a :: rest) =
      (if word = [] then [] else [word]) ++ closedRuns blank rest := by
  unfold closedRuns
  rw [List.splitOnP_append_cons word rest here, List.splitOnP_eq_singleton solid,
    List.dropLast_append_of_ne_nil (List.splitOnP_ne_nil blank rest), List.filter_append]
  congr 1
  cases word with
  | nil => rfl
  | cons x word => rfl

theorem runs_solid (solid : ∀ x ∈ word, blank x = false) (some_ : word ≠ []) :
    runs blank word = [word] := by
  unfold runs
  rw [List.splitOnP_eq_singleton solid]
  cases word with
  | nil => exact absurd rfl some_
  | cons x word => rfl

theorem runs_cut (solid : ∀ x ∈ word, blank x = false) (here : blank a = true) :
    runs blank (word ++ a :: rest) = (if word = [] then [] else [word]) ++ runs blank rest := by
  unfold runs
  rw [List.splitOnP_append_cons word rest here, List.splitOnP_eq_singleton solid, List.filter_append]
  congr 1
  cases word with
  | nil => rfl
  | cons x word => rfl

theorem openRun_cut (here : blank a = true) :
    openRun blank (word ++ a :: rest) = openRun blank rest := by
  unfold openRun
  rw [List.splitOnP_append_cons word rest here,
    List.getLast?_append_of_ne_nil _ (List.splitOnP_ne_nil blank rest)]

/-- All runs are closed in a list that ends with a blank. -/
theorem closedRuns_concat (here : blank a = true) :
    closedRuns blank (xs ++ [a]) = runs blank (xs ++ [a]) := by
  unfold closedRuns runs
  rw [List.splitOnP_append_cons xs [] here, List.splitOnP_nil, List.dropLast_concat,
    List.filter_append]
  exact (List.append_nil _).symm

theorem openRun_concat (here : blank a = true) : openRun blank (xs ++ [a]) = [] := by
  rw [openRun_cut here]
  rfl

/-- Blanks before anything else. -/
theorem runs_blanks {sep : List α} (blanks : ∀ x ∈ sep, blank x = true) :
    closedRuns blank (sep ++ rest) = closedRuns blank rest ∧
      openRun blank (sep ++ rest) = openRun blank rest := by
  induction sep with
  | nil => exact ⟨rfl, rfl⟩
  | cons x sep ih =>
    have here := blanks x List.mem_cons_self
    obtain ⟨closed, opened⟩ := ih (fun y member => blanks y (List.mem_cons_of_mem x member))
    have first : closedRuns blank ([] ++ x :: (sep ++ rest)) = closedRuns blank (sep ++ rest) :=
      closedRuns_cut (fun y member => absurd member List.not_mem_nil) here
    have second : openRun blank ([] ++ x :: (sep ++ rest)) = openRun blank (sep ++ rest) :=
      openRun_cut here
    exact ⟨first.trans closed, second.trans opened⟩

/-- Words, each with the blanks after it. -/
def spaced (words : List (List α × List α)) : List α := words.flatMap fun word => word.1 ++ word.2

theorem runs_spaced {words : List (List α × List α)}
    (solid : ∀ word ∈ words, word.1 ≠ [] ∧ ∀ x ∈ word.1, blank x = false)
    (blanks : ∀ word ∈ words, word.2 ≠ [] ∧ ∀ x ∈ word.2, blank x = true) :
    closedRuns blank (spaced words) = words.map Prod.fst ∧ openRun blank (spaced words) = [] := by
  induction words with
  | nil => exact ⟨rfl, rfl⟩
  | cons word words ih =>
    obtain ⟨word, sep⟩ := word
    obtain ⟨some_, plain⟩ := solid (word, sep) List.mem_cons_self
    obtain ⟨apart, gap⟩ := blanks (word, sep) List.mem_cons_self
    obtain ⟨closed, opened⟩ := ih (fun other member => solid other (List.mem_cons_of_mem _ member))
      (fun other member => blanks other (List.mem_cons_of_mem _ member))
    cases sep with
    | nil => exact absurd rfl apart
    | cons a sep =>
      obtain ⟨here, gap⟩ := List.forall_mem_cons.mp gap
      obtain ⟨closed', opened'⟩ := @runs_blanks α blank (spaced words) sep gap
      have whole : spaced ((word, a :: sep) :: words) = word ++ a :: (sep ++ spaced words) := by
        unfold spaced
        rw [List.flatMap_cons, List.append_assoc]
        rfl
      rw [whole, closedRuns_cut plain here, openRun_cut here, closed', opened', closed, if_neg some_]
      exact ⟨rfl, opened⟩

end Runs

end RandomRepo

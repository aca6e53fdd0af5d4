import Mathlib.Data.List.GetD
import Mathlib.Tactic.Linarith
import Mathlib.Tactic.Ring

/-!
# From accelerations to positions

The integration in `image_generate` of `image_gen.py`, over the rationals.  In every turn of the
loop a position and a velocity are appended.  The comment in the code states trapezoid rules
for both; the velocities are computed with `velo[i-1]` where the list already ends with
`velo[i]`, so that each of them skips the sample before.
-/

namespace RandomRepo.Trajectory

/-- The lists of one axis. -/
structure Axis where
  velo : List ℚ
  pos : List ℚ
deriving Repr, DecidableEq

/-- The lists before the loop, if there is a first sample. -/
def Axis.first (data : List ℚ) (t : ℚ) : Option Axis := do
  let d ← data[0]?
  return ⟨[0, d / 2 * t], [0]⟩

/-- `pos.append((velo[i]+velo[i-1])/2*t+pos[i-1])`. -/
def Axis.appendPos (a : Axis) (t : ℚ) (i : Nat) : Option Axis := do
  let v ← a.velo[i]?
  let u ← a.velo[i - 1]?
  let p ← a.pos[i - 1]?
  return { a with pos := a.pos ++ [(v + u) / 2 * t + p] }

/-- `velo.append((data[i]+data[i-1])/2*t+velo[i-1])`. -/
def Axis.appendVelo (a : Axis) (data : List ℚ) (t : ℚ) (i : Nat) : Option Axis := do
  let d ← data[i]?
  let c ← data[i - 1]?
  let u ← a.velo[i - 1]?
  return { a with velo := a.velo ++ [(d + c) / 2 * t + u] }

/-- One turn of the loop, for one axis. -/
def Axis.turn (data : List ℚ) (t : ℚ) (a : Axis) (i : Nat) : Option Axis := do
  let a ← a.appendPos t i
  a.appendVelo data t i

/-- The lists of one axis from its samples. -/
def integrate (data : List ℚ) (t : ℚ) : Option Axis := do
  let a ← Axis.first data t
  let a ← (List.range' 1 (data.length - 1)).foldlM (Axis.turn data t) a
  a.appendPos t data.length

/-- The lists of both axes, neither of which reads the other's.  The samples in the file are the
newest first. -/
def imageGenerate (rows : List (ℚ × ℚ)) (t : ℚ) : Option (Axis × Axis) := do
  let x ← integrate (rows.map Prod.fst).reverse t
  let y ← integrate (rows.map Prod.snd).reverse t
  return (x, y)

/-- The rules in the comment of the code, with `d[-1] = 0`. -/
structure Follows (data : List ℚ) (t : ℚ) (a : Axis) : Prop where
  veloLength : a.velo.length = data.length + 1
  posLength : a.pos.length = data.length + 1
  veloZero : a.velo.getD 0 0 = 0
  velo : ∀ k < data.length, a.velo.getD (k + 1) 0 =
    a.velo.getD k 0 + (data.getD k 0 + if k = 0 then 0 else data.getD (k - 1) 0) / 2 * t
  posZero : a.pos.getD 0 0 = 0
  pos : ∀ k < data.length, a.pos.getD (k + 1) 0 =
    a.pos.getD k 0 + (a.velo.getD (k + 1) 0 + a.velo.getD k 0) / 2 * t

/-! ## What the lists hold -/

section Lists

variable {data : List ℚ} {t : ℚ} {a : Axis} {f : Nat → ℚ} {k m n : Nat}

/-- The velocities that the code computes. -/
def velocity (data : List ℚ) (t : ℚ) : Nat → ℚ
  | 0 => 0
  | 1 => data.getD 0 0 / 2 * t
  | i + 2 => (data.getD (i + 1) 0 + data.getD i 0) / 2 * t + velocity data t i

/-- The positions that the code computes. -/
def position (data : List ℚ) (t : ℚ) : Nat → ℚ
  | 0 => 0
  | i + 1 => (velocity data t (i + 1) + velocity data t i) / 2 * t + position data t i

/-- The first values of a sequence. -/
def table (f : Nat → ℚ) (n : Nat) : List ℚ := (List.range n).map f

theorem table_getElem? (inside : k < n) : (table f n)[k]? = some (f k) := by
  unfold table
  rw [List.getElem?_map, List.getElem?_range inside]
  rfl

theorem table_getD (inside : k < n) : (table f n).getD k 0 = f k := by
  rw [List.getD_eq_getElem?_getD, table_getElem? inside]
  rfl

theorem table_succ : table f (n + 1) = table f n ++ [f n] := by
  unfold table
  rw [List.range_succ, List.map_append]
  rfl

theorem table_length : (table f n).length = n := by
  unfold table
  rw [List.length_map, List.length_range]

/-- The state of the lists when velocity `m + 1` and position `m` are the last. -/
def computed (data : List ℚ) (t : ℚ) (m : Nat) : Axis :=
  ⟨table (velocity data t) (m + 2), table (position data t) (m + 1)⟩

theorem first_computed (some_ : data ≠ []) : Axis.first data t = some (computed data t 0) := by
  cases data with
  | nil => exact absurd rfl some_
  | cons d data => rfl

theorem appendPos_table (inside : m < n) : Axis.appendPos
    ⟨table (velocity data t) (n + 1), table (position data t) (m + 1)⟩ t (m + 1) =
      some ⟨table (velocity data t) (n + 1), table (position data t) (m + 2)⟩ := by
  unfold Axis.appendPos
  dsimp only
  rw [Nat.add_sub_cancel, table_getElem? (by omega), table_getElem? (by omega),
    table_getElem? (by omega), table_succ (n := m + 1)]
  rfl

theorem turn_computed (inside : m + 1 < data.length) :
    Axis.turn data t (computed data t m) (m + 1) = some (computed data t (m + 1)) := by
  unfold Axis.turn computed
  rw [appendPos_table (Nat.lt_succ_self m)]
  show Axis.appendVelo _ data t (m + 1) = _
  unfold Axis.appendVelo
  dsimp only
  rw [Nat.add_sub_cancel, List.getElem?_eq_getElem inside,
    List.getElem?_eq_getElem (show m < data.length by omega), table_getElem? (by omega),
    table_succ (n := m + 2), velocity, List.getD_eq_getElem data 0 inside,
    List.getD_eq_getElem data 0 (show m < data.length by omega)]
  rfl

theorem loop_computed (inside : m < data.length) :
    (List.range' 1 m).foldlM (Axis.turn data t) (computed data t 0) = some (computed data t m) := by
  induction m with
  | zero => rfl
  | succ m ih =>
    rw [List.range'_1_concat, List.foldlM_append, ih (by omega), Nat.add_comm 1 m]
    show Axis.turn data t (computed data t m) (m + 1) >>= pure = _
    rw [turn_computed inside]
    rfl

/-- With at least one sample there is no index error, and the lists are the sequences. -/
theorem integrate_eq (some_ : data ≠ []) : integrate data t =
    some ⟨table (velocity data t) (data.length + 1), table (position data t) (data.length + 1)⟩ := by
  have pos := List.length_pos_iff.mpr some_
  obtain ⟨m, length⟩ : ∃ m, data.length = m + 1 := ⟨data.length - 1, by omega⟩
  unfold integrate
  rw [first_computed some_]
  show ((List.range' 1 (data.length - 1)).foldlM (Axis.turn data t) (computed data t 0) >>= _) = _
  rw [loop_computed (by omega)]
  show Axis.appendPos (computed data t (data.length - 1)) t data.length = _
  rw [length]
  exact appendPos_table (Nat.lt_succ_self m)

end Lists

/-! ## The rules -/

section Rules

variable {data : List ℚ} {t : ℚ} {k : Nat}

/-- The rule for the velocities. -/
def VelocityRule (data : List ℚ) (t : ℚ) : Prop :=
  ∀ k < data.length, velocity data t (k + 1) =
    velocity data t k + (data.getD k 0 + if k = 0 then 0 else data.getD (k - 1) 0) / 2 * t

theorem follows_iff : Follows data t ⟨table (velocity data t) (data.length + 1),
    table (position data t) (data.length + 1)⟩ ↔ VelocityRule data t := by
  constructor
  · intro follows k inside
    have rule := follows.velo k inside
    rwa [table_getD (by omega), table_getD (by omega)] at rule
  · intro rule
    refine ⟨table_length, table_length, table_getD (Nat.succ_pos _), fun k inside => ?_,
      table_getD (Nat.succ_pos _), fun k inside => ?_⟩
    · dsimp only
      rw [table_getD (by omega), table_getD (by omega)]
      exact rule k inside
    · dsimp only
      rw [table_getD (by omega), table_getD (by omega), table_getD (by omega), table_getD (by omega),
        position]
      exact add_comm _ _

/-- The samples before the last are zero, or the time between them is. -/
def Still (data : List ℚ) (t : ℚ) : Prop := t = 0 ∨ ∀ k, k + 1 < data.length → data.getD k 0 = 0

theorem velocity_still (still : Still data t) (inside : k < data.length) :
    velocity data t k = 0 := by
  induction k using velocity.induct with
  | case1 => rfl
  | case2 =>
    rw [velocity]
    rcases still with zero | zero
    · rw [zero, mul_zero]
    · rw [zero 0 inside, zero_div, zero_mul]
  | case3 i ih =>
    rw [velocity, ih (by omega), add_zero]
    rcases still with zero | zero
    · rw [zero, mul_zero]
    · rw [zero (i + 1) inside, zero i (by omega), add_zero, zero_div, zero_mul]

/-- The rule asks for velocities that do not change before the last. -/
theorem VelocityRule.constant (rule : VelocityRule data t) (inside : k + 1 < data.length) :
    velocity data t (k + 1) = velocity data t k := by
  have next := rule (k + 1) inside
  rw [if_neg (Nat.succ_ne_zero k), Nat.add_sub_cancel, velocity] at next
  linarith

theorem velocityRule_iff : VelocityRule data t ↔ Still data t := by
  constructor
  · intro rule
    by_cases zero : t = 0
    · exact Or.inl zero
    · have cancel : ∀ k, k + 1 < data.length →
          data.getD k 0 + (if k = 0 then 0 else data.getD (k - 1) 0) = 0 := by
        intro k inside
        have next := rule k (by omega)
        rw [rule.constant inside, left_eq_add] at next
        have half := (mul_eq_zero.mp next).resolve_right zero
        linarith
      refine Or.inr fun k inside => ?_
      have sum := cancel k inside
      induction k with
      | zero => rwa [if_pos rfl, add_zero] at sum
      | succ k ih =>
        have before := ih (by omega) (cancel k (by omega))
        rwa [if_neg (Nat.succ_ne_zero k), Nat.add_sub_cancel, before, add_zero] at sum
  · intro still k inside
    cases k with
    | zero => rw [if_pos rfl, velocity, velocity, add_zero, zero_add]
    | succ k =>
      rw [if_neg (Nat.succ_ne_zero k), Nat.add_sub_cancel, velocity,
        velocity_still still (by omega), velocity_still still inside, add_zero, zero_add]

/-- The lists exist for at least one sample, and they follow the rules of the comment just if the
samples of both axes are zero before the last, or the time step is. -/
theorem imageGenerate_follows_iff {rows : List (ℚ × ℚ)} (some_ : rows ≠ []) (t : ℚ) :
    ∃ x y, imageGenerate rows t = some (x, y) ∧
      (Follows (rows.map Prod.fst).reverse t x ∧ Follows (rows.map Prod.snd).reverse t y ↔
        Still (rows.map Prod.fst).reverse t ∧ Still (rows.map Prod.snd).reverse t) := by
  have first : (rows.map Prod.fst).reverse ≠ [] := by simpa using some_
  have second : (rows.map Prod.snd).reverse ≠ [] := by simpa using some_
  refine ⟨_, _, ?_, and_congr (follows_iff.trans velocityRule_iff)
    (follows_iff.trans velocityRule_iff)⟩
  unfold imageGenerate
  rw [integrate_eq first, integrate_eq second]
  rfl

/-- Three samples, of which the last is not zero. -/
theorem imageGenerate_three : ([(2, 3), (0, 0), (0, 0)] : List (ℚ × ℚ)) ≠ [] ∧ ∃ x y,
    imageGenerate [(2, 3), (0, 0), (0, 0)] (1 / 50) = some (x, y) ∧
      Follows [0, 0, 2] (1 / 50) x ∧ Follows [0, 0, 3] (1 / 50) y := by
  have some_ : ([(2, 3), (0, 0), (0, 0)] : List (ℚ × ℚ)) ≠ [] := List.cons_ne_nil _ _
  obtain ⟨x, y, run, follows⟩ := imageGenerate_follows_iff some_ (1 / 50)
  have still : ∀ last : ℚ, Still [0, 0, last] (1 / 50) := by
    refine fun last => Or.inr fun k inside => ?_
    match k, inside with
    | 0, _ => rfl
    | 1, _ => rfl
  exact ⟨some_, x, y, run, follows.mpr ⟨still 2, still 3⟩⟩

/-- Two samples of 1 in both axes: the last velocity should be 3/100. -/
theorem imageGenerate_two : ∃ x, imageGenerate [(1, 1), (1, 1)] (1 / 50) = some (x, x) ∧
    x.velo = [0, 1 / 100, 1 / 50] ∧ ¬ Follows [1, 1] (1 / 50) x := by
  refine ⟨⟨[0, 1 / 100, 1 / 50], [0, 1 / 10000, 4 / 10000]⟩, by decide +kernel, rfl, fun follows => ?_⟩
  have last := follows.velo 1 (by decide)
  norm_num at last

end Rules

end RandomRepo.Trajectory

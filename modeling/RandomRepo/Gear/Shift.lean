import Mathlib.Tactic.IntervalCases
import Mathlib.Tactic.Linarith

/-!
# Shifting gears

`CheckToShift` of `project.ino` and of `cpp/test.cpp`: a gear from 1 to 6 that follows a weight, with a
band of hysteresis.  The two programs differ in the constants and in the weight, so the
controller has the width of a gear and the width of the band as parameters.

Weights are rational numbers; the rounding of `float` is not modelled.
-/

namespace RandomRepo.Gear

variable {threshold buffer w v : ℚ} {gear n : Nat}

def shiftUp (gear : Nat) : Nat := if gear < 6 then gear + 1 else gear

def shiftDown (gear : Nat) : Nat := if gear > 1 then gear - 1 else gear

def checkToShift (threshold buffer w : ℚ) (gear : Nat) : Nat :=
  if w > gear * threshold then shiftUp gear
  else if w ≤ (gear - 1 : Nat) * threshold - buffer then shiftDown gear
  else gear

/-! ## One call -/

/-- What a call does to a gear from 1 to 6. -/
inductive Shift (threshold buffer w : ℚ) (gear : Nat) : Nat → Prop
  | up (heavy : gear * threshold < w) (below : gear < 6) : Shift threshold buffer w gear (gear + 1)
  | down (light : w ≤ (gear - 1 : Nat) * threshold - buffer) (above : 1 < gear) :
      Shift threshold buffer w gear (gear - 1)
  | stay (up : w ≤ gear * threshold ∨ gear = 6)
      (down : (gear - 1 : Nat) * threshold - buffer < w ∨ gear = 1) :
      Shift threshold buffer w gear gear

/-- A gear that is too low is not too high as well. -/
theorem band_of_heavy (wide : 0 ≤ threshold) (band : 0 ≤ buffer) (heavy : gear * threshold < w) :
    (gear - 1 : Nat) * threshold - buffer < w := by
  have lower : ((gear - 1 : Nat) : ℚ) * threshold ≤ gear * threshold :=
    mul_le_mul_of_nonneg_right (by exact_mod_cast Nat.sub_le gear 1) wide
  linarith

theorem checkToShift_shift (wide : 0 ≤ threshold) (band : 0 ≤ buffer) (low : 1 ≤ gear)
    (high : gear ≤ 6) : Shift threshold buffer w gear (checkToShift threshold buffer w gear) := by
  unfold checkToShift shiftUp shiftDown
  split_ifs with heavy below light above
  · exact .up heavy below
  · exact .stay (.inr (by omega)) (.inl (band_of_heavy wide band heavy))
  · exact .down light above
  · exact .stay (.inl (not_lt.mp heavy)) (.inr (by omega))
  · exact .stay (.inl (not_lt.mp heavy)) (.inl (not_le.mp light))

theorem Shift.range {next : Nat} (shift : Shift threshold buffer w gear next) (low : 1 ≤ gear)
    (high : gear ≤ 6) : 1 ≤ next ∧ next ≤ 6 := by
  cases shift <;> omega

/-- `check_to_shift_brute`, which has a case for each gear. -/
def checkToShiftBrute (threshold buffer w : ℚ) (gear : Nat) : Nat :=
  let down := if w ≤ (gear - 1 : Nat) * threshold - buffer then shiftDown gear else gear
  match gear with
  | 1 => if w > gear * threshold then shiftUp gear else gear
  | 2 | 3 | 4 | 5 => if w > gear * threshold then shiftUp gear else down
  | 6 => down
  | gear => gear

/-- The two tests that are left out can only shift beyond the last gear. -/
theorem checkToShiftBrute_eq (wide : 0 ≤ threshold) (band : 0 ≤ buffer) (low : 1 ≤ gear)
    (high : gear ≤ 6) :
    checkToShiftBrute threshold buffer w gear = checkToShift threshold buffer w gear := by
  unfold checkToShift
  obtain rfl | middle | rfl : gear = 1 ∨ (1 < gear ∧ gear < 6) ∨ gear = 6 := by omega
  · have first : shiftDown 1 = 1 := rfl
    simp only [checkToShiftBrute, first, ite_self]
  · obtain ⟨above, below⟩ := middle
    interval_cases gear <;> rfl
  · have last : shiftUp 6 = 6 := rfl
    by_cases heavy : w > (6 : Nat) * threshold
    · have band := band_of_heavy wide band heavy
      simp only [checkToShiftBrute, if_pos heavy, last, if_neg (not_le.mpr band)]
    · simp only [checkToShiftBrute, if_neg heavy]

/-! ## Runs -/

/-- The gear before call number `n`, for the weights of the calls. -/
def gears (threshold buffer : ℚ) (w : Nat → ℚ) : Nat → Nat
  | 0 => 1
  | n + 1 => checkToShift threshold buffer (w n) (gears threshold buffer w n)

section Runs

variable (ws : Nat → ℚ)

theorem gears_range (wide : 0 ≤ threshold) (band : 0 ≤ buffer) (n : Nat) :
    1 ≤ gears threshold buffer ws n ∧ gears threshold buffer ws n ≤ 6 := by
  induction n with
  | zero => exact ⟨Nat.le_refl 1, (by decide : 1 ≤ 6)⟩
  | succ n ih => exact (checkToShift_shift wide band ih.1 ih.2).range ih.1 ih.2

/-- The gear before call number `n` when `check_to_shift_brute` is called. -/
def gearsBrute (threshold buffer : ℚ) (w : Nat → ℚ) : Nat → Nat
  | 0 => 1
  | n + 1 => checkToShiftBrute threshold buffer (w n) (gearsBrute threshold buffer w n)

/-- The two controllers go through the same gears. -/
theorem gearsBrute_eq (wide : 0 ≤ threshold) (band : 0 ≤ buffer) (n : Nat) :
    gearsBrute threshold buffer ws n = gears threshold buffer ws n := by
  induction n with
  | zero => rfl
  | succ n ih =>
    obtain ⟨low, high⟩ := gears_range ws wide band n
    rw [gearsBrute, ih, checkToShiftBrute_eq wide band low high, gears]

/-- In the last gear, which a heavy load reaches in five calls. -/
theorem gearsBrute_eq_last : gears 10 2 (fun _ => 70) 6 = 6 ∧
    gearsBrute 10 2 (fun _ => 70) 6 = gears 10 2 (fun _ => 70) 6 :=
  ⟨by decide +kernel, gearsBrute_eq _ (by decide) (by decide) 6⟩

theorem gears_shift (wide : 0 ≤ threshold) (band : 0 ≤ buffer) (n : Nat) :
    Shift threshold buffer (ws n) (gears threshold buffer ws n) (gears threshold buffer ws (n + 1)) :=
  have range := gears_range ws wide band n
  checkToShift_shift wide band range.1 range.2

/-- Without a shift in between, the gear is the one after the first shift. -/
theorem gears_steady {m : Nat} (later : m < n)
    (steady : ∀ k, m < k → k < n → gears threshold buffer ws (k + 1) = gears threshold buffer ws k) :
    gears threshold buffer ws n = gears threshold buffer ws (m + 1) := by
  induction n, later using Nat.le_induction with
  | base => rfl
  | succ n later ih =>
    refine (steady n later (Nat.lt_succ_self n)).trans (ih fun k above below => ?_)
    exact steady k above (Nat.lt_succ_of_lt below)

/-- The weights of a shift and of the next one, in the other direction, are further apart than
the band. -/
theorem gears_apart (wide : 0 ≤ threshold) (band : 0 ≤ buffer) {m : Nat} (later : m < n)
    (steady : ∀ k, m < k → k < n → gears threshold buffer ws (k + 1) = gears threshold buffer ws k)
    (opposite : gears threshold buffer ws m < gears threshold buffer ws (m + 1) ∧
        gears threshold buffer ws (n + 1) < gears threshold buffer ws n ∨
      gears threshold buffer ws (m + 1) < gears threshold buffer ws m ∧
        gears threshold buffer ws n < gears threshold buffer ws (n + 1)) :
    buffer < |ws m - ws n| := by
  have between := gears_steady ws later steady
  have first := gears_shift ws wide band m
  have second := gears_shift ws wide band n
  generalize gears threshold buffer ws (m + 1) = after at *
  generalize gears threshold buffer ws (n + 1) = last at *
  rw [between] at second opposite
  rcases opposite with ⟨up, down⟩ | ⟨down, up⟩
  · cases first with
    | up heavy _ =>
      cases second with
      | down light _ =>
        rw [Nat.add_sub_cancel] at light
        exact lt_of_lt_of_le (by linarith) (le_abs_self _)
      | up => omega
      | stay => omega
    | down => omega
    | stay => omega
  · cases first with
    | down light _ =>
      cases second with
      | up heavy _ => exact lt_of_lt_of_le (by linarith) (neg_le_abs _)
      | down => omega
      | stay => omega
    | up => omega
    | stay => omega

end Runs

/-! ## A constant weight -/

/-- The gear that a weight keeps. -/
def Settled (threshold buffer w : ℚ) (gear : Nat) : Prop :=
  (gear = 6 ∨ w ≤ gear * threshold) ∧ (gear = 1 ∨ (gear - 1 : Nat) * threshold - buffer < w)

theorem Settled.stays (settled : Settled threshold buffer w gear) :
    checkToShift threshold buffer w gear = gear := by
  obtain ⟨up, down⟩ := settled
  unfold checkToShift shiftUp shiftDown
  split_ifs with heavy below light above
  · rcases up with rfl | light
    · exact absurd below (Nat.lt_irrefl 6)
    · exact absurd heavy (not_lt.mpr light)
  · rfl
  · rcases down with rfl | heavy
    · exact absurd above (Nat.lt_irrefl 1)
    · exact absurd light (not_le.mpr heavy)
  · rfl
  · rfl

theorem Settled.iterate (settled : Settled threshold buffer w gear) (k : Nat) :
    (checkToShift threshold buffer w)^[k] gear = gear :=
  Function.iterate_fixed settled.stays k

/-- A gear that is not too high is settled after shifts up only. -/
theorem settles_up (band : 0 ≤ buffer) (low : 1 ≤ gear) (high : gear ≤ 6)
    (down : gear = 1 ∨ (gear - 1 : Nat) * threshold - buffer < w) {k : Nat} (enough : 6 - gear ≤ k) :
    Settled threshold buffer w ((checkToShift threshold buffer w)^[k] gear) := by
  induction k generalizing gear with
  | zero =>
    rw [Function.iterate_zero_apply]
    exact ⟨.inl (by omega), down⟩
  | succ k ih =>
    by_cases up : gear = 6 ∨ w ≤ gear * threshold
    · have settled : Settled threshold buffer w gear := ⟨up, down⟩
      rwa [settled.iterate]
    · rw [not_or, not_le] at up
      have next : checkToShift threshold buffer w gear = gear + 1 := by
        rw [checkToShift, if_pos up.2, shiftUp, if_pos (by omega)]
      rw [Function.iterate_succ_apply, next]
      refine ih (by omega) (by omega) (.inr ?_) (by omega)
      rw [Nat.add_sub_cancel]
      linarith [up.2]

/-- A gear that is not too low is settled after shifts down only. -/
theorem settles_down (band : 0 ≤ buffer) (low : 1 ≤ gear) (high : gear ≤ 6)
    (up : gear = 6 ∨ w ≤ gear * threshold) {k : Nat} (enough : gear - 1 ≤ k)
    (wide : 0 ≤ threshold) :
    Settled threshold buffer w ((checkToShift threshold buffer w)^[k] gear) := by
  induction k generalizing gear with
  | zero =>
    rw [Function.iterate_zero_apply]
    exact ⟨up, .inl (by omega)⟩
  | succ k ih =>
    by_cases down : gear = 1 ∨ (gear - 1 : Nat) * threshold - buffer < w
    · have settled : Settled threshold buffer w gear := ⟨up, down⟩
      rwa [settled.iterate]
    · rw [not_or, not_lt] at down
      have light : ¬ w > gear * threshold := fun heavy =>
        absurd (band_of_heavy wide band heavy) (not_lt.mpr down.2)
      have next : checkToShift threshold buffer w gear = gear - 1 := by
        rw [checkToShift, if_neg light, if_pos down.2, shiftDown, if_pos (by omega)]
      rw [Function.iterate_succ_apply, next]
      exact ih (by omega) (by omega) (.inr (by linarith [down.2])) (by omega)

/-- Five calls are enough for every weight. -/
theorem settles (wide : 0 ≤ threshold) (band : 0 ≤ buffer) (low : 1 ≤ gear) (high : gear ≤ 6) :
    Settled threshold buffer w ((checkToShift threshold buffer w)^[5] gear) := by
  by_cases heavy : gear * threshold < w
  · exact settles_up band low high (.inr (band_of_heavy wide band heavy)) (by omega)
  · exact settles_down band low high (.inr (not_lt.mp heavy)) (by omega) wide

theorem gears_constant (ws : Nat → ℚ) (k : Nat)
    (constant : ∀ j, n ≤ j → j < n + k → ws j = w) :
    gears threshold buffer ws (n + k) =
      (checkToShift threshold buffer w)^[k] (gears threshold buffer ws n) := by
  induction k with
  | zero => rfl
  | succ k ih =>
    have before := ih fun j above below => constant j above (Nat.lt_succ_of_lt below)
    rw [Function.iterate_succ_apply', ← before, ← constant (n + k) (Nat.le_add_right n k)
      (Nat.lt_succ_self _)]
    rfl

theorem gears_settled (ws : Nat → ℚ) (wide : 0 ≤ threshold) (band : 0 ≤ buffer) (n k : Nat)
    (constant : ∀ j, n ≤ j → j < n + 5 + k → ws j = w) :
    gears threshold buffer ws (n + 5 + k) = gears threshold buffer ws (n + 5) ∧
      Settled threshold buffer w (gears threshold buffer ws (n + 5)) := by
  have range := gears_range ws wide band n
  have settled := settles (w := w) wide band range.1 range.2
  rw [← gears_constant ws 5 fun j above below => constant j above (by omega)] at settled
  refine ⟨?_, settled⟩
  rw [gears_constant ws k fun j above below => constant j (by omega) below]
  exact settled.iterate k

/-! ## The shifter -/

/-- The weight of `project.ino`. -/
def weight (spdAvg slope : ℚ) : ℚ := spdAvg / (8 / 100) - slope / 10

/-- `Threshold` and `Buffer` of `project.ino`. -/
def bikeThreshold : ℚ := 1

def bikeBuffer : ℚ := 3

/-- The gear before call number `n`, for the speeds and slopes of the calls. -/
def bikeGears (input : Nat → ℚ × ℚ) : Nat → Nat :=
  gears bikeThreshold bikeBuffer fun n => weight (input n).1 (input n).2

/-- What is written to the servo. -/
def servoAngle (gear : Nat) : Int := 180 - gear * (150 / 6)

/-- **No hunting.**  For every sequence of speeds and slopes the gear stays from 1 to 6; the
weights of two successive shifts in opposite directions are further apart than the band; and if the
weight is constant from call `n` on, the gear after five calls is one that the weight keeps. -/
theorem gear_does_not_hunt (input : Nat → ℚ × ℚ) :
    (∀ n, 1 ≤ bikeGears input n ∧ bikeGears input n ≤ 6 ∧
      30 ≤ servoAngle (bikeGears input n) ∧ servoAngle (bikeGears input n) ≤ 155) ∧
    (∀ m n, m < n → (∀ k, m < k → k < n → bikeGears input (k + 1) = bikeGears input k) →
      (bikeGears input m < bikeGears input (m + 1) ∧ bikeGears input (n + 1) < bikeGears input n ∨
        bikeGears input (m + 1) < bikeGears input m ∧
          bikeGears input n < bikeGears input (n + 1)) →
      bikeBuffer < |weight (input m).1 (input m).2 - weight (input n).1 (input n).2|) ∧
    ∀ n k w, (∀ j, n ≤ j → j < n + 5 + k → weight (input j).1 (input j).2 = w) →
      bikeGears input (n + 5 + k) = bikeGears input (n + 5) ∧
        Settled bikeThreshold bikeBuffer w (bikeGears input (n + 5)) := by
  have wide : 0 ≤ bikeThreshold := by norm_num [bikeThreshold]
  have band : 0 ≤ bikeBuffer := by norm_num [bikeBuffer]
  refine ⟨fun n => ?_, fun m n later steady opposite => ?_, fun n k w constant => ?_⟩
  · have range : 1 ≤ bikeGears input n ∧ bikeGears input n ≤ 6 := gears_range _ wide band n
    unfold servoAngle
    omega
  · exact gears_apart (fun n => weight (input n).1 (input n).2) wide band later steady opposite
  · exact gears_settled (fun n => weight (input n).1 (input n).2) wide band n k constant

/-- Speed on the flat, and then a steep hill. -/
def hill : Nat → ℚ × ℚ
  | 0 => (16 / 100, 0)
  | _ => (0, 40)

theorem gear_does_not_hunt_hill :
    bikeGears hill 0 < bikeGears hill 1 ∧ bikeGears hill 2 < bikeGears hill 1 ∧
      bikeBuffer < |weight (hill 0).1 (hill 0).2 - weight (hill 1).1 (hill 1).2| := by
  have up : bikeGears hill 0 < bikeGears hill 1 := by decide +kernel
  have down : bikeGears hill 2 < bikeGears hill 1 := by decide +kernel
  refine ⟨up, down, (gear_does_not_hunt hill).2.1 0 1 (by decide) (fun k above below => ?_) ?_⟩
  · omega
  · exact .inl ⟨up, down⟩

end RandomRepo.Gear

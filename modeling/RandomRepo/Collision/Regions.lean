import Mathlib.Algebra.BigOperators.Field
import Mathlib.Algebra.Order.BigOperators.Group.Finset
import Mathlib.Tactic.Linarith

/-!
# Tracks by their azimuthal distance from the leading track

The macros `N_vs_pT_*` and `SumpT_vs_pT_*` look, event by event, for the track with the largest `pT`
and count, or sum up, the tracks in one region of azimuthal distances from it.  Each macro
has a loop of its own with a cut of its own.  Angles and momenta are exact rationals,
and `PI` is the literal of the macros; `abs` is the one for `double`.

The forward region of `N_vs_pT_Forward_020` is cut off at `PI`, where the other forward macros have
`PI/3`, so it contains the transverse region and nearly all of the backward region.
-/

namespace RandomRepo.Collision

/-- `PI`. -/
def pi : ℚ := 314159265358979 / 100000000000000

/-- An entry of the tree.  The arrays have room for more tracks than the event has. -/
structure Event (maxTrack : Nat) where
  ntrack : Nat
  few : ntrack ≤ maxTrack
  pT : Nat → ℚ
  eta : Nat → ℚ
  phi : Nat → ℚ
  range : ∀ j, j < ntrack → 0 ≤ phi j ∧ phi j ≤ 2 * pi

/-- The loop of `findmaxindex`, with `maxvalue` and `maxindex`. -/
def findmaxLoop (arr : Nat → ℚ) : List Nat → ℚ × Nat → ℚ × Nat
  | [], best => best
  | i :: is, (maxvalue, maxindex) =>
    findmaxLoop arr is (if arr i > maxvalue then (arr i, i) else (maxvalue, maxindex))

def findmaxindex (arr : Nat → ℚ) (length : Nat) : Nat :=
  (findmaxLoop arr (List.range' 1 (length - 1)) (arr 0, 0)).2

def diffangle (phi1 phi2 : ℚ) : ℚ :=
  let diffphi := |phi1 - phi2|
  if diffphi > pi then 2 * pi - diffphi else diffphi

/-! ## The macros -/

section Macros

variable {maxTrack : Nat}

/-- `delphi[j]`. -/
def delphi (e : Event maxTrack) (j : Nat) : ℚ :=
  diffangle (e.phi j) (e.phi (findmaxindex e.pT e.ntrack))

/-- The test on a track: a cut on `delphi`, and then the same one on `eta` everywhere. -/
def Counts (cut : ℚ → Bool) (e : Event maxTrack) (j : Nat) : Prop :=
  cut (delphi e j) = true ∧ e.eta j > -5 / 2 ∧ e.eta j < 5 / 2

instance (cut : ℚ → Bool) (e : Event maxTrack) : DecidablePred (Counts cut e) :=
  fun _ => inferInstanceAs (Decidable (_ ∧ _))

/-- The loop over the first tracks, which adds something for each one that passes the test. -/
def trackLoop (cut : ℚ → Bool) (amount : Nat → ℚ) (e : Event maxTrack) : Nat → ℚ
  | 0 => 0
  | j + 1 =>
    let sum := trackLoop cut amount e j
    if Counts cut e j then sum + amount j else sum

/-- A macro: its cut, and what it adds up. -/
structure Macro (maxTrack : Nat) where
  cut : ℚ → Bool
  amount : Event maxTrack → Nat → ℚ

/-- `n_forward`, `n_transverse`, `n_backward` or `sum_pT` after the loop. -/
def Macro.total (M : Macro maxTrack) (e : Event maxTrack) : ℚ :=
  trackLoop M.cut (M.amount e) e e.ntrack

/-- A macro that counts tracks. -/
def number (cut : ℚ → Bool) : Macro maxTrack := ⟨cut, fun _ _ => 1⟩

/-- A macro that adds up their `pT`. -/
def sumPT (cut : ℚ → Bool) : Macro maxTrack := ⟨cut, fun e => e.pT⟩

def belowPi (d : ℚ) : Bool := d < pi

def belowThird (d : ℚ) : Bool := d < pi / 3

def middleThird (d : ℚ) : Bool := d < 2 * pi / 3 ∧ d > pi / 3

def aboveThirds (d : ℚ) : Bool := d > 2 * pi / 3

def nVsPTForward020 : Macro 20 := number belowPi

def nVsPTTransverse020 : Macro 20 := number middleThird

def nVsPTBackward020 : Macro 20 := number aboveThirds

def sumpTVsPTForward020 : Macro 20 := sumPT belowThird

def nVsPTForward2040 : Macro 40 := number belowThird

def nVsPTTransverse2040 : Macro 40 := number middleThird

def nVsPTBackward2040 : Macro 40 := number aboveThirds

def sumpTVsPTForward2040 : Macro 40 := sumPT belowThird

end Macros

/-! ## Regions -/

section Regions

variable {maxTrack : Nat} {e : Event maxTrack} {cut first second third : ℚ → Bool}
  {j : Nat}

/-- The number of tracks with `|eta| < 2.5`. -/
def accepted (e : Event maxTrack) : Nat :=
  ((Finset.range e.ntrack).filter fun j => |e.eta j| < 5 / 2).card

/-- No track is counted by two of three macros. -/
def CountedOnce (first second third : ℚ → Bool) (e : Event maxTrack) : Prop :=
  ∀ j, j < e.ntrack → ¬ (Counts first e j ∧ Counts second e j) ∧
    ¬ (Counts first e j ∧ Counts third e j) ∧ ¬ (Counts second e j ∧ Counts third e j)

/-- No track is counted twice, the tracks in the forward region are those whose `pT` is summed there,
and there are no more in all than are accepted. -/
structure RegionsApart (forward transverse backward summed : Macro maxTrack)
    (e : Event maxTrack) : Prop where
  once : CountedOnce forward.cut transverse.cut backward.cut e
  summed : ∀ j, j < e.ntrack → (Counts forward.cut e j ↔ Counts summed.cut e j)
  total : forward.total e + transverse.total e + backward.total e ≤ accepted e

theorem trackLoop_eq (amount : Nat → ℚ) (n : Nat) : trackLoop cut amount e n =
    ∑ j ∈ Finset.range n, if Counts cut e j then amount j else 0 := by
  induction n with
  | zero => rfl
  | succ n ih =>
    rw [trackLoop, Finset.sum_range_succ, ← ih]
    split_ifs
    · rfl
    · rw [add_zero]

theorem Counts.eta (counts : Counts cut e j) : |e.eta j| < 5 / 2 := by
  rw [abs_lt]
  exact ⟨by linarith [counts.2.1], counts.2.2⟩

/-- If no track is counted twice, there are no more than are accepted. -/
theorem total_le (once : CountedOnce first second third e) :
    (number first).total e + (number second).total e + (number third).total e ≤ accepted e := by
  have all : (accepted e : ℚ) =
      ∑ j ∈ Finset.range e.ntrack, if |e.eta j| < 5 / 2 then (1 : ℚ) else 0 := by
    rw [accepted, Finset.card_filter, Nat.cast_sum]
    simp only [Nat.cast_ite, Nat.cast_one, Nat.cast_zero]
  unfold Macro.total number
  rw [trackLoop_eq, trackLoop_eq, trackLoop_eq, all, ← Finset.sum_add_distrib,
    ← Finset.sum_add_distrib]
  refine Finset.sum_le_sum fun j member => ?_
  obtain ⟨one, two, three⟩ := once j (Finset.mem_range.mp member)
  by_cases inFirst : Counts first e j
  · rw [if_pos inFirst, if_neg (fun other => one ⟨inFirst, other⟩),
      if_neg (fun other => two ⟨inFirst, other⟩), if_pos inFirst.eta]
    norm_num
  · rw [if_neg inFirst]
    by_cases inSecond : Counts second e j
    · rw [if_pos inSecond, if_neg (fun other => three ⟨inSecond, other⟩), if_pos inSecond.eta]
      norm_num
    · rw [if_neg inSecond]
      by_cases inThird : Counts third e j
      · rw [if_pos inThird, if_pos inThird.eta]
        norm_num
      · rw [if_neg inThird]
        split_ifs
        · norm_num
        · norm_num

theorem pi_pos : 0 < pi := by
  unfold pi
  norm_num

theorem delphi_le (e : Event maxTrack) (j : Nat) : delphi e j ≤ pi := by
  unfold delphi diffangle
  dsimp only
  split_ifs with folded
  · linarith
  · exact not_lt.mp folded

theorem counts_iff : Counts cut e j ↔ cut (delphi e j) = true ∧ |e.eta j| < 5 / 2 := by
  refine ⟨fun counts => ⟨counts.1, counts.eta⟩, fun ⟨inside, near⟩ => ?_⟩
  obtain ⟨low, high⟩ := abs_lt.mp near
  exact ⟨inside, by linarith, high⟩

theorem counts_middle (counts : Counts middleThird e j) :
    delphi e j < 2 * pi / 3 ∧ delphi e j > pi / 3 := of_decide_eq_true counts.1

theorem counts_above (counts : Counts aboveThirds e j) : delphi e j > 2 * pi / 3 :=
  of_decide_eq_true counts.1

/-- The cuts of the other macros, where the forward region ends at a third of a half turn. -/
theorem countedOnce_third (e : Event maxTrack) :
    CountedOnce belowThird middleThird aboveThirds e := by
  have positive := pi_pos
  intro j _
  refine ⟨fun ⟨first, second⟩ => ?_, fun ⟨first, second⟩ => ?_, fun ⟨first, second⟩ => ?_⟩
  · have below : delphi e j < pi / 3 := of_decide_eq_true first.1
    linarith [(counts_middle second).2]
  · have below : delphi e j < pi / 3 := of_decide_eq_true first.1
    linarith [counts_above second]
  · linarith [(counts_middle first).1, counts_above second]

/-- The macros of the next multiplicity class. -/
theorem regionsApart_2040 (e : Event 40) : RegionsApart nVsPTForward2040 nVsPTTransverse2040
    nVsPTBackward2040 sumpTVsPTForward2040 e :=
  ⟨countedOnce_third e, fun _ _ => Iff.rfl, total_le (countedOnce_third e)⟩

/-- With the cut of `N_vs_pT_Forward_020` the regions are apart just if every accepted track is in the
true forward region, or exactly opposite to the leading track. -/
theorem regionsApart_iff (e : Event 20) : RegionsApart nVsPTForward020 nVsPTTransverse020
    nVsPTBackward020 sumpTVsPTForward020 e ↔
      ∀ j, j < e.ntrack → |e.eta j| < 5 / 2 → delphi e j < pi / 3 ∨ delphi e j = pi := by
  have positive := pi_pos
  constructor
  · intro apart j inside near
    by_contra neither
    obtain ⟨far, other⟩ := not_or.mp neither
    have below : delphi e j < pi := lt_of_le_of_ne (delphi_le e j) other
    have counts : Counts belowPi e j := counts_iff.mpr ⟨decide_eq_true below, near⟩
    exact far (of_decide_eq_true ((apart.summed j inside).mp counts).1)
  · intro near
    have summed : ∀ j, j < e.ntrack → (Counts belowPi e j ↔ Counts belowThird e j) := by
      intro j inside
      rw [counts_iff, counts_iff]
      refine and_congr_left fun accepted => ?_
      rw [belowPi, belowThird, decide_eq_true_iff, decide_eq_true_iff]
      rcases near j inside accepted with close | opposite
      · exact iff_of_true (by linarith) close
      · exact iff_of_false (by linarith) (by linarith)
    have once : CountedOnce belowPi middleThird aboveThirds e := by
      intro j inside
      rw [summed j inside]
      exact countedOnce_third e j inside
    exact ⟨once, summed, total_le once⟩

/-- Two tracks, the second one 2 radians away from the leading one. -/
def twoTracks : Event 20 where
  ntrack := 2
  few := by decide
  pT j := if j = 0 then 2 else 1
  eta _ := 0
  phi j := if j = 0 then 0 else 2
  range j _ := by
    unfold pi
    split_ifs
    · norm_num
    · norm_num

/-- The second track is counted as forward and as transverse. -/
theorem transverse_counted_forward : Counts nVsPTForward020.cut twoTracks 1 ∧
    Counts nVsPTTransverse020.cut twoTracks 1 ∧ ¬ Counts sumpTVsPTForward020.cut twoTracks 1 ∧
    nVsPTForward020.total twoTracks + nVsPTTransverse020.total twoTracks = 3 ∧
    ¬ RegionsApart nVsPTForward020 nVsPTTransverse020 nVsPTBackward020 sumpTVsPTForward020
      twoTracks := by
  have forward : Counts belowPi twoTracks 1 := by decide +kernel
  have middle : Counts middleThird twoTracks 1 := by decide +kernel
  refine ⟨forward, middle, by decide +kernel, by decide +kernel, fun apart => ?_⟩
  exact (apart.once 1 (by decide)).1 ⟨forward, middle⟩

end Regions

end RandomRepo.Collision

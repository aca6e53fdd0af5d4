import Mathlib.Algebra.BigOperators.Field
import Mathlib.Algebra.BigOperators.Fin
import Mathlib.Tactic.NormNum

/-!
# The histogram of an image

The loops of `hyperspectral_equalization.m` that count the pixels of an image in 256 bins.  The
intensities are enumerated from 1 on where they begin with 0, so that an intensity that is a multiple
of 256 is counted in the bin below its own, and 0 in none.  The counters are `uint16` and
stay at 65535.
-/

namespace RandomRepo.Hyperspectral

/-- An image of `1280 x 307` intensities. -/
abbrev Image : Type := Fin 1280 → Fin 307 → UInt16

def numPixels : Nat := 1280 * 307

/-- The sum over all pixels, column by column. -/
def pixelSum (img : Image) (f : UInt16 → Nat) : Nat := ∑ y, ∑ x, f (img x y)

/-- `sum(sum(avgimgdata == v))`. -/
def count (img : Image) (v : Nat) : Nat := pixelSum img fun u => if u.toNat = v then 1 else 0

/-- The sum of a `uint16` and a whole number. -/
def satAdd (a : UInt16) (n : Nat) : UInt16 := UInt16.ofNat (min (a.toNat + n) 65535)

/-- `arr_hist(i)` after the loops. -/
def arrHist (img : Image) (i : Nat) : UInt16 :=
  (List.range' 1 256).foldl (fun h j => satAdd h (count img ((i - 1) * 256 + j))) 0

/-- `arr_pdf(i)`, as a rational number. -/
def arrPdf (img : Image) (i : Nat) : ℚ := (arrHist img i).toNat / numPixels

/-- The number of pixels with an intensity from `low` to `high`. -/
def between (img : Image) (low high : Nat) : Nat :=
  pixelSum img fun u => if low ≤ u.toNat ∧ u.toNat ≤ high then 1 else 0

/-- The bins hold the pixels of their intensities, and together all of them. -/
structure CountsAll (img : Image) : Prop where
  bins : ∀ i, 1 ≤ i → i ≤ 256 → (arrHist img i).toNat = between img ((i - 1) * 256) (i * 256 - 1)
  total : ∑ i ∈ Finset.Icc 1 256, (arrHist img i).toNat = numPixels
  pdf : ∑ i ∈ Finset.Icc 1 256, arrPdf img i = 1

/-! ## Sums over the pixels -/

section Sums

variable {img : Image} {f g : UInt16 → Nat} {i low n : Nat}

theorem pixelSum_sum {ι : Type} (s : Finset ι) (f : ι → UInt16 → Nat) :
    ∑ j ∈ s, pixelSum img (f j) = pixelSum img fun u => ∑ j ∈ s, f j u := by
  unfold pixelSum
  rw [Finset.sum_comm]
  refine Finset.sum_congr rfl fun y _ => ?_
  rw [Finset.sum_comm]

theorem pixelSum_congr (same : ∀ u, f u = g u) : pixelSum img f = pixelSum img g := by
  rw [funext same]

theorem pixelSum_one : pixelSum img (fun _ => 1) = numPixels := by
  unfold pixelSum numPixels
  simp

/-- A sum is zero just if no pixel adds to it. -/
theorem count_eq_zero_iff {v : Nat} : count img v = 0 ↔ ∀ x y, (img x y).toNat ≠ v := by
  unfold count pixelSum
  simp only [Finset.sum_eq_zero_iff, Finset.mem_univ, true_implies]
  constructor
  · intro none_ x y here
    have := none_ y x
    rw [if_pos here] at this
    cases this
  · intro none_ y x
    exact if_neg (none_ x y)

/-- The pixels of a range, by their intensities. -/
theorem between_eq {high : Nat} (width : high + 1 = low + n) :
    between img low high = ∑ j ∈ Finset.range n, count img (low + j) := by
  unfold between count
  rw [pixelSum_sum]
  refine pixelSum_congr fun u => ?_
  split_ifs with inside
  · rw [Finset.sum_eq_single (u.toNat - low) (fun j _ other => if_neg (by omega))
      (fun out => absurd (Finset.mem_range.mpr (by omega)) out), if_pos (by omega)]
  · refine (Finset.sum_eq_zero fun j member => if_neg ?_).symm
    have := Finset.mem_range.mp member
    omega

/-- Every pixel is in one bin. -/
theorem between_total :
    ∑ i ∈ Finset.Icc 1 256, between img ((i - 1) * 256) (i * 256 - 1) = numPixels := by
  unfold between
  rw [pixelSum_sum, ← @pixelSum_one img]
  refine pixelSum_congr fun u => ?_
  have limit := u.toNat_lt
  rw [Finset.sum_eq_single (u.toNat / 256 + 1) (fun i member other => if_neg (by
      have := Finset.mem_Icc.mp member
      omega)) (fun out => absurd (Finset.mem_Icc.mpr (by omega)) out), if_pos (by omega)]

end Sums

/-! ## The counters -/

section Counters

variable {img : Image} {i : Nat}

theorem satAdd_toNat (a : UInt16) (n : Nat) : (satAdd a n).toNat = min (a.toNat + n) 65535 := by
  unfold satAdd
  exact UInt16.toNat_ofNat_of_lt' (by unfold UInt16.size; omega)

/-- A saturating sum is the smaller of the sum and the largest number. -/
theorem foldl_satAdd (f : Nat → Nat) (n : Nat) :
    ((List.range' 1 n).foldl (fun h j => satAdd h (f j)) 0).toNat =
      min (∑ j ∈ Finset.range n, f (j + 1)) 65535 := by
  induction n with
  | zero => rfl
  | succ n ih =>
    rw [List.range'_1_concat, List.foldl_append, List.foldl_cons, List.foldl_nil, satAdd_toNat, ih,
      Finset.sum_range_succ, Nat.add_comm 1 n]
    omega

theorem sum_range_shift (f : Nat → Nat) (n : Nat) :
    ∑ j ∈ Finset.range n, f (j + 1) + f 0 = ∑ j ∈ Finset.range n, f j + f n := by
  rw [← Finset.sum_range_succ', Finset.sum_range_succ]

/-- The pixels that are counted in a bin before the counter stops. -/
def counted (img : Image) (i : Nat) : Nat :=
  ∑ j ∈ Finset.range 256, count img ((i - 1) * 256 + (j + 1))

theorem arrHist_toNat : (arrHist img i).toNat = min (counted img i) 65535 :=
  foldl_satAdd (fun j => count img ((i - 1) * 256 + j)) 256

/-- A bin has the multiple of 256 above its range for the one at the beginning. -/
theorem counted_shift (positive : 1 ≤ i) : counted img i + count img ((i - 1) * 256) =
    between img ((i - 1) * 256) (i * 256 - 1) + count img (i * 256) := by
  have top : i * 256 = (i - 1) * 256 + 256 := by omega
  have shift := sum_range_shift (fun j => count img ((i - 1) * 256 + j)) 256
  simp only [Nat.add_zero] at shift
  rw [between_eq (show i * 256 - 1 + 1 = (i - 1) * 256 + 256 by omega), top]
  exact shift

theorem count_top : count img (256 * 256) = 0 :=
  count_eq_zero_iff.mpr fun x y => by
    have limit := (img x y).toNat_lt
    omega

/-- If all bins are right, there are not more pixels at a multiple of 256 than at the next. -/
theorem CountsAll.multiples (right : CountsAll img) {m : Nat} (inside : m ≤ 256) :
    count img (m * 256) = 0 := by
  induction left : 256 - m generalizing m with
  | zero =>
    rw [show m = 256 by omega]
    exact count_top
  | succ left ih =>
    have next := ih (m := m + 1) (by omega) (by omega)
    have shift := @counted_shift img (m + 1) (by omega)
    have bin := right.bins (m + 1) (by omega) (by omega)
    have rest : ∀ counted below above : Nat, min counted 65535 = below →
        counted + above = below + 0 → above = 0 := by omega
    rw [arrHist_toNat, Nat.add_sub_cancel] at bin
    rw [next, Nat.add_sub_cancel] at shift
    exact rest _ _ _ bin shift

/-- The histogram is right just if no intensity is a multiple of 256 and the counters are large
enough. -/
theorem countsAll_iff (img : Image) : CountsAll img ↔ (∀ x y, ¬ 256 ∣ (img x y).toNat) ∧
    ∀ i, 1 ≤ i → i ≤ 256 → between img ((i - 1) * 256) (i * 256 - 1) ≤ 65535 := by
  constructor
  · intro right
    refine ⟨fun x y ⟨m, multiple⟩ => ?_, fun i positive inside => ?_⟩
    · have limit := (img x y).toNat_lt
      have none_ := right.multiples (show m ≤ 256 by omega)
      exact count_eq_zero_iff.mp none_ x y (by omega)
    · rw [← right.bins i positive inside, arrHist_toNat]
      exact Nat.min_le_right _ _
  · rintro ⟨apart, small⟩
    have none_ : ∀ m, count img (m * 256) = 0 := fun m =>
      count_eq_zero_iff.mpr fun x y here => apart x y ⟨m, by omega⟩
    have bins : ∀ i, 1 ≤ i → i ≤ 256 →
        (arrHist img i).toNat = between img ((i - 1) * 256) (i * 256 - 1) := by
      intro i positive inside
      have shift := @counted_shift img i positive
      have limit := small i positive inside
      rw [none_, none_] at shift
      rw [arrHist_toNat]
      omega
    have total : ∑ i ∈ Finset.Icc 1 256, (arrHist img i).toNat = numPixels := by
      rw [← @between_total img]
      refine Finset.sum_congr rfl fun i member => ?_
      obtain ⟨positive, inside⟩ := Finset.mem_Icc.mp member
      exact bins i positive inside
    refine ⟨bins, total, ?_⟩
    unfold arrPdf
    rw [← Finset.sum_div, ← Nat.cast_sum, total]
    exact div_self (by unfold numPixels; norm_num)

def black : Image := fun _ _ => 0

/-- No pixel of a black image is counted. -/
theorem black_not_counted : (∀ i, arrHist black i = 0) ∧ between black 0 255 = numPixels ∧
    ¬ CountsAll black := by
  have none_ : ∀ i, counted black i = 0 := fun i =>
    Finset.sum_eq_zero fun j _ => count_eq_zero_iff.mpr fun x y => by
      show 0 ≠ _
      omega
  have all : between black 0 255 = numPixels := @pixelSum_one black
  refine ⟨fun i => ?_, all, fun right => ?_⟩
  · apply UInt16.toNat_inj.mp
    rw [arrHist_toNat, none_]
    rfl
  · have first := right.bins 1 (by decide) (by decide)
    rw [arrHist_toNat, none_] at first
    exact absurd (first.trans all) (by decide)

end Counters

end RandomRepo.Hyperspectral

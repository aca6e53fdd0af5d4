import RandomRepo.Hyperspectral.Clusters

/-!
# The iteration of `K_means_clustering.m`

Each of the iterations replaces the centroids by the means of their clusters.  A cluster without
pixels has the mean 0/0, which is no number; the model stops there (`none`), and what the
search does with such centroids is not followed.

The random starting positions may repeat, and the later one of two equal centroids is never
chosen.  With different positions every cluster has a pixel in the first iteration, the one
where it starts.  After that the centroids are wherever the means happen to be; they keep
their pixels as long as they are apart and close to the pixels that they are on.
-/

namespace RandomRepo.Hyperspectral

/-- `k`, `threshold` and `num_iterations`. -/
def kMeansK : Nat := 10

def kMeansThreshold : ℚ := 30000

def numIterations : Nat := 5

/-- The positions that are drawn, one for each centroid. -/
structure Positions where
  at_ : Nat → Nat × Nat
  inside : ∀ l, 1 ≤ l → l ≤ kMeansK → at_ l ∈ pixels

/-- The centroids at first. -/
def Positions.centroids (pos : Positions) (img : Nat × Nat → UInt16) (l : Nat) : Centroid :=
  ⟨(pos.at_ l).1, (pos.at_ l).2, (img (pos.at_ l)).toNat⟩

variable {δ : Type} [LinearOrder δ] (D : Doubles δ)

/-- The mean of a cluster that has pixels. -/
def Cluster.mean (c : Cluster) : Centroid :=
  ⟨D.quot c.sumX c.pixels, D.quot c.sumY c.pixels, D.quot c.intensity.toNat c.pixels⟩

/-- The loop that updates the centroids. -/
def updateCentroids (arr : Nat → Cluster) : Option (Nat → Centroid) :=
  if ∀ j ∈ List.range' 1 kMeansK, (arr j).pixels ≠ 0 then some fun j => (arr j).mean D else none

/-- The centroids after some iterations, as long as they are numbers. -/
def centroidsAfter (img : Nat × Nat → UInt16) (cen : Nat → Centroid) : Nat → Option (Nat → Centroid)
  | 0 => some cen
  | n + 1 => (centroidsAfter img cen n).bind fun cen =>
    updateCentroids D (findClusters D img cen kMeansK kMeansThreshold)

/-- Rows and columns exchanged. -/
def transpose (arrImg : Nat × Nat → UInt16) (ij : Nat × Nat) : UInt16 := arrImg (ij.2, ij.1)

/-- The clustered image, if all centroids are numbers. -/
def kMeansClustering (arrImg : Nat × Nat → UInt16) (pos : Positions) :
    Option (Nat × Nat → UInt16) :=
  let img := transpose arrImg
  (centroidsAfter D img (pos.centroids img) (numIterations - 1)).map fun cen =>
    transpose (calcFinalArrClustered D img cen kMeansK kMeansThreshold)

/-- In each of the iterations every cluster has a pixel. -/
def NeverEmpty (img : Nat × Nat → UInt16) (pos : Positions) : Prop :=
  ∀ n, n < numIterations - 1 → ∃ cen, centroidsAfter D img (pos.centroids img) n = some cen ∧
    ∀ j, 1 ≤ j → j ≤ kMeansK → 0 < (findClusters D img cen kMeansK kMeansThreshold j).pixels

/-- The centroid has a pixel of its own: one that it admits, and to which the others that it admits
are farther away, or as far and later. -/
def Own (img : Nat × Nat → UInt16) (cen : Nat → Centroid) (j : Nat) : Prop :=
  ∃ ij ∈ pixels, Admits D kMeansThreshold (img ij) (cen j) ∧
    ∀ l, 1 ≤ l → l ≤ kMeansK → l ≠ j → Admits D kMeansThreshold (img ij) (cen l) →
      Before (fun l => D.dist (cen l) ij) j l

/-- The centroids are at least √3 apart, and each admits the pixels within half a pixel. -/
structure Spread (img : Nat × Nat → UInt16) (cen : Nat → Centroid) : Prop where
  apart : ∀ l j, 1 ≤ l → l ≤ kMeansK → 1 ≤ j → j ≤ kMeansK → l ≠ j →
    3 ≤ ((cen l).x - (cen j).x) ^ 2 + ((cen l).y - (cen j).y) ^ 2
  admits : ∀ j, 1 ≤ j → j ≤ kMeansK → ∀ ij ∈ pixels, |(cen j).x - ij.1| ≤ 1 / 2 →
    |(cen j).y - ij.2| ≤ 1 / 2 → Admits D kMeansThreshold (img ij) (cen j)

/-! ## Clusters with pixels -/

section Sums

variable {D} {img : Nat × Nat → UInt16} {cen : Nat → Centroid} {j : Nat}

/-- The sums for the coordinates, when as many pixels of the image have been added. -/
structure Cluster.Inside (c : Cluster) : Prop where
  left : c.pixels ≤ c.sumX
  right : c.sumX ≤ 307 * c.pixels
  low : c.pixels ≤ c.sumY
  high : c.sumY ≤ 1280 * c.pixels

theorem inside_addPixel {arr : Nat → Cluster} (inside : ∀ l, (arr l).Inside) {ij : Nat × Nat}
    (pixel : ij ∈ pixels) (l m : Nat) : (addPixel img arr ij l m).Inside := by
  unfold addPixel
  by_cases here : m = l
  · rw [here, Function.update_self]
    obtain ⟨left, right, low, high⟩ := inside l
    obtain ⟨⟨left', right'⟩, low', high'⟩ := mem_pixels.mp pixel
    exact ⟨by dsimp only; omega, by dsimp only; omega, by dsimp only; omega, by dsimp only; omega⟩
  · rw [Function.update_of_ne here]
    exact inside m

theorem inside_foldl (entries : List ((Nat × Nat) × Nat)) (all : ∀ entry ∈ entries, entry.1 ∈ pixels)
    {arr : Nat → Cluster} (inside : ∀ l, (arr l).Inside) (m : Nat) :
    (entries.foldl (fun arr entry => addPixel img arr entry.1 entry.2) arr m).Inside := by
  induction entries generalizing arr with
  | nil => exact inside m
  | cons entry entries ih =>
    obtain ⟨pixel, others⟩ := List.forall_mem_cons.mp all
    exact ih others fun l => inside_addPixel inside pixel entry.2 l

/-- Every entry counts for its cluster. -/
theorem pixels_foldl (entries : List ((Nat × Nat) × Nat)) (arr : Nat → Cluster) :
    (entries.foldl (fun arr entry => addPixel img arr entry.1 entry.2) arr j).pixels =
      (arr j).pixels + entries.countP fun entry => entry.2 = j := by
  induction entries generalizing arr with
  | nil => rfl
  | cons entry entries ih =>
    rw [List.foldl_cons, ih]
    by_cases here : entry.2 = j
    · rw [List.countP_cons_of_pos (by simpa using here), ← here, addPixel, Function.update_self]
      dsimp only
      omega
    · rw [List.countP_cons_of_neg (by simpa using here), addPixel,
        Function.update_of_ne (Ne.symm here)]

theorem mem_additions (inside : AllInside cen kMeansK) {entry : (Nat × Nat) × Nat} :
    entry ∈ additions D img cen kMeansK kMeansThreshold ↔ entry.1 ∈ pixels ∧
      chosen D cen kMeansK kMeansThreshold (img entry.1) entry.1 = some entry.2 := by
  rw [additions_eq (by decide) inside, List.mem_flatMap]
  unfold addition
  constructor
  · rintro ⟨ij, pixel, member⟩
    obtain ⟨l, found, rfl⟩ := List.mem_map.mp member
    exact ⟨pixel, Option.mem_toList.mp found⟩
  · rintro ⟨pixel, found⟩
    exact ⟨entry.1, pixel, List.mem_map.mpr ⟨entry.2, Option.mem_toList.mpr found, rfl⟩⟩

/-- A cluster has a pixel just if its centroid has one of its own. -/
theorem pixels_pos_iff (inside : AllInside cen kMeansK) (low : 1 ≤ j) (high : j ≤ kMeansK) :
    0 < (findClusters D img cen kMeansK kMeansThreshold j).pixels ↔ Own D img cen j := by
  rw [findClusters_eq (by decide) inside, pixels_foldl, show Cluster.empty.pixels = 0 from rfl,
    Nat.zero_add, List.countP_pos_iff]
  constructor
  · rintro ⟨entry, member, same⟩
    obtain ⟨pixel, found⟩ := (mem_additions inside).mp member
    have first := @chosen_first δ _ D cen kMeansK kMeansThreshold entry.1 (by decide) inside pixel
      (img entry.1)
    rw [found, of_decide_eq_true same] at first
    exact ⟨entry.1, pixel, first.1.2.2, fun l low' high' other admits =>
      first.2 l ⟨low', high', admits⟩ other⟩
  · rintro ⟨ij, pixel, admits, before⟩
    have first := @chosen_first δ _ D cen kMeansK kMeansThreshold ij (by decide) inside pixel (img ij)
    have own : IsFirstMin (Among kMeansK cen (Admits D kMeansThreshold (img ij)))
        (fun l => D.dist (cen l) ij) (some j) :=
      ⟨⟨low, high, admits⟩, fun l allowed other => before l allowed.1 allowed.2.1 other allowed.2.2⟩
    exact ⟨(ij, j), (mem_additions inside).mpr ⟨pixel, first.unique own⟩, decide_eq_true rfl⟩

/-- The mean of pixels of the image is inside the image. -/
theorem Cluster.Inside.mean {c : Cluster} (inside : c.Inside) (some_ : c.pixels ≠ 0) :
    (c.mean D).Inside := by
  have across := D.quot_between some_ inside.left inside.right
  have along := D.quot_between some_ inside.low inside.high
  exact ⟨across.1, by exact_mod_cast across.2, along.1, by exact_mod_cast along.2⟩

theorem findClusters_inside (inside : AllInside cen kMeansK) :
    (findClusters D img cen kMeansK kMeansThreshold j).Inside := by
  rw [findClusters_eq (by decide) inside]
  refine inside_foldl _ (fun entry member => ((mem_additions inside).mp member).1) (fun l => ?_) j
  exact ⟨Nat.le_refl _, Nat.le_refl _, Nat.le_refl _, Nat.le_refl _⟩

end Sums

/-! ## The iterations -/

section Iterations

variable {D} {img : Nat × Nat → UInt16} {cen cen' : Nat → Centroid} {pos : Positions} {n : Nat}

theorem updateCentroids_eq_some {arr : Nat → Cluster} : updateCentroids D arr = some cen ↔
    (∀ j, 1 ≤ j → j ≤ kMeansK → 0 < (arr j).pixels) ∧ cen = fun j => (arr j).mean D := by
  unfold updateCentroids
  have all : (∀ j ∈ List.range' 1 kMeansK, (arr j).pixels ≠ 0) ↔
      ∀ j, 1 ≤ j → j ≤ kMeansK → 0 < (arr j).pixels := by
    constructor
    · intro some_ j low high
      exact Nat.pos_of_ne_zero (some_ j (List.mem_range'_1.mpr ⟨low, by omega⟩))
    · intro some_ j member
      obtain ⟨low, high⟩ := List.mem_range'_1.mp member
      exact (some_ j low (by omega)).ne'
  split_ifs with some_
  · rw [Option.some.injEq, and_iff_right (all.mp some_)]
    exact eq_comm
  · exact ⟨nofun, fun both => absurd (all.mpr both.1) some_⟩

/-- One iteration. -/
theorem AllInside.update (inside : AllInside cen kMeansK)
    (next : updateCentroids D (findClusters D img cen kMeansK kMeansThreshold) = some cen') :
    AllInside cen' kMeansK := by
  obtain ⟨some_, rfl⟩ := updateCentroids_eq_some.mp next
  intro j low high
  exact (findClusters_inside inside).mean (some_ j low high).ne'

theorem centroids_inside (img : Nat × Nat → UInt16) (pos : Positions) :
    AllInside (pos.centroids img) kMeansK := by
  intro l low high
  obtain ⟨⟨left, right⟩, low, high⟩ := mem_pixels.mp (pos.inside l low high)
  have left : (1 : ℚ) ≤ (pos.at_ l).1 := by exact_mod_cast left
  have right : ((pos.at_ l).1 : ℚ) ≤ 307 := by exact_mod_cast right
  have low : (1 : ℚ) ≤ (pos.at_ l).2 := by exact_mod_cast low
  have high : ((pos.at_ l).2 : ℚ) ≤ 1280 := by exact_mod_cast high
  exact ⟨left, right, low, high⟩

/-- The centroids stay inside the image. -/
theorem centroidsAfter_inside (after : centroidsAfter D img (pos.centroids img) n = some cen) :
    AllInside cen kMeansK := by
  induction n generalizing cen with
  | zero =>
    cases after
    exact centroids_inside img pos
  | succ n ih =>
    obtain ⟨before, run, next⟩ := Option.bind_eq_some_iff.mp after
    exact (ih run).update next

/-- A centroid within half a diagonal of a pixel that the others are not near. -/
theorem own_of_near {j : Nat} {ij : Nat × Nat} (pixel : ij ∈ pixels)
    (admits : Admits D kMeansThreshold (img ij) (cen j)) (near : distSq (cen j) ij ≤ 1 / 2)
    (others : ∀ l, 1 ≤ l → l ≤ kMeansK → l ≠ j → 1 ≤ distSq (cen l) ij) : Own D img cen j :=
  ⟨ij, pixel, admits, fun l low high other _ => Or.inl (D.dist_lt near (others l low high other))⟩

theorem one_le_distSq {l : Nat} {ij : Nat × Nat} (apart : pos.at_ l ≠ ij) :
    1 ≤ distSq (pos.centroids img l) ij := by
  have whole : distSq (pos.centroids img l) ij = ((((pos.at_ l).1 - ij.1 : ℤ) ^ 2 +
      ((pos.at_ l).2 - ij.2 : ℤ) ^ 2 : ℤ) : ℚ) := by
    unfold distSq Positions.centroids
    push_cast
    rfl
  have positive : 0 < ((pos.at_ l).1 - ij.1 : ℤ) ^ 2 + ((pos.at_ l).2 - ij.2 : ℤ) ^ 2 := by
    refine lt_of_le_of_ne (add_nonneg (sq_nonneg _) (sq_nonneg _)) fun zero => apart ?_
    obtain ⟨across, along⟩ := (add_eq_zero_iff_of_nonneg (sq_nonneg _) (sq_nonneg _)).mp zero.symm
    rw [sq_eq_zero_iff] at across along
    exact Prod.ext (by omega) (by omega)
  rw [whole]
  exact_mod_cast positive

/-- At first every centroid has a pixel of its own just if they start at different pixels. -/
theorem own_first_iff : (∀ j, 1 ≤ j → j ≤ kMeansK → Own D img (pos.centroids img) j) ↔
    ∀ l m, 1 ≤ l → l ≤ kMeansK → 1 ≤ m → m ≤ kMeansK → pos.at_ l = pos.at_ m → l = m := by
  constructor
  · -- Of two centroids at the same pixel the later one is not chosen.
    intro own l m low high low' high' same
    have equal : pos.centroids img l = pos.centroids img m := by
      unfold Positions.centroids
      rw [same]
    have earlier : ∀ l m, 1 ≤ l → l ≤ kMeansK → 1 ≤ m → m ≤ kMeansK →
        pos.centroids img l = pos.centroids img m → ¬ l < m := by
      intro l m low high low' high' equal less
      obtain ⟨ij, -, admits, before⟩ := own m low' high'
      rcases before l low high less.ne (equal ▸ admits) with nearer | ⟨-, lower⟩
      · dsimp only at nearer
        rw [equal] at nearer
        exact lt_irrefl _ nearer
      · omega
    have first := earlier l m low high low' high' equal
    have second := earlier m l low' high' low high equal.symm
    omega
  · intro different j low high
    refine own_of_near (pos.inside j low high) ?_ ?_ fun l low' high' other =>
      one_le_distSq fun same => other (different l j low' high' low high same)
    · unfold Admits Positions.centroids
      rw [D.sub_self]
      decide +kernel
    · simp [distSq, Positions.centroids]

theorem nearest_pixel {x : ℚ} {n : Nat} (low : 1 ≤ x) (high : x ≤ n) :
    ∃ i : Nat, (1 ≤ i ∧ i ≤ n) ∧ |x - i| ≤ 1 / 2 := by
  have below := Int.floor_le (x + 1 / 2)
  have above := Int.lt_floor_add_one (x + 1 / 2)
  have first : (1 : ℤ) ≤ ⌊x + 1 / 2⌋ := Int.le_floor.mpr (by push_cast; linarith)
  have last : ⌊x + 1 / 2⌋ < (n : ℤ) + 1 := Int.floor_lt.mpr (by push_cast; linarith)
  obtain ⟨i, same⟩ := Int.eq_ofNat_of_zero_le (show 0 ≤ ⌊x + 1 / 2⌋ by omega)
  rw [same] at below above first last
  push_cast at below above
  exact ⟨i, ⟨by omega, by omega⟩, abs_le.mpr ⟨by linarith, by linarith⟩⟩

/-- Centroids that are apart have pixels of their own. -/
theorem Spread.own (spread : Spread D img cen) (inside : AllInside cen kMeansK) {j : Nat}
    (low : 1 ≤ j) (high : j ≤ kMeansK) : Own D img cen j := by
  obtain ⟨left, right, bottom, top⟩ := inside j low high
  obtain ⟨i, across, nearX⟩ := @nearest_pixel (cen j).x 307 left (by exact_mod_cast right)
  obtain ⟨i', along, nearY⟩ := @nearest_pixel (cen j).y 1280 bottom (by exact_mod_cast top)
  have pixel : (i, i') ∈ pixels := mem_pixels.mpr ⟨across, along⟩
  have squareX : ((cen j).x - i) ^ 2 ≤ (1 / 2) ^ 2 :=
    sq_le_sq' (abs_le.mp nearX).1 (abs_le.mp nearX).2
  have squareY : ((cen j).y - i') ^ 2 ≤ (1 / 2) ^ 2 :=
    sq_le_sq' (abs_le.mp nearY).1 (abs_le.mp nearY).2
  refine own_of_near pixel (spread.admits j low high _ pixel nearX nearY) ?_ ?_
  · unfold distSq
    linarith
  · intro l low' high' other
    have far := spread.apart l j low' high' low high other
    have triangle : ∀ a b p : ℚ, (a - b) ^ 2 ≤ 2 * (a - p) ^ 2 + 2 * (b - p) ^ 2 := fun a b p => by
      linarith [sq_nonneg (a - p + (b - p))]
    unfold distSq
    linarith [triangle (cen l).x (cen j).x i, triangle (cen l).y (cen j).y i']

/-- No cluster is empty up to an iteration, if every centroid has a pixel of its own. -/
theorem centroidsAfter_some (own : ∀ m, m < n → ∀ cen,
    centroidsAfter D img (pos.centroids img) m = some cen → ∀ j, 1 ≤ j → j ≤ kMeansK → Own D img cen j) :
    ∃ cen, centroidsAfter D img (pos.centroids img) n = some cen := by
  induction n with
  | zero => exact ⟨_, rfl⟩
  | succ n ih =>
    obtain ⟨cen, after⟩ := ih fun m less => own m (less.trans n.lt_succ_self)
    refine ⟨_, Option.bind_eq_some_iff.mpr ⟨cen, after, updateCentroids_eq_some.mpr ⟨?_, rfl⟩⟩⟩
    exact fun j low high => (pixels_pos_iff (centroidsAfter_inside after) low high).mpr
      (own n (by omega) cen after j low high)

/-- **Clusters.**  If the centroids are spread before each of the later iterations, then no cluster
is ever empty, and all numbers are numbers to the end, just if the starting positions differ. -/
theorem neverEmpty_iff (arrImg : Nat × Nat → UInt16) (pos : Positions)
    (spread : ∀ n, 1 ≤ n → n < numIterations - 1 → ∀ cen,
      centroidsAfter D (transpose arrImg) (pos.centroids (transpose arrImg)) n = some cen →
        Spread D (transpose arrImg) cen) :
    (NeverEmpty D (transpose arrImg) pos ∧ (kMeansClustering D arrImg pos).isSome) ↔
      ∀ l m, 1 ≤ l → l ≤ kMeansK → 1 ≤ m → m ≤ kMeansK → pos.at_ l = pos.at_ m → l = m := by
  rw [← @own_first_iff δ _ D (transpose arrImg) pos]
  constructor
  · rintro ⟨never, -⟩ j low high
    obtain ⟨cen, after, some_⟩ := never 0 (by decide)
    cases after
    exact (pixels_pos_iff (centroids_inside _ pos) low high).mp (some_ j low high)
  · intro first
    have own : ∀ n, n < numIterations - 1 → ∀ cen,
        centroidsAfter D (transpose arrImg) (pos.centroids (transpose arrImg)) n = some cen →
          ∀ j, 1 ≤ j → j ≤ kMeansK → Own D (transpose arrImg) cen j := by
      intro n upto cen after j low high
      cases n with
      | zero =>
        cases after
        exact first j low high
      | succ n =>
        exact (spread (n + 1) (by omega) upto cen after).own (centroidsAfter_inside after) low high
    refine ⟨fun n upto => ?_, ?_⟩
    · obtain ⟨cen, after⟩ := centroidsAfter_some (n := n) fun m less => own m (less.trans upto)
      exact ⟨cen, after, fun j low high =>
        (pixels_pos_iff (centroidsAfter_inside after) low high).mpr (own n upto cen after j low high)⟩
    · obtain ⟨cen, after⟩ := centroidsAfter_some own
      rw [kMeansClustering, after]
      rfl

/-! ### An image in ten stripes -/

/-- The centroids are in the middle of ten stripes of 128 columns, or half a pixel or less to the
right of it. -/
def InStripes (cen : Nat → Centroid) : Prop :=
  ∃ right : ℚ, 0 ≤ right ∧ right ≤ 1 / 2 ∧
    ∀ l, 1 ≤ l → l ≤ kMeansK → cen l = ⟨154, 128 * l - 64 + right, 0⟩

theorem InStripes.inside (stripes : InStripes cen) : AllInside cen kMeansK := by
  obtain ⟨right, low, high, at_⟩ := stripes
  intro l first last
  rw [at_ l first last]
  have first : (1 : ℚ) ≤ l := by exact_mod_cast first
  have last : (l : ℚ) ≤ 10 := by exact_mod_cast last
  exact ⟨by norm_num, by norm_num, by dsimp only; linarith, by dsimp only; linarith⟩

theorem InStripes.admits (stripes : InStripes cen) {l : Nat} (low : 1 ≤ l) (high : l ≤ kMeansK) :
    Admits exactly kMeansThreshold 0 (cen l) := by
  obtain ⟨right, -, -, at_⟩ := stripes
  rw [at_ l low high]
  show ((toUint16 (0 - 0)).toNat : ℚ) < 30000
  decide +kernel

theorem InStripes.spread (stripes : InStripes cen) : Spread exactly (fun _ => 0) cen := by
  refine ⟨fun l j low high low' high' other => ?_, fun j low high _ _ _ _ => stripes.admits low high⟩
  obtain ⟨right, -, -, at_⟩ := stripes
  rw [at_ l low high, at_ j low' high']
  have whole : (1 : ℚ) ≤ (l - j) ^ 2 := by
    have : (1 : ℤ) ≤ (l - j) ^ 2 := (one_le_sq_iff_one_le_abs _).mpr (Int.one_le_abs (by omega))
    exact_mod_cast this
  linarith

/-- A black pixel goes to the centroid of its stripe. -/
theorem InStripes.chosen (stripes : InStripes cen) {ij : Nat × Nat} (pixel : ij ∈ pixels) :
    chosen exactly cen kMeansK kMeansThreshold 0 ij = some ((ij.2 + 127) / 128) := by
  obtain ⟨-, first, last⟩ := mem_pixels.mp pixel
  obtain ⟨l, same⟩ : ∃ l, (ij.2 + 127) / 128 = l := ⟨_, rfl⟩
  have after : (128 * l : ℚ) + 1 ≤ ij.2 + 128 := by
    exact_mod_cast (by omega : 128 * l + 1 ≤ ij.2 + 128)
  have upto : (ij.2 : ℚ) ≤ 128 * l := by exact_mod_cast (by omega : ij.2 ≤ 128 * l)
  have low : 1 ≤ l := by omega
  have high : l ≤ 10 := by omega
  rw [same]
  refine (chosen_first (by decide) stripes.inside pixel 0).unique
    ⟨⟨low, high, stripes.admits low high⟩, fun m allowed other => ?_⟩
  obtain ⟨right, nonneg, half, at_⟩ := stripes
  have apart : distSq (cen m) ij - distSq (cen l) ij =
      128 * ((m - l) * (128 * (m + l) - 128 + 2 * right - 2 * ij.2)) := by
    rw [at_ l low high, at_ m allowed.1 allowed.2.1, distSq, distSq]
    ring
  rcases Nat.lt_or_gt_of_ne other with before | behind
  · have gap : (m : ℚ) + 1 ≤ l := by exact_mod_cast before
    have product := mul_pos_of_neg_of_neg (a := (m - l : ℚ))
      (b := 128 * (m + l) - 128 + 2 * right - 2 * ij.2) (by linarith) (by linarith)
    exact Or.inl (show distSq (cen l) ij < distSq (cen m) ij by linarith)
  · have gap : (l : ℚ) + 1 ≤ m := by exact_mod_cast behind
    have product := mul_nonneg (a := (m - l : ℚ))
      (b := 128 * (m + l) - 128 + 2 * right - 2 * ij.2) (by linarith) (by linarith)
    have upto : distSq (cen l) ij ≤ distSq (cen m) ij := by linarith
    rcases upto.lt_or_eq with less | equal
    · exact Or.inl less
    · exact Or.inr ⟨equal, behind⟩

/-- The sums of a cluster in a black image. -/
theorem foldl_black (g : Nat × Nat → Nat) (ijs : List (Nat × Nat)) (arr : Nat → Cluster) (l : Nat) :
    ijs.foldl (fun arr ij => addPixel (fun _ => 0) arr ij (g ij)) arr l =
      ⟨(arr l).pixels + (ijs.filter (g · = l)).length,
        (arr l).sumX + ((ijs.filter (g · = l)).map Prod.fst).sum,
        (arr l).sumY + ((ijs.filter (g · = l)).map Prod.snd).sum, (arr l).intensity⟩ := by
  induction ijs generalizing arr with
  | nil => rfl
  | cons ij ijs ih =>
    rw [List.foldl_cons, ih]
    by_cases here : g ij = l
    · have black : satAdd (arr l).intensity 0 = (arr l).intensity :=
        UInt16.toNat_inj.mp (by
          have := (arr l).intensity.toNat_lt
          rw [satAdd_toNat]
          omega)
      simp [addPixel, here, black, Nat.add_assoc, Nat.add_comm 1]
    · simp [addPixel, here, Function.update_of_ne (Ne.symm here)]

theorem sum_product (is js : List Nat) : ((is ×ˢ js).map Prod.fst).sum = js.length * is.sum ∧
    ((is ×ˢ js).map Prod.snd).sum = is.length * js.sum := by
  induction is with
  | nil => simp
  | cons i is ih =>
    rw [List.product_cons, List.map_append, List.map_append, List.sum_append, List.sum_append,
      ih.1, ih.2]
    simp [Function.comp_def]
    constructor <;> ring

theorem filter_product (p : Nat → Prop) [DecidablePred p] (is js : List Nat) :
    (is ×ˢ js).filter (fun ij => p ij.2) = is ×ˢ js.filter fun j => p j := by
  induction is with
  | nil => rfl
  | cons i is ih =>
    rw [List.product_cons, List.product_cons, List.filter_append, List.filter_map, ih]
    rfl

theorem columns : ∀ l ∈ List.range' 1 10,
    ((List.range' 1 1280).filter fun j => (j + 127) / 128 = l).length = 128 ∧
      ((List.range' 1 1280).filter fun j => (j + 127) / 128 = l).sum + 8128 = 16384 * l := by
  decide +kernel

/-- The means of the stripes are half a pixel to the right of the middle. -/
theorem InStripes.update (stripes : InStripes cen) (next : updateCentroids exactly
    (findClusters exactly (fun _ => 0) cen kMeansK kMeansThreshold) = some cen') :
    InStripes cen' := by
  obtain ⟨-, rfl⟩ := updateCentroids_eq_some.mp next
  refine ⟨1 / 2, by norm_num, le_rfl, fun l low high => ?_⟩
  have found : findClusters exactly (fun _ => 0) cen kMeansK kMeansThreshold =
      pixels.foldl (fun arr ij => addPixel (fun _ => 0) arr ij ((ij.2 + 127) / 128))
        fun _ => .empty := by
    rw [findClusters, eachPixel_eq (by decide) stripes.inside]
    refine List.foldl_ext _ _ _ fun arr ij pixel => ?_
    rw [turn, stripes.chosen pixel]
    rfl
  have rows : pixels.filter (fun ij => (ij.2 + 127) / 128 = l) =
      List.range' 1 307 ×ˢ (List.range' 1 1280).filter fun j => (j + 127) / 128 = l :=
    filter_product (fun j => (j + 127) / 128 = l) _ _
  obtain ⟨length, sum⟩ := columns l (List.mem_range'_1.mpr ⟨low, by
    have : kMeansK = 10 := rfl
    omega⟩)
  obtain ⟨across, along⟩ := sum_product (List.range' 1 307)
    ((List.range' 1 1280).filter fun j => (j + 127) / 128 = l)
  dsimp only
  rw [found, foldl_black, rows, across, along, List.length_product, length]
  generalize ((List.range' 1 1280).filter fun j => (j + 127) / 128 = l).sum = s at sum
  have sum : (s : ℚ) = 16384 * l - 8128 := eq_sub_iff_add_eq.mpr (by exact_mod_cast sum)
  have total : (List.range' 1 307).sum = 47278 := by decide +kernel
  simp only [Cluster.mean, exactly, Cluster.empty, List.length_range', total, Centroid.mk.injEq]
  push_cast
  rw [sum]
  exact ⟨by norm_num, by ring, by norm_num⟩

/-- Starting positions in the middle of the stripes. -/
def stripes : Positions :=
  ⟨fun l => (154, 128 * l - 64), fun l low high => mem_pixels.mpr (by
    have ten : kMeansK = 10 := rfl
    dsimp only
    omega)⟩

theorem stripes_after {n : Nat} (after : centroidsAfter exactly (fun _ => 0)
    (stripes.centroids fun _ => 0) n = some cen) : InStripes cen := by
  induction n generalizing cen with
  | zero =>
    cases after
    refine ⟨0, le_rfl, by norm_num, fun l low _ => ?_⟩
    unfold Positions.centroids stripes
    dsimp only
    rw [Nat.cast_sub (by omega)]
    push_cast
    rw [add_zero]
  | succ n ih =>
    obtain ⟨before, run, next⟩ := Option.bind_eq_some_iff.mp after
    exact (ih run).update next

/-- A black image, with starting positions in the middle of the stripes. -/
theorem neverEmpty_stripes : NeverEmpty exactly (transpose fun _ => 0) stripes ∧
    (kMeansClustering exactly (fun _ => 0) stripes).isSome :=
  (neverEmpty_iff (fun _ => 0) stripes fun _ _ _ _ after => (stripes_after after).spread).mpr
    fun l m _ _ _ _ same => by
      have : 128 * l - 64 = 128 * m - 64 := congrArg Prod.snd same
      omega

/-- All centroids start in the corner. -/
def sameCorner : Positions := ⟨fun _ => (1, 1), fun _ _ _ => mem_pixels.mpr (by decide)⟩

/-- In the first iteration the second cluster is empty. -/
theorem second_cluster_empty :
    (findClusters exactly (fun _ => 0) (sameCorner.centroids fun _ => 0) kMeansK kMeansThreshold
      2).pixels = 0 ∧
      centroidsAfter exactly (fun _ => 0) (sameCorner.centroids fun _ => 0) 1 = none ∧
      ¬ NeverEmpty exactly (fun _ => 0) sameCorner := by
  have inside := centroids_inside (fun _ => 0) sameCorner
  have empty : ¬ 0 < (findClusters exactly (fun _ => 0) (sameCorner.centroids fun _ => 0) kMeansK
      kMeansThreshold 2).pixels := by
    rw [pixels_pos_iff inside (by decide) (by decide)]
    rintro ⟨ij, -, admits, before⟩
    -- The first centroid is the same and comes earlier.
    rcases before 1 (by decide) (by decide) (by decide) admits with nearer | ⟨-, lower⟩
    · exact lt_irrefl _ nearer
    · exact absurd lower (by decide)
  refine ⟨Nat.eq_zero_of_not_pos empty, ?_, fun never => ?_⟩
  · rw [centroidsAfter, centroidsAfter, Option.bind_some]
    cases next : updateCentroids exactly (findClusters exactly (fun _ => 0)
        (sameCorner.centroids fun _ => 0) kMeansK kMeansThreshold) with
    | none => rfl
    | some cen => exact absurd ((updateCentroids_eq_some.mp next).1 2 (by decide) (by decide)) empty
  · obtain ⟨cen, after, some_⟩ := never 0 (by decide)
    cases after
    exact empty (some_ 2 (by decide) (by decide))

end Iterations

end RandomRepo.Hyperspectral

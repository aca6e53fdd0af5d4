import Mathlib.Data.Rat.Floor
import RandomRepo.Hyperspectral.Histogram
import RandomRepo.Lib.FirstMin

/-!
# The clusters of an image

`find_clusters.m` and `calc_final_arr_clustered.m` look for the nearest centroid of each pixel among
those whose intensity is close enough.  The difference of the intensities is taken in `uint16`:
it is rounded, and it is 0 whenever the centroid is brighter than the pixel.  The double
arithmetic is a parameter.  Rows and columns are counted from 1.
-/

namespace RandomRepo.Hyperspectral

/-- The row of a centroid: its coordinates and its mean intensity. -/
structure Centroid where
  x : ℚ
  y : ℚ
  intensity : ℚ
deriving Repr, DecidableEq

/-- The nearest `uint16`. -/
def toUint16 (x : ℚ) : UInt16 := UInt16.ofNat (min ⌊x + 1 / 2⌋.toNat 65535)

/-- The pixels in the order of the loops. -/
def pixels : List (Nat × Nat) := List.range' 1 307 ×ˢ List.range' 1 1280

/-- Inside the image. -/
def Centroid.Inside (c : Centroid) : Prop := 1 ≤ c.x ∧ c.x ≤ 307 ∧ 1 ≤ c.y ∧ c.y ≤ 1280

/-- The square of the distance from a pixel. -/
def distSq (c : Centroid) (ij : Nat × Nat) : ℚ := (c.x - ij.1) ^ 2 + (c.y - ij.2) ^ 2

/-- Differences, quotients and the distances of `calc_distance.m` as they are computed in doubles,
with what is known of the numbers that occur.  `far` is 1317, which stands for no distance. -/
structure Doubles (δ : Type) [LinearOrder δ] where
  sub : ℚ → ℚ → ℚ
  quot : Nat → Nat → ℚ
  dist : Centroid → Nat × Nat → δ
  far : δ
  sub_self : ∀ x, sub x x = 0
  quot_between : ∀ {s n b : Nat}, n ≠ 0 → n ≤ s → s ≤ b * n → 1 ≤ quot s n ∧ quot s n ≤ b
  dist_lt_far : ∀ {c ij}, c.Inside → ij ∈ pixels → dist c ij < far
  dist_lt : ∀ {c c' ij}, distSq c ij ≤ 1 / 2 → 1 ≤ distSq c' ij → dist c ij < dist c' ij

variable {δ : Type} [LinearOrder δ] (D : Doubles δ)

/-- `abs(arr_img(i,j) - cen_clustered(l,3)) < threshold`. -/
def Admits (threshold : ℚ) (p : UInt16) (c : Centroid) : Prop :=
  ((toUint16 (D.sub p.toNat c.intensity)).toNat : ℚ) < threshold

instance (threshold : ℚ) (p : UInt16) (c : Centroid) : Decidable (Admits D threshold p c) :=
  inferInstanceAs (Decidable (_ < _))

/-- `min_dist`: the cluster and its distance. -/
structure MinDist (δ : Type) where
  index : Nat
  dist : δ

/-- The body of the loop over the other centroids. -/
def consider (cen : Nat → Centroid) (threshold : ℚ) (p : UInt16) (ij : Nat × Nat) (m : MinDist δ)
    (l : Nat) : MinDist δ :=
  if Admits D threshold p (cen l) then
    if m.dist > D.dist (cen l) ij then ⟨l, D.dist (cen l) ij⟩ else m
  else m

/-- The search for the nearest centroid.  The cluster of the pixel before is still in `min_dist`. -/
def search (cen : Nat → Centroid) (k : Nat) (threshold : ℚ) (p : UInt16) (ij : Nat × Nat)
    (stale : Nat) : MinDist δ :=
  (List.range' 2 (k - 1)).foldl (consider D cen threshold p ij)
    (if Admits D threshold p (cen 1) then ⟨1, D.dist (cen 1) ij⟩ else ⟨stale, D.far⟩)

/-- The body of the loops over the pixels, which both functions have: `read` gives the intensity
of a pixel, and `act` is done with the cluster that is found. -/
def pixelTurn {σ : Type} (read : σ → Nat × Nat → UInt16) (act : σ → Nat × Nat → Nat → σ)
    (cen : Nat → Centroid) (k : Nat) (threshold : ℚ) (st : Nat × σ) (ij : Nat × Nat) : Nat × σ :=
  let m := search D cen k threshold (read st.2 ij) ij st.1
  (m.index, if m.dist = D.far then st.2 else act st.2 ij m.index)

/-- The loops over some pixels. -/
def pixelLoop {σ : Type} (read : σ → Nat × Nat → UInt16) (act : σ → Nat × Nat → Nat → σ)
    (cen : Nat → Centroid) (k : Nat) (threshold : ℚ) (ijs : List (Nat × Nat)) (s : σ) : σ :=
  (ijs.foldl (pixelTurn D read act cen k threshold) (0, s)).2

def eachPixel {σ : Type} (read : σ → Nat × Nat → UInt16) (act : σ → Nat × Nat → Nat → σ)
    (cen : Nat → Centroid) (k : Nat) (threshold : ℚ) (s : σ) : σ :=
  pixelLoop D read act cen k threshold pixels s

/-- A row of `arr_clustered`: the number of pixels, and the sums of their coordinates and of their
intensities.  The last one is a `uint16` sum. -/
structure Cluster where
  pixels : Nat
  sumX : Nat
  sumY : Nat
  intensity : UInt16
deriving Repr, DecidableEq

def Cluster.empty : Cluster := ⟨0, 0, 0, 0⟩

/-- A pixel is added to a cluster. -/
def addPixel (img : Nat × Nat → UInt16) (arr : Nat → Cluster) (ij : Nat × Nat) (l : Nat) :
    Nat → Cluster :=
  Function.update arr l ⟨(arr l).pixels + 1, (arr l).sumX + ij.1, (arr l).sumY + ij.2,
    satAdd (arr l).intensity (img ij).toNat⟩

def findClusters (img : Nat × Nat → UInt16) (cen : Nat → Centroid) (k : Nat) (threshold : ℚ) :
    Nat → Cluster :=
  eachPixel D (fun _ => img) (addPixel img) cen k threshold fun _ => .empty

def calcFinalArrClustered (img : Nat × Nat → UInt16) (cen : Nat → Centroid) (k : Nat)
    (threshold : ℚ) : Nat × Nat → UInt16 :=
  eachPixel D (fun img => img) (fun img ij l => Function.update img ij (toUint16 (cen l).intensity))
    cen k threshold img

/-- The additions that `findClusters` makes, in order: pixels with their clusters. -/
def additions (img : Nat × Nat → UInt16) (cen : Nat → Centroid) (k : Nat) (threshold : ℚ) :
    List ((Nat × Nat) × Nat) :=
  eachPixel D (fun _ => img) (fun log ij l => log ++ [(ij, l)]) cen k threshold []

/-! ## What is asked for -/

/-- The intensity of the centroid differs from the pixel's by less than the threshold. -/
def Close (threshold : ℚ) (p : UInt16) (c : Centroid) : Prop := |p.toNat - c.intensity| < threshold

instance (threshold : ℚ) (p : UInt16) (c : Centroid) : Decidable (Close threshold p c) :=
  inferInstanceAs (Decidable (_ < _))

/-- The numbers of the `k` centroids with a property. -/
def Among (k : Nat) (cen : Nat → Centroid) (P : Centroid → Prop) (l : Nat) : Prop :=
  1 ≤ l ∧ l ≤ k ∧ P (cen l)

/-- Every pixel is added to the first of the nearest centroids that are close, and to no other, and
gets the intensity of the same one. -/
structure AssignsNearest (img : Nat × Nat → UInt16) (cen : Nat → Centroid) (k : Nat)
    (threshold : ℚ) : Prop where
  sums : findClusters D img cen k threshold = (additions D img cen k threshold).foldl
    (fun arr entry => addPixel img arr entry.1 entry.2) fun _ => .empty
  each : ∀ ij ∈ pixels, ∃ r, IsFirstMin (Among k cen (Close threshold (img ij)))
      (fun l => D.dist (cen l) ij) r ∧
    ((additions D img cen k threshold).filter fun entry => entry.1 = ij).map Prod.snd = r.toList ∧
    calcFinalArrClustered D img cen k threshold ij =
      r.elim (img ij) fun l => toUint16 (cen l).intensity

/-! ## The search -/

section Search

variable {D} {cen : Nat → Centroid} {k n l stale : Nat} {threshold : ℚ} {p : UInt16} {ij : Nat × Nat}
  {m : MinDist δ}

theorem mem_pixels : ij ∈ pixels ↔ (1 ≤ ij.1 ∧ ij.1 ≤ 307) ∧ 1 ≤ ij.2 ∧ ij.2 ≤ 1280 := by
  unfold pixels
  rw [List.mem_product, List.mem_range'_1, List.mem_range'_1]
  omega

variable (D) in
/-- The cluster that is found. -/
def MinDist.found (m : MinDist δ) : Option Nat := if m.dist = D.far then none else some m.index

variable (D) in
/-- The search has seen the first `n` centroids. -/
structure Seen (cen : Nat → Centroid) (threshold : ℚ) (p : UInt16) (ij : Nat × Nat) (n : Nat)
    (m : MinDist δ) : Prop where
  first : IsFirstMin (Among n cen (Admits D threshold p)) (fun l => D.dist (cen l) ij) (m.found D)
  dist : ∀ l, m.found D = some l → m.dist = D.dist (cen l) ij

theorem found_of_lt (less : m.dist < D.far) : m.found D = some m.index := if_neg less.ne

theorem Among.succ_iff {P : Centroid → Prop} :
    Among (n + 1) cen P l ↔ Among n cen P l ∨ l = n + 1 ∧ P (cen (n + 1)) := by
  unfold Among
  constructor
  · rintro ⟨low, high, here⟩
    by_cases last : l = n + 1
    · exact Or.inr ⟨last, last ▸ here⟩
    · exact Or.inl ⟨low, by omega, here⟩
  · rintro (⟨low, high, here⟩ | ⟨rfl, here⟩)
    · exact ⟨low, by omega, here⟩
    · exact ⟨by omega, le_rfl, here⟩

/-- No centroid so far is nearer than the one that is found. -/
theorem Seen.le (seen : Seen D cen threshold p ij n m)
    (allowed : Among n cen (Admits D threshold p) l) : m.dist ≤ D.dist (cen l) ij := by
  have first := seen.first
  cases found : m.found D with
  | none =>
    rw [found] at first
    exact absurd allowed (first l)
  | some f =>
    rw [found] at first
    rw [seen.dist f found]
    by_cases same : l = f
    · rw [same]
    · rcases first.2 l allowed same with less | ⟨equal, -⟩
      · exact less.le
      · exact equal.le

/-- The next centroid. -/
theorem Seen.consider (seen : Seen D cen threshold p ij n m)
    (near : D.dist (cen (n + 1)) ij < D.far) :
    Seen D cen threshold p ij (n + 1) (consider D cen threshold p ij m (n + 1)) := by
  unfold Hyperspectral.consider
  split_ifs with admits nearer
  · -- The new centroid is nearer than all before.
    have here : (⟨n + 1, D.dist (cen (n + 1)) ij⟩ : MinDist δ).found D = some (n + 1) :=
      found_of_lt near
    refine ⟨?_, fun l same => ?_⟩
    · rw [here]
      refine ⟨⟨by omega, le_rfl, admits⟩, fun l allowed other => Or.inl ?_⟩
      rcases Among.succ_iff.mp allowed with allowed | ⟨last, -⟩
      · exact lt_of_lt_of_le nearer (seen.le allowed)
      · exact absurd last other
    · rw [here] at same
      cases same
      rfl
  · -- The one that is found already is as near.
    have upto : m.dist ≤ D.dist (cen (n + 1)) ij := not_lt.mp nearer
    have here : m.found D = some m.index := found_of_lt (upto.trans_lt near)
    have first := seen.first
    refine ⟨?_, seen.dist⟩
    rw [here] at first ⊢
    refine ⟨Among.succ_iff.mpr (Or.inl first.1), fun l allowed other => ?_⟩
    rcases Among.succ_iff.mp allowed with allowed | ⟨rfl, -⟩
    · exact first.2 l allowed other
    · rw [seen.dist m.index here] at upto
      rcases upto.lt_or_eq with less | equal
      · exact Or.inl less
      · exact Or.inr ⟨equal, by have := first.1.2.1; omega⟩
  · refine ⟨seen.first.congr fun l => ?_, seen.dist⟩
    rw [Among.succ_iff]
    exact (or_iff_left fun last => admits last.2).symm

/-- The first centroid. -/
theorem seen_one (near : D.dist (cen 1) ij < D.far) : Seen D cen threshold p ij 1
    (if Admits D threshold p (cen 1) then ⟨1, D.dist (cen 1) ij⟩ else ⟨stale, D.far⟩) := by
  split_ifs with admits
  · have here : (⟨1, D.dist (cen 1) ij⟩ : MinDist δ).found D = some 1 := found_of_lt near
    refine ⟨?_, fun l same => ?_⟩
    · rw [here]
      exact ⟨⟨le_rfl, le_rfl, admits⟩, fun l allowed other =>
        absurd (le_antisymm allowed.2.1 allowed.1) other⟩
    · rw [here] at same
      cases same
      rfl
  · have none_ : (⟨stale, D.far⟩ : MinDist δ).found D = none := if_pos rfl
    refine ⟨?_, fun l same => ?_⟩
    · rw [none_]
      rintro l ⟨low, high, here⟩
      rw [le_antisymm high low] at here
      exact admits here
    · rw [none_] at same
      cases same

/-- The search finds the first of the nearest centroids that are admitted. -/
theorem search_first (positive : 1 ≤ k) (near : ∀ l, 1 ≤ l → l ≤ k → D.dist (cen l) ij < D.far) :
    IsFirstMin (Among k cen (Admits D threshold p)) (fun l => D.dist (cen l) ij)
      ((search D cen k threshold p ij stale).found D) := by
  suffices scan : ∀ n, n + 1 ≤ k → Seen D cen threshold p ij (n + 1)
      ((List.range' 2 n).foldl (Hyperspectral.consider D cen threshold p ij)
        (if Admits D threshold p (cen 1) then ⟨1, D.dist (cen 1) ij⟩ else ⟨stale, D.far⟩)) by
    have last := (scan (k - 1) (by omega)).first
    rwa [Nat.sub_add_cancel positive] at last
  intro n
  induction n with
  | zero => exact fun _ => seen_one (near 1 le_rfl positive)
  | succ n ih =>
    intro upto
    rw [List.range'_1_concat, List.foldl_append, Nat.add_comm 2 n]
    exact (ih (by omega)).consider (near (n + 2) (by omega) upto)

variable (D) in
/-- The cluster that is found for a pixel. -/
def chosen (cen : Nat → Centroid) (k : Nat) (threshold : ℚ) (p : UInt16) (ij : Nat × Nat) :
    Option Nat := (search D cen k threshold p ij 0).found D

end Search

/-! ## All pixels -/

section Pixels

variable {D} {cen : Nat → Centroid} {k : Nat} {threshold : ℚ} {img : Nat × Nat → UInt16}
  {ij : Nat × Nat}

/-- The centroids are inside the image. -/
def AllInside (cen : Nat → Centroid) (k : Nat) : Prop := ∀ l, 1 ≤ l → l ≤ k → (cen l).Inside

variable (D) in
/-- A turn of the loops with what is found there. -/
def turn {σ : Type} (read : σ → Nat × Nat → UInt16) (act : σ → Nat × Nat → Nat → σ)
    (cen : Nat → Centroid) (k : Nat) (threshold : ℚ) (s : σ) (ij : Nat × Nat) : σ :=
  (chosen D cen k threshold (read s ij) ij).elim s (act s ij)

theorem near_of_inside (inside : AllInside cen k) (pixel : ij ∈ pixels) :
    ∀ l, 1 ≤ l → l ≤ k → D.dist (cen l) ij < D.far :=
  fun l low high => D.dist_lt_far (inside l low high) pixel

theorem chosen_first (positive : 1 ≤ k) (inside : AllInside cen k) (pixel : ij ∈ pixels)
    (p : UInt16) : IsFirstMin (Among k cen (Admits D threshold p)) (fun l => D.dist (cen l) ij)
      (chosen D cen k threshold p ij) :=
  search_first positive (near_of_inside inside pixel)

section Turn

variable {σ : Type} {read : σ → Nat × Nat → UInt16} {act : σ → Nat × Nat → Nat → σ}

/-- The cluster that is in `min_dist` from the pixel before is never used. -/
theorem pixelTurn_snd (positive : 1 ≤ k) (inside : AllInside cen k) (pixel : ij ∈ pixels)
    (st : Nat × σ) : (pixelTurn D read act cen k threshold st ij).2 =
      turn D read act cen k threshold st.2 ij := by
  have same : (search D cen k threshold (read st.2 ij) ij st.1).found D =
      chosen D cen k threshold (read st.2 ij) ij :=
    (search_first positive (near_of_inside inside pixel)).unique
      (chosen_first positive inside pixel (read st.2 ij))
  unfold pixelTurn turn
  rw [← same]
  unfold MinDist.found
  dsimp only
  split_ifs
  · rfl
  · rfl

theorem pixelLoop_eq (positive : 1 ≤ k) (inside : AllInside cen k) (ijs : List (Nat × Nat))
    (all : ∀ ij ∈ ijs, ij ∈ pixels) (s : σ) : pixelLoop D read act cen k threshold ijs s =
      ijs.foldl (turn D read act cen k threshold) s := by
  suffices from_ : ∀ st : Nat × σ, (ijs.foldl (pixelTurn D read act cen k threshold) st).2 =
      ijs.foldl (turn D read act cen k threshold) st.2 from from_ (0, s)
  induction ijs with
  | nil => exact fun _ => rfl
  | cons ij ijs ih =>
    intro st
    obtain ⟨pixel, others⟩ := List.forall_mem_cons.mp all
    rw [List.foldl_cons, List.foldl_cons, ih others, pixelTurn_snd positive inside pixel]

theorem eachPixel_eq (positive : 1 ≤ k) (inside : AllInside cen k) (s : σ) :
    eachPixel D read act cen k threshold s = pixels.foldl (turn D read act cen k threshold) s :=
  pixelLoop_eq positive inside pixels (fun _ member => member) s

end Turn

variable (D) in
/-- A pixel with the cluster that is found for it. -/
def addition (img : Nat × Nat → UInt16) (cen : Nat → Centroid) (k : Nat) (threshold : ℚ)
    (ij : Nat × Nat) : List ((Nat × Nat) × Nat) :=
  (chosen D cen k threshold (img ij) ij).toList.map fun l => (ij, l)

theorem foldl_log (ijs : List (Nat × Nat)) (log : List ((Nat × Nat) × Nat)) :
    ijs.foldl (turn D (fun _ => img) (fun log ij l => log ++ [(ij, l)]) cen k threshold) log =
      log ++ ijs.flatMap (addition D img cen k threshold) := by
  induction ijs generalizing log with
  | nil => exact (List.append_nil log).symm
  | cons ij ijs ih =>
    rw [List.foldl_cons, ih, List.flatMap_cons, ← List.append_assoc]
    congr 1
    unfold turn addition
    cases chosen D cen k threshold (img ij) ij with
    | none => exact (List.append_nil log).symm
    | some l => rfl

theorem foldl_addPixel (ijs : List (Nat × Nat)) (arr : Nat → Cluster) :
    ijs.foldl (turn D (fun _ => img) (addPixel img) cen k threshold) arr =
      (ijs.flatMap (addition D img cen k threshold)).foldl
        (fun arr entry => addPixel img arr entry.1 entry.2) arr := by
  rw [List.foldl_flatMap]
  congr 1
  funext arr ij
  unfold turn addition
  cases chosen D cen k threshold (img ij) ij with
  | none => rfl
  | some l => rfl

/-- The additions are those of the pixels for which a cluster is found. -/
theorem additions_eq (positive : 1 ≤ k) (inside : AllInside cen k) :
    additions D img cen k threshold = pixels.flatMap (addition D img cen k threshold) := by
  unfold additions
  rw [eachPixel_eq positive inside, foldl_log, List.nil_append]

/-- The sums of `findClusters` are those of its additions. -/
theorem findClusters_eq (positive : 1 ≤ k) (inside : AllInside cen k) :
    findClusters D img cen k threshold = (additions D img cen k threshold).foldl
      (fun arr entry => addPixel img arr entry.1 entry.2) fun _ => .empty := by
  unfold findClusters
  rw [additions_eq positive inside, eachPixel_eq positive inside, foldl_addPixel]

theorem pixels_nodup : pixels.Nodup := List.Nodup.product List.nodup_range' List.nodup_range'

theorem addition_at (ijs : List (Nat × Nat)) (nodup : ijs.Nodup) :
    ((ijs.flatMap (addition D img cen k threshold)).filter fun entry => entry.1 = ij).map Prod.snd =
      if ij ∈ ijs then (chosen D cen k threshold (img ij) ij).toList else [] := by
  induction ijs with
  | nil => rfl
  | cons other ijs ih =>
    obtain ⟨fresh, nodup⟩ := List.nodup_cons.mp nodup
    rw [List.flatMap_cons, List.filter_append, List.map_append, ih nodup]
    by_cases here : other = ij
    · rw [← here, if_neg fresh, if_pos List.mem_cons_self, List.append_nil]
      unfold addition
      cases chosen D cen k threshold (img other) other with
      | none => rfl
      | some l => simp
    · have absent : (addition D img cen k threshold other).filter
          (fun entry => entry.1 = ij) = [] := by
        unfold addition
        cases chosen D cen k threshold (img other) other with
        | none => rfl
        | some l => simp [here]
      simp only [absent, List.map_nil, List.nil_append, List.mem_cons, Ne.symm here, false_or]

/-- A pixel is added to the cluster that is found for it. -/
theorem additions_at (positive : 1 ≤ k) (inside : AllInside cen k) (pixel : ij ∈ pixels) :
    ((additions D img cen k threshold).filter fun entry => entry.1 = ij).map Prod.snd =
      (chosen D cen k threshold (img ij) ij).toList := by
  rw [additions_eq positive inside, addition_at pixels pixels_nodup, if_pos pixel]

theorem turn_set_at (other : Nat × Nat) : turn D (fun img => img)
    (fun img ij l => Function.update img ij (toUint16 (cen l).intensity)) cen k threshold img ij other =
      if other = ij then
        (chosen D cen k threshold (img ij) ij).elim (img ij) fun l => toUint16 (cen l).intensity
      else img other := by
  unfold turn
  cases chosen D cen k threshold (img ij) ij with
  | none =>
    split_ifs with here
    · rw [here]
      rfl
    · rfl
  | some l => exact Function.update_apply ..

theorem foldl_set_at (ijs : List (Nat × Nat)) (nodup : ijs.Nodup) :
    ijs.foldl (turn D (fun img => img)
      (fun img ij l => Function.update img ij (toUint16 (cen l).intensity)) cen k threshold) img ij =
      if ij ∈ ijs then
        (chosen D cen k threshold (img ij) ij).elim (img ij) fun l => toUint16 (cen l).intensity
      else img ij := by
  induction ijs generalizing img with
  | nil => rfl
  | cons other ijs ih =>
    obtain ⟨fresh, nodup⟩ := List.nodup_cons.mp nodup
    rw [List.foldl_cons, ih nodup, turn_set_at]
    by_cases here : ij = other
    · rw [here, if_neg fresh, if_pos rfl, if_pos List.mem_cons_self]
    · rw [if_neg here]
      simp only [List.mem_cons, here, false_or]

/-- A pixel gets the intensity of the cluster that is found for it. -/
theorem calcFinal_at (positive : 1 ≤ k) (inside : AllInside cen k) (pixel : ij ∈ pixels) :
    calcFinalArrClustered D img cen k threshold ij =
      (chosen D cen k threshold (img ij) ij).elim (img ij) fun l => toUint16 (cen l).intensity := by
  unfold calcFinalArrClustered
  rw [eachPixel_eq positive inside, foldl_set_at pixels pixels_nodup, if_pos pixel]

end Pixels

/-! ## When the assignment is right -/

section Right

variable {D} {cen : Nat → Centroid} {k : Nat} {threshold : ℚ} {img : Nat × Nat → UInt16}

/-- The assignment is right just if, for every pixel, a centroid for which the test on the intensities
goes wrong comes after one for which it goes right and succeeds. -/
theorem assignsNearest_iff (positive : 1 ≤ k) (inside : AllInside cen k) :
    AssignsNearest D img cen k threshold ↔ ∀ ij ∈ pixels, ∀ l, 1 ≤ l → l ≤ k →
      ¬ (Admits D threshold (img ij) (cen l) ↔ Close threshold (img ij) (cen l)) →
      ∃ m, 1 ≤ m ∧ m ≤ k ∧ Admits D threshold (img ij) (cen m) ∧ Close threshold (img ij) (cen m) ∧
        Before (fun l => D.dist (cen l) ij) m l := by
  constructor
  · intro assigns ij pixel l low high differ
    obtain ⟨r, first, added, -⟩ := assigns.each ij pixel
    rw [additions_at positive inside pixel] at added
    have same : chosen D cen k threshold (img ij) ij = r := by
      simpa using congrArg List.head? added
    rw [← same] at first
    obtain ⟨m, ⟨low', high', admits⟩, ⟨-, -, close⟩, before⟩ :=
      (chosen_first positive inside pixel (img ij)).ahead first l
        (fun both => differ ⟨fun admits => (both.mp ⟨low, high, admits⟩).2.2,
          fun close => (both.mpr ⟨low, high, close⟩).2.2⟩)
    exact ⟨m, low', high', admits, close, before⟩
  · intro right
    refine ⟨findClusters_eq positive inside, fun ij pixel => ⟨_, ?_,
      additions_at positive inside pixel, calcFinal_at positive inside pixel⟩⟩
    refine (chosen_first positive inside pixel (img ij)).transfer fun l differ => ?_
    by_cases range : 1 ≤ l ∧ l ≤ k
    · obtain ⟨m, low, high, admits, close, before⟩ := right ij pixel l range.1 range.2 fun both =>
        differ ⟨fun ⟨low, high, here⟩ => ⟨low, high, both.mp here⟩,
          fun ⟨low, high, here⟩ => ⟨low, high, both.mpr here⟩⟩
      exact ⟨m, ⟨low, high, admits⟩, ⟨low, high, close⟩, before⟩
    · exact absurd (iff_of_false (fun among => range ⟨among.1, among.2.1⟩)
        (fun among => range ⟨among.1, among.2.1⟩)) differ

end Right

/-! ## Without rounding -/

/-- All distances inside the image are less than the one that stands for none. -/
theorem distSq_lt_farSq {c : Centroid} {ij : Nat × Nat} (inside : c.Inside) (pixel : ij ∈ pixels) :
    distSq c ij < 1317 ^ 2 := by
  obtain ⟨⟨left, right⟩, low, high⟩ := mem_pixels.mp pixel
  obtain ⟨left', right', low', high'⟩ := inside
  have left : (1 : ℚ) ≤ ij.1 := by exact_mod_cast left
  have right : (ij.1 : ℚ) ≤ 307 := by exact_mod_cast right
  have low : (1 : ℚ) ≤ ij.2 := by exact_mod_cast low
  have high : (ij.2 : ℚ) ≤ 1280 := by exact_mod_cast high
  have across : (c.x - ij.1) ^ 2 ≤ 306 ^ 2 := sq_le_sq' (by linarith) (by linarith)
  have along : (c.y - ij.2) ^ 2 ≤ 1279 ^ 2 := sq_le_sq' (by linarith) (by linarith)
  unfold distSq
  linarith

/-- Exact numbers, with distances compared by their squares. -/
def exactly : Doubles ℚ where
  sub x y := x - y
  quot s n := s / n
  dist := distSq
  far := 1317 ^ 2
  sub_self := sub_self
  quot_between {s n b} some_ low high := by
    have positive : (0 : ℚ) < n := by exact_mod_cast Nat.pos_of_ne_zero some_
    exact ⟨(one_le_div positive).mpr (by exact_mod_cast low),
      (div_le_iff₀ positive).mpr (by exact_mod_cast high)⟩
  dist_lt_far := distSq_lt_farSq
  dist_lt near far := by linarith

/-- Centroids in opposite corners of the image. -/
def corners (first second : ℚ) (l : Nat) : Centroid :=
  if l = 1 then ⟨1, 1, first⟩ else ⟨307, 1280, second⟩

theorem corners_inside (first second : ℚ) (k : Nat) : AllInside (corners first second) k := by
  intro l _ _
  unfold corners Centroid.Inside
  split_ifs <;> norm_num

/-- The upper rows are dark and divided between two dark centroids, and the others are skipped. -/
theorem assignsNearest_corners : AllInside (corners 0 100) 2 ∧
    AssignsNearest exactly (fun ij => if ij.1 ≤ 100 then 0 else 50000) (corners 0 100) 2 30000 := by
  have inside := corners_inside 0 100 2
  refine ⟨inside, (assignsNearest_iff (by decide) inside).mpr ?_⟩
  intro ij _ l _ _ differ
  -- On either side of the edge the test on the intensities goes right.
  refine absurd ?_ differ
  unfold corners
  split_ifs <;> decide +kernel

/-- The pixels of a black image are added to a bright cluster, although none is close. -/
theorem black_in_bright_cluster : AllInside (corners 40000 0) 1 ∧
    (∀ l, ¬ Among 1 (corners 40000 0) (Close 30000 0) l) ∧ (1, 1) ∈ pixels ∧
    ((additions exactly (fun _ => 0) (corners 40000 0) 1 30000).filter
      fun entry => entry.1 = (1, 1)).map Prod.snd = [1] ∧
    calcFinalArrClustered exactly (fun _ => 0) (corners 40000 0) 1 30000 (1, 1) = 40000 := by
  have inside := corners_inside 40000 0 1
  have pixel : (1, 1) ∈ pixels := mem_pixels.mpr (by decide)
  have found : chosen exactly (corners 40000 0) 1 30000 0 (1, 1) = some 1 := by decide +kernel
  refine ⟨inside, ?_, pixel, ?_, ?_⟩
  · rintro l ⟨low, high, close⟩
    obtain rfl := le_antisymm high low
    exact absurd close (by decide +kernel)
  · rw [additions_at le_rfl inside pixel, found]
    rfl
  · rw [calcFinal_at le_rfl inside pixel, found]
    show toUint16 40000 = 40000
    decide +kernel

end RandomRepo.Hyperspectral

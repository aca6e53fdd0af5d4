import Mathlib.Tactic.IntervalCases
import RandomRepo.Lib.CarryPrefix

/-!
# The adders

`comp_add.vhd` and `comp_sub.vhd`: two Kogge-Stone networks over 16 positions, which count from 1 to 16
as the ports do.  The two files wire the same network; they differ in what a position generates and
propagates and in the carry into the first position.

Signals are two-valued.  `STD_LOGIC_VECTOR` signals of the levels are functions of the
position; a `GG` gate drives no propagate signal, and nothing reads the ones that are not driven.
-/

namespace RandomRepo.Alu

def undriven : Bool := false

def gg (Gk Pk Gj : Bool) : Gp := ⟨Gk || (Pk && Gj), undriven⟩

def gpgg (Gk Pk Gj Pj : Bool) : Gp := ⟨Gk || (Pk && Gj), Pk && Pj⟩

/-! ## The network -/

/-- The instances `KS_1k`: groups of two positions. -/
def level1 (G P : Nat → Bool) (G0 : Bool) : Nat → Gp
  | 1 => gg (G 1) (P 1) G0
  | 2 => gpgg (G 2) (P 2) (G 1) (P 1)
  | 3 => gpgg (G 3) (P 3) (G 2) (P 2)
  | 4 => gpgg (G 4) (P 4) (G 3) (P 3)
  | 5 => gpgg (G 5) (P 5) (G 4) (P 4)
  | 6 => gpgg (G 6) (P 6) (G 5) (P 5)
  | 7 => gpgg (G 7) (P 7) (G 6) (P 6)
  | 8 => gpgg (G 8) (P 8) (G 7) (P 7)
  | 9 => gpgg (G 9) (P 9) (G 8) (P 8)
  | 10 => gpgg (G 10) (P 10) (G 9) (P 9)
  | 11 => gpgg (G 11) (P 11) (G 10) (P 10)
  | 12 => gpgg (G 12) (P 12) (G 11) (P 11)
  | 13 => gpgg (G 13) (P 13) (G 12) (P 12)
  | 14 => gpgg (G 14) (P 14) (G 13) (P 13)
  | 15 => gpgg (G 15) (P 15) (G 14) (P 14)
  | _ => ⟨undriven, undriven⟩

/-- The instances `KS_2k`: groups of four. -/
def level2 (l1 : Nat → Gp) (G0 : Bool) : Nat → Gp
  | 2 => gg (l1 2).g (l1 2).p G0
  | 3 => gg (l1 3).g (l1 3).p (l1 1).g
  | 4 => gpgg (l1 4).g (l1 4).p (l1 2).g (l1 2).p
  | 5 => gpgg (l1 5).g (l1 5).p (l1 3).g (l1 3).p
  | 6 => gpgg (l1 6).g (l1 6).p (l1 4).g (l1 4).p
  | 7 => gpgg (l1 7).g (l1 7).p (l1 5).g (l1 5).p
  | 8 => gpgg (l1 8).g (l1 8).p (l1 6).g (l1 6).p
  | 9 => gpgg (l1 9).g (l1 9).p (l1 7).g (l1 7).p
  | 10 => gpgg (l1 10).g (l1 10).p (l1 8).g (l1 8).p
  | 11 => gpgg (l1 11).g (l1 11).p (l1 9).g (l1 9).p
  | 12 => gpgg (l1 12).g (l1 12).p (l1 10).g (l1 10).p
  | 13 => gpgg (l1 13).g (l1 13).p (l1 11).g (l1 11).p
  | 14 => gpgg (l1 14).g (l1 14).p (l1 12).g (l1 12).p
  | 15 => gpgg (l1 15).g (l1 15).p (l1 13).g (l1 13).p
  | _ => ⟨undriven, undriven⟩

/-- The instances `KS_3k`: groups of eight. -/
def level3 (l1 l2 : Nat → Gp) (G0 : Bool) : Nat → Gp
  | 4 => gg (l2 4).g (l2 4).p G0
  | 5 => gg (l2 5).g (l2 5).p (l1 1).g
  | 6 => gg (l2 6).g (l2 6).p (l2 2).g
  | 7 => gg (l2 7).g (l2 7).p (l2 3).g
  | 8 => gpgg (l2 8).g (l2 8).p (l2 4).g (l2 4).p
  | 9 => gpgg (l2 9).g (l2 9).p (l2 5).g (l2 5).p
  | 10 => gpgg (l2 10).g (l2 10).p (l2 6).g (l2 6).p
  | 11 => gpgg (l2 11).g (l2 11).p (l2 7).g (l2 7).p
  | 12 => gpgg (l2 12).g (l2 12).p (l2 8).g (l2 8).p
  | 13 => gpgg (l2 13).g (l2 13).p (l2 9).g (l2 9).p
  | 14 => gpgg (l2 14).g (l2 14).p (l2 10).g (l2 10).p
  | 15 => gpgg (l2 15).g (l2 15).p (l2 11).g (l2 11).p
  | _ => ⟨undriven, undriven⟩

/-- The instances `KS_4k`. -/
def level4 (l1 l2 l3 : Nat → Gp) (G0 : Bool) : Nat → Gp
  | 8 => gg (l3 8).g (l3 8).p G0
  | 9 => gg (l3 9).g (l3 9).p (l1 1).g
  | 10 => gg (l3 10).g (l3 10).p (l2 2).g
  | 11 => gg (l3 11).g (l3 11).p (l2 3).g
  | 12 => gg (l3 12).g (l3 12).p (l3 4).g
  | 13 => gg (l3 13).g (l3 13).p (l3 5).g
  | 14 => gg (l3 14).g (l3 14).p (l3 6).g
  | 15 => gg (l3 15).g (l3 15).p (l3 7).g
  | _ => ⟨undriven, undriven⟩

/-- The output and the carry. -/
structure Sum where
  o : BitVec 16
  carryout : Bool
  deriving DecidableEq, Repr

section Network

variable (G P : Nat → Bool) (G0 : Bool)

def sumBit (l1 l2 l3 l4 : Nat → Gp) : Nat → Bool
  | 0 => P 1 ^^ G0
  | 1 => P 2 ^^ (l1 1).g
  | 2 => P 3 ^^ (l2 2).g
  | 3 => P 4 ^^ (l2 3).g
  | 4 => P 5 ^^ (l3 4).g
  | 5 => P 6 ^^ (l3 5).g
  | 6 => P 7 ^^ (l3 6).g
  | 7 => P 8 ^^ (l3 7).g
  | 8 => P 9 ^^ (l4 8).g
  | 9 => P 10 ^^ (l4 9).g
  | 10 => P 11 ^^ (l4 10).g
  | 11 => P 12 ^^ (l4 11).g
  | 12 => P 13 ^^ (l4 12).g
  | 13 => P 14 ^^ (l4 13).g
  | 14 => P 15 ^^ (l4 14).g
  | 15 => P 16 ^^ (l4 15).g
  | _ => undriven

def network : Sum :=
  let l1 := level1 G P G0
  let l2 := level2 l1 G0
  let l3 := level3 l1 l2 G0
  let l4 := level4 l1 l2 l3 G0
  { o := ofBits (sumBit P G0 l1 l2 l3 l4)
    carryout := G 16 || (P 16 && (l4 15).g) }

end Network

/-- Ports of 16 bits, numbered from 1. -/
def port (X : BitVec 16) (k : Nat) : Bool := X.getLsbD (k - 1)

def compAdd (X Y : BitVec 16) : Sum := network (port (X &&& Y)) (port (X ^^^ Y)) false

def compSub (X Y : BitVec 16) : Sum := network (port (X &&& ~~~Y)) (port (X ^^^ ~~~Y)) true

/-! ## Levels are groups -/

section Levels

variable {G P : Nat → Bool} {G0 : Bool} {f : Nat → Gp} {l1 l2 l3 : Nat → Gp} {k : Nat}

/-- The gate applies a group to the carry below it. -/
theorem gg_carry {n : Nat} (inside : n ≤ k) :
    (gg (group f k n).g (group f k n).p (carryOut f G0 (k - n))).g = carryOut f G0 k :=
  (carryOut_group f G0 inside).symm

theorem level1_group (low : 2 ≤ k) (high : k ≤ 15) :
    level1 (fun k => (f k).g) (fun k => (f k).p) G0 k = group f k 2 := by
  have gate : level1 (fun k => (f k).g) (fun k => (f k).p) G0 k = (f k).comp (f (k - 1)) := by
    interval_cases k <;> rfl
  rw [gate, group_add f k 1 1, group_one, group_one]

theorem level1_carry : (level1 (fun k => (f k).g) (fun k => (f k).p) G0 1).g = carryOut f G0 1 := rfl

theorem level2_group (groups : ∀ k, 2 ≤ k → k ≤ 15 → l1 k = group f k 2) (low : 4 ≤ k)
    (high : k ≤ 15) : level2 l1 G0 k = group f k 4 := by
  have gate : level2 l1 G0 k = (l1 k).comp (l1 (k - 2)) := by
    interval_cases k <;> rfl
  rw [gate, groups k (by omega) high, groups (k - 2) (by omega) (by omega), ← group_add f k 2 2]

theorem level2_carry (groups : ∀ k, 2 ≤ k → k ≤ 15 → l1 k = group f k 2)
    (first : (l1 1).g = carryOut f G0 1) (low : 2 ≤ k) (high : k ≤ 3) :
    (level2 l1 G0 k).g = carryOut f G0 k := by
  have gate : (level2 l1 G0 k).g = (gg (l1 k).g (l1 k).p (carryOut f G0 (k - 2))).g := by
    interval_cases k
    · rfl
    · rw [← first]
      rfl
  rw [gate, groups k low (by omega), gg_carry low]

theorem level3_group (groups : ∀ k, 4 ≤ k → k ≤ 15 → l2 k = group f k 4) (low : 8 ≤ k)
    (high : k ≤ 15) : level3 l1 l2 G0 k = group f k 8 := by
  have gate : level3 l1 l2 G0 k = (l2 k).comp (l2 (k - 4)) := by
    interval_cases k <;> rfl
  rw [gate, groups k (by omega) high, groups (k - 4) (by omega) (by omega), ← group_add f k 4 4]

theorem level3_carry (groups : ∀ k, 4 ≤ k → k ≤ 15 → l2 k = group f k 4)
    (first : (l1 1).g = carryOut f G0 1)
    (second : ∀ k, 2 ≤ k → k ≤ 3 → (l2 k).g = carryOut f G0 k) (low : 4 ≤ k) (high : k ≤ 7) :
    (level3 l1 l2 G0 k).g = carryOut f G0 k := by
  have gate : (level3 l1 l2 G0 k).g = (gg (l2 k).g (l2 k).p (carryOut f G0 (k - 4))).g := by
    interval_cases k
    · rfl
    · rw [← first]
      rfl
    · rw [← second 2 (by decide) (by decide)]
      rfl
    · rw [← second 3 (by decide) (by decide)]
      rfl
  rw [gate, groups k low (by omega), gg_carry low]

theorem level4_carry (groups : ∀ k, 8 ≤ k → k ≤ 15 → l3 k = group f k 8)
    (first : (l1 1).g = carryOut f G0 1)
    (second : ∀ k, 2 ≤ k → k ≤ 3 → (l2 k).g = carryOut f G0 k)
    (third : ∀ k, 4 ≤ k → k ≤ 7 → (l3 k).g = carryOut f G0 k) (low : 8 ≤ k) (high : k ≤ 15) :
    (level4 l1 l2 l3 G0 k).g = carryOut f G0 k := by
  have gate : (level4 l1 l2 l3 G0 k).g = (gg (l3 k).g (l3 k).p (carryOut f G0 (k - 8))).g := by
    interval_cases k
    · rfl
    · rw [← first]
      rfl
    · rw [← second 2 (by decide) (by decide)]
      rfl
    · rw [← second 3 (by decide) (by decide)]
      rfl
    · rw [← third 4 (by decide) (by decide)]
      rfl
    · rw [← third 5 (by decide) (by decide)]
      rfl
    · rw [← third 6 (by decide) (by decide)]
      rfl
    · rw [← third 7 (by decide) (by decide)]
      rfl
  rw [gate, groups k low high, gg_carry low]

/-- The signals of the four levels: a `GPGG` gate gives the group of its span, and where the span
reaches the first position the `GG` gate gives the carry of the ripple recurrence. -/
structure Signals (f : Nat → Gp) (G0 : Bool) (l1 l2 l3 l4 : Nat → Gp) : Prop where
  group1 : ∀ k, 2 ≤ k → k ≤ 15 → l1 k = group f k 2
  carry1 : (l1 1).g = carryOut f G0 1
  group2 : ∀ k, 4 ≤ k → k ≤ 15 → l2 k = group f k 4
  carry2 : ∀ k, 2 ≤ k → k ≤ 3 → (l2 k).g = carryOut f G0 k
  group3 : ∀ k, 8 ≤ k → k ≤ 15 → l3 k = group f k 8
  carry3 : ∀ k, 4 ≤ k → k ≤ 7 → (l3 k).g = carryOut f G0 k
  carry4 : ∀ k, 8 ≤ k → k ≤ 15 → (l4 k).g = carryOut f G0 k

theorem network_signals (f : Nat → Gp) (G0 : Bool) :
    let l1 := level1 (fun k => (f k).g) (fun k => (f k).p) G0
    let l2 := level2 l1 G0
    let l3 := level3 l1 l2 G0
    Signals f G0 l1 l2 l3 (level4 l1 l2 l3 G0) := by
  intro l1 l2 l3
  have groups1 : ∀ k, 2 ≤ k → k ≤ 15 → l1 k = group f k 2 := fun _ => level1_group
  have first : (l1 1).g = carryOut f G0 1 := level1_carry
  have groups2 : ∀ k, 4 ≤ k → k ≤ 15 → l2 k = group f k 4 := fun _ => level2_group groups1
  have second : ∀ k, 2 ≤ k → k ≤ 3 → (l2 k).g = carryOut f G0 k :=
    fun _ => level2_carry groups1 first
  have groups3 : ∀ k, 8 ≤ k → k ≤ 15 → l3 k = group f k 8 := fun _ => level3_group groups2
  have third : ∀ k, 4 ≤ k → k ≤ 7 → (l3 k).g = carryOut f G0 k :=
    fun _ => level3_carry groups2 first second
  exact ⟨groups1, first, groups2, second, groups3, third,
    fun _ => level4_carry groups3 first second third⟩

/-- Every bit of the output is the position's propagate signal and the carry below it. -/
theorem network_eq (f : Nat → Gp) (G0 : Bool) :
    network (fun k => (f k).g) (fun k => (f k).p) G0 =
      ⟨ofBits fun k => (f (k + 1)).p ^^ carryOut f G0 k, carryOut f G0 16⟩ := by
  have signals := network_signals f G0
  unfold network
  dsimp only at signals ⊢
  generalize level1 (fun k => (f k).g) (fun k => (f k).p) G0 = l1 at *
  generalize level2 l1 G0 = l2 at *
  generalize level3 l1 l2 G0 = l3 at *
  generalize level4 l1 l2 l3 G0 = l4 at *
  refine congrArg₂ Sum.mk (BitVec.eq_of_getLsbD_eq fun k hk => ?_) ?_
  · rw [getLsbD_ofBits _ hk, getLsbD_ofBits _ hk]
    obtain rfl | rfl | middle | middle | high :
        k = 0 ∨ k = 1 ∨ (2 ≤ k ∧ k ≤ 3) ∨ (4 ≤ k ∧ k ≤ 7) ∨ 8 ≤ k ∧ k ≤ 15 := by omega
    · rfl
    · rw [← signals.carry1]
      rfl
    · rw [← signals.carry2 k middle.1 middle.2]
      obtain ⟨low, high⟩ := middle
      interval_cases k <;> rfl
    · rw [← signals.carry3 k middle.1 middle.2]
      obtain ⟨low, high⟩ := middle
      interval_cases k <;> rfl
    · rw [← signals.carry4 k high.1 high.2]
      obtain ⟨low, high⟩ := high
      interval_cases k <;> rfl
  · rw [signals.carry4 15 (by decide) (by decide)]
    rfl

end Levels

/-! ## The two adders -/

theorem port_and (X Y : BitVec 16) : port (X &&& Y) = fun k => (adderGp X Y k).g := by
  funext k
  exact BitVec.getLsbD_and

theorem port_xor (X Y : BitVec 16) : port (X ^^^ Y) = fun k => (adderGp X Y k).p := by
  funext k
  exact BitVec.getLsbD_xor

/-- Both adders are the network over the positions of an addition. -/
theorem network_adder (X Y : BitVec 16) (G0 : Bool) :
    network (port (X &&& Y)) (port (X ^^^ Y)) G0 =
      ⟨X + Y + BitVec.setWidth 16 (.ofBool G0), BitVec.carry 16 X Y G0⟩ := by
  rw [port_and, port_xor, network_eq, carryOut_adder]
  refine congrArg₂ Sum.mk (BitVec.eq_of_getLsbD_eq fun k hk => ?_) rfl
  rw [getLsbD_ofBits _ hk, getLsbD_adder G0 X Y hk]

theorem compAdd_eq (X Y : BitVec 16) :
    compAdd X Y = ⟨X + Y, decide (2 ^ 16 ≤ X.toNat + Y.toNat)⟩ := by
  rw [compAdd, network_adder, BitVec.carry_width]
  simp

theorem compSub_eq (X Y : BitVec 16) :
    compSub X Y = ⟨X - Y, decide (2 ^ 16 ≤ X.toNat + (~~~Y).toNat + 1)⟩ := by
  rw [compSub, network_adder, BitVec.carry_width]
  refine congrArg₂ Sum.mk ?_ rfl
  rw [BitVec.sub_eq_add_neg, BitVec.neg_eq_not_add, BitVec.add_assoc]
  rfl

/-- The signals of an adder with the given operands and carry in. -/
def AdderSignals (X Y : BitVec 16) (G0 : Bool) : Prop :=
  let l1 := level1 (port (X &&& Y)) (port (X ^^^ Y)) G0
  let l2 := level2 l1 G0
  let l3 := level3 l1 l2 G0
  Signals (adderGp X Y) G0 l1 l2 l3 (level4 l1 l2 l3 G0)

/-- The two networks add and subtract, and every signal of a level is the group of its span or
the carry of the ripple recurrence. -/
theorem adders_arithmetic (X Y : BitVec 16) :
    ((compAdd X Y).o.toNat = (X.toNat + Y.toNat) % 2 ^ 16 ∧
      ((compAdd X Y).carryout = true ↔ 2 ^ 16 ≤ X.toNat + Y.toNat)) ∧
    ((compSub X Y).o.toNat = (X.toNat + 2 ^ 16 - Y.toNat) % 2 ^ 16 ∧
      ((compSub X Y).carryout = true ↔ Y.toNat ≤ X.toNat)) ∧
    AdderSignals X Y false ∧ AdderSignals X (~~~Y) true := by
  have y := Y.isLt
  refine ⟨⟨?_, ?_⟩, ⟨?_, ?_⟩, ?_, ?_⟩
  · rw [compAdd_eq, BitVec.toNat_add]
  · rw [compAdd_eq, decide_eq_true_eq]
  · rw [compSub_eq, BitVec.toNat_sub]
    omega
  · rw [compSub_eq, decide_eq_true_eq, BitVec.toNat_not]
    omega
  · unfold AdderSignals
    rw [port_and, port_xor]
    exact network_signals (adderGp X Y) false
  · unfold AdderSignals
    rw [port_and, port_xor]
    exact network_signals (adderGp X (~~~Y)) true

end RandomRepo.Alu

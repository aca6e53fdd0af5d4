import Mathlib.Data.BitVec

/-!
Carries from groups of positions.

A position generates a carry or propagates the one below it, and so does a group of positions.
`Gp.comp` joins a group with the one below it; it is associative, which is what a prefix network
uses: the carry out of position `k` is the same through every way to split the positions below
it into groups.  At the end the carries are those of the addition of words.
-/

namespace RandomRepo

/-- Whether a carry is generated, and whether one is propagated. -/
@[ext] structure Gp where
  g : Bool
  p : Bool
  deriving DecidableEq, Repr

/-- The group `hi` above the group `lo`. -/
def Gp.comp (hi lo : Gp) : Gp := ⟨hi.g || (hi.p && lo.g), hi.p && lo.p⟩

theorem Gp.comp_assoc (x y z : Gp) : (x.comp y).comp z = x.comp (y.comp z) := by
  ext
  · simp only [comp, Bool.or_assoc, Bool.and_assoc, Bool.and_or_distrib_left]
  · simp only [comp, Bool.and_assoc]

variable (f : Nat → Gp) (c : Bool)

/-- The carry out of position `k`; positions count from 1. -/
def carryOut : Nat → Bool
  | 0 => c
  | k + 1 => (f (k + 1)).g || ((f (k + 1)).p && carryOut k)

/-- The group of the `n` positions from `k` down. -/
def group : Nat → Nat → Gp
  | _, 0 => ⟨false, true⟩
  | k, n + 1 => (f k).comp (group (k - 1) n)

theorem group_one (k : Nat) : group f k 1 = f k := by
  ext <;> simp [group, Gp.comp]

theorem group_add (k m n : Nat) : group f k (m + n) = (group f k m).comp (group f (k - m) n) := by
  induction m generalizing k with
  | zero =>
    rw [Nat.zero_add]
    ext <;> simp [group, Gp.comp]
  | succ m ih =>
    rw [Nat.succ_add, group, group, ih, Gp.comp_assoc, Nat.sub_sub, Nat.add_comm 1]

theorem carryOut_group {k n : Nat} (inside : n ≤ k) :
    carryOut f c k = ((group f k n).g || ((group f k n).p && carryOut f c (k - n))) := by
  induction n generalizing k with
  | zero => simp [group]
  | succ n ih =>
    obtain ⟨k, rfl⟩ := Nat.exists_eq_add_of_le' (Nat.lt_of_lt_of_le (Nat.succ_pos n) inside)
    rw [carryOut, group, Nat.add_sub_cancel, ih (by omega)]
    simp only [Gp.comp, Nat.add_sub_add_right, Bool.and_or_distrib_left, Bool.or_assoc,
      Bool.and_assoc]

/-! ## Addition -/

variable {w : Nat} (x y : BitVec w)

/-- The word with the given bits. -/
def ofBits (bit : Nat → Bool) : BitVec w := (BitVec.iunfoldr (fun i _ => ((), bit i)) ()).2

theorem getLsbD_ofBits (bit : Nat → Bool) {k : Nat} (hk : k < w) :
    (ofBits bit : BitVec w).getLsbD k = bit k :=
  BitVec.iunfoldr_getLsbD (fun _ => ()) ⟨k, hk⟩ fun _ => rfl

/-- The positions of an addition. -/
def adderGp (k : Nat) : Gp :=
  ⟨x.getLsbD (k - 1) && y.getLsbD (k - 1), x.getLsbD (k - 1) ^^ y.getLsbD (k - 1)⟩

theorem carryOut_adder (k : Nat) : carryOut (adderGp x y) c k = BitVec.carry k x y c := by
  induction k with
  | zero => simp [carryOut]
  | succ k ih =>
    rw [carryOut, ih, BitVec.carry_succ]
    simp only [adderGp, Nat.add_sub_cancel, Bool.atLeastTwo]
    cases x.getLsbD k <;> cases y.getLsbD k <;> cases BitVec.carry k x y c <;> rfl

/-- The bits of a sum. -/
theorem getLsbD_adder {k : Nat} (hk : k < w) :
    (x + y + BitVec.setWidth w (.ofBool c)).getLsbD k =
      ((adderGp x y (k + 1)).p ^^ carryOut (adderGp x y) c k) := by
  rw [BitVec.getLsbD_add_add_bool hk, carryOut_adder, adderGp, Bool.xor_assoc]
  rfl

end RandomRepo

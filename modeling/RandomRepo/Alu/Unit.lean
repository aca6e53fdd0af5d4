import RandomRepo.Alu.Adder

/-!
# The arithmetic logic unit

`ALU.vhd`: two adders, NAND and XOR, a multiplexer for the result and one for the carry, and
the zero bit.  The result is compared with the specification of the project's description.
-/

namespace RandomRepo.Alu

def compNand (X Y : BitVec 16) : BitVec 16 := ~~~(X &&& Y)

def compXor (X Y : BitVec 16) : BitVec 16 := X ^^^ Y

def mux (X1 X2 X3 X4 : BitVec 16) (Sel1 Sel0 : Bool) : BitVec 16 :=
  if Sel1 = false ∧ Sel0 = false then X1
  else if Sel1 = false ∧ Sel0 = true then X2
  else if Sel1 = true ∧ Sel0 = false then X3
  else X4

def mux2 (X1 X2 X3 X4 : Bool) (Sel1 Sel0 : Bool) : Bool :=
  if Sel1 = false then
    if Sel0 = false then X1 else X2
  else
    if Sel0 = false then X3 else X4

def compZero (X : BitVec 16) : Bool := if X.toNat = 0 then true else false

structure Outputs where
  z : Bool
  c : Bool
  r : BitVec 16
  deriving DecidableEq, Repr

def alu (A B : BitVec 16) (S1 S0 : Bool) : Outputs :=
  let sigAdd := compAdd A B
  -- The instance `Substep` is one of `comp_add`.
  let sigSub := compAdd A B
  let sigN := compNand A B
  let sigX := compXor A B
  let R := mux sigAdd.o sigSub.o sigN sigX S1 S0
  { r := R
    c := mux2 sigAdd.carryout sigSub.carryout false false S1 S0
    z := compZero R }

/-- The specification: what the result and the carry have to be. -/
def Specified (A B : BitVec 16) (S1 S0 : Bool) (R : BitVec 16) (C : Bool) : Prop :=
  match S1, S0 with
  | false, false =>
    R.toNat = (A.toNat + B.toNat) % 2 ^ 16 ∧ C = decide (2 ^ 16 ≤ A.toNat + B.toNat)
  | false, true =>
    R.toNat = (A.toNat + 2 ^ 16 - B.toNat) % 2 ^ 16 ∧
      C = decide (2 ^ 16 ≤ A.toNat + (~~~B).toNat + 1)
  | true, false => (∀ i, i < 16 → R.getLsbD i = !(A.getLsbD i && B.getLsbD i)) ∧ C = false
  | true, true => (∀ i, i < 16 → R.getLsbD i = (A.getLsbD i ^^ B.getLsbD i)) ∧ C = false

theorem compZero_iff (X : BitVec 16) : compZero X = true ↔ X.toNat = 0 := by
  unfold compZero
  split_ifs with zero
  · exact iff_of_true rfl zero
  · exact iff_of_false nofun zero

/-- A sum is the difference, with the same carry, only if the second operand is its own negative
and not zero. -/
theorem add_specified_sub (A B : BitVec 16) :
    Specified A B false true (compAdd A B).o (compAdd A B).carryout ↔ B = 0x8000 := by
  have a := A.isLt
  have b := B.isLt
  rw [compAdd_eq]
  unfold Specified
  dsimp only
  rw [BitVec.toNat_add, BitVec.toNat_not, decide_eq_decide, ← BitVec.toNat_inj]
  show _ ↔ B.toNat = 32768
  omega

/-- **The unit.**  It computes what is specified for addition, NAND and XOR; for subtraction it
does so exactly if the second operand is `0x8000`.  The zero bit is always right. -/
theorem alu_specified (A B : BitVec 16) (S1 S0 : Bool) :
    (Specified A B S1 S0 (alu A B S1 S0).r (alu A B S1 S0).c ∧
        ((alu A B S1 S0).z = true ↔ (alu A B S1 S0).r.toNat = 0)) ↔
      (¬ (S1 = false ∧ S0 = true) ∨ B = 0x8000) := by
  have zero : (alu A B S1 S0).z = true ↔ (alu A B S1 S0).r.toNat = 0 := compZero_iff _
  rw [and_iff_left zero]
  cases S1 <;> cases S0
  · refine iff_of_true ?_ (.inl nofun)
    show Specified A B false false (compAdd A B).o (compAdd A B).carryout
    rw [compAdd_eq]
    exact ⟨BitVec.toNat_add A B, rfl⟩
  · refine (add_specified_sub A B).trans ?_
    simp
  · refine iff_of_true ⟨fun i hi => ?_, rfl⟩ (.inl nofun)
    show (compNand A B).getLsbD i = _
    rw [compNand, BitVec.getLsbD_not, BitVec.getLsbD_and, decide_eq_true hi, Bool.true_and]
  · refine iff_of_true ⟨fun i _ => ?_, rfl⟩ (.inl nofun)
    exact BitVec.getLsbD_xor

/-- 5 - 3 gives 8. -/
theorem alu_subtracts_wrong :
    (alu 5 3 false true).r = 8 ∧
      ¬ Specified 5 3 false true (alu 5 3 false true).r (alu 5 3 false true).c := by
  have result : (alu 5 3 false true).r = 8 := by decide +kernel
  refine ⟨result, fun specified => ?_⟩
  have wrong := specified.1
  rw [result] at wrong
  revert wrong
  decide

end RandomRepo.Alu

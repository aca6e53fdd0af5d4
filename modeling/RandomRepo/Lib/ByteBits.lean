import Mathlib.Init

/-!
Bits in a memory of bytes: bit `i` is bit `i % 8` of byte `i / 8`, tested, set and
cleared with the mask `1 << (i % 8)`.
-/

namespace RandomRepo

variable {m m' : Nat → UInt8} {i j : Nat}

/-- The mask of a bit in its byte. -/
def bitMask (i : Nat) : UInt8 := 1 <<< (UInt8.ofNat (i % 8))

def bitAt (m : Nat → UInt8) (i : Nat) : Bool := m (i / 8) &&& bitMask i != 0

def setBit (m : Nat → UInt8) (i : Nat) : Nat → UInt8 := fun x =>
  if x = i / 8 then m x ||| bitMask i else m x

def clearBit (m : Nat → UInt8) (i : Nat) : Nat → UInt8 := fun x =>
  if x = i / 8 then m x &&& ~~~ bitMask i else m x

theorem bitMask_getLsbD (i k : Nat) : (bitMask i).toBitVec.getLsbD k = decide (k = i % 8) := by
  have shift : ∀ s : Fin 8, ∀ k : Fin 8,
      ((1 : UInt8) <<< (UInt8.ofNat s.val)).toBitVec.getLsbD k.val = decide (k = s) := by decide
  by_cases inside : k < 8
  · have := shift ⟨i % 8, Nat.mod_lt _ (by decide)⟩ ⟨k, inside⟩
    simpa [bitMask, Fin.ext_iff] using this
  · rw [BitVec.getLsbD_of_ge _ _ (by omega)]
    simp
    omega

theorem bitAt_eq (m : Nat → UInt8) (i : Nat) :
    bitAt m i = (m (i / 8)).toBitVec.getLsbD (i % 8) := by
  have masked : ∀ k, (m (i / 8) &&& bitMask i).toBitVec.getLsbD k =
      ((m (i / 8)).toBitVec.getLsbD k && decide (k = i % 8)) := by
    intro k
    rw [UInt8.toBitVec_and, BitVec.getLsbD_and, bitMask_getLsbD]
  cases bit : (m (i / 8)).toBitVec.getLsbD (i % 8) with
  | false =>
    have zero : m (i / 8) &&& bitMask i = 0 := by
      refine UInt8.eq_of_toBitVec_eq (BitVec.eq_of_getLsbD_eq fun k _ => ?_)
      rw [masked]
      by_cases here : k = i % 8
      · rw [here, bit]
        simp
      · simp [here]
    rw [bitAt, zero]
    rfl
  | true =>
    have some_ := masked (i % 8)
    rw [bit] at some_
    rw [bitAt, bne_iff_ne]
    intro zero
    rw [zero] at some_
    simp at some_

theorem bitAt_congr (same : m' (i / 8) = m (i / 8)) : bitAt m' i = bitAt m i := by
  rw [bitAt, bitAt, same]

/-- Two bits are in one byte. -/
theorem bit_eq_iff (byte : j / 8 = i / 8) : j % 8 = i % 8 ↔ j = i := by omega

theorem bitAt_setBit (m : Nat → UInt8) (i j : Nat) :
    bitAt (setBit m i) j = (decide (j = i) || bitAt m j) := by
  by_cases byte : j / 8 = i / 8
  · rw [bitAt_eq, bitAt_eq, setBit, if_pos byte, UInt8.toBitVec_or, BitVec.getLsbD_or,
      bitMask_getLsbD, Bool.or_comm, decide_eq_decide.mpr (bit_eq_iff byte)]
  · have other : j ≠ i := fun same => byte (by rw [same])
    rw [bitAt_congr (if_neg byte), decide_eq_false other, Bool.false_or]

theorem bitAt_clearBit (m : Nat → UInt8) (i j : Nat) :
    bitAt (clearBit m i) j = (!decide (j = i) && bitAt m j) := by
  by_cases byte : j / 8 = i / 8
  · have inside : j % 8 < 8 := Nat.mod_lt _ (by decide)
    rw [bitAt_eq, bitAt_eq, clearBit, if_pos byte, UInt8.toBitVec_and, BitVec.getLsbD_and,
      UInt8.toBitVec_not, BitVec.getLsbD_not, bitMask_getLsbD, decide_eq_true inside,
      Bool.true_and, Bool.and_comm, decide_eq_decide.mpr (bit_eq_iff byte)]
  · have other : j ≠ i := fun same => byte (by rw [same])
    rw [bitAt_congr (if_neg byte), decide_eq_false other, Bool.not_false, Bool.true_and]

end RandomRepo

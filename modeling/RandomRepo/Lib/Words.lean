import Mathlib.Init

/-!
Little-endian 32-bit words in a memory of bytes, at any address.
-/

namespace RandomRepo

variable {m m' : Nat → UInt8} {a b v : Nat}

/-- The word whose bytes stand at `a`, `a + 1`, `a + 2` and `a + 3`. -/
def readWord (m : Nat → UInt8) (a : Nat) : Nat :=
  (m a).toNat + 256 * (m (a + 1)).toNat + 65536 * (m (a + 2)).toNat + 16777216 * (m (a + 3)).toNat

def writeWord (m : Nat → UInt8) (a v : Nat) : Nat → UInt8 := fun x =>
  if x = a then UInt8.ofNat v
  else if x = a + 1 then UInt8.ofNat (v / 256)
  else if x = a + 2 then UInt8.ofNat (v / 65536)
  else if x = a + 3 then UInt8.ofNat (v / 16777216)
  else m x

theorem writeWord_of_out {x : Nat} (out : x < a ∨ a + 4 ≤ x) : writeWord m a v x = m x := by
  unfold writeWord
  rw [if_neg (by omega), if_neg (by omega), if_neg (by omega), if_neg (by omega)]

theorem readWord_congr (same : ∀ x, a ≤ x → x < a + 4 → m' x = m x) :
    readWord m' a = readWord m a := by
  unfold readWord
  rw [same a (by omega) (by omega), same (a + 1) (by omega) (by omega),
    same (a + 2) (by omega) (by omega), same (a + 3) (by omega) (by omega)]

theorem readWord_writeWord_of_apart (apart : a + 4 ≤ b ∨ b + 4 ≤ a) :
    readWord (writeWord m a v) b = readWord m b :=
  readWord_congr fun _ _ _ => writeWord_of_out (by omega)

theorem readWord_writeWord (fits : v < 4294967296) : readWord (writeWord m a v) a = v := by
  have bytes : readWord (writeWord m a v) a = v % 256 + 256 * (v / 256 % 256) +
      65536 * (v / 65536 % 256) + 16777216 * (v / 16777216 % 256) := by
    simp [readWord, writeWord]
  omega

theorem readWord_lt : readWord m a < 4294967296 := by
  have h0 := (m a).toNat_lt
  have h1 := (m (a + 1)).toNat_lt
  have h2 := (m (a + 2)).toNat_lt
  have h3 := (m (a + 3)).toNat_lt
  unfold readWord
  omega

end RandomRepo

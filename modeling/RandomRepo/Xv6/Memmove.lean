import Mathlib.Tactic.ByContra
import Mathlib.Tactic.SplitIfs
import RandomRepo.Lib.Copy
import RandomRepo.Xv6.Mmu

/-!
# `memmove`

The kernel's `memmove` (`string.c`) copies downwards if the target starts inside the source.  The
one of the user library (`ulib.c`) always copies upwards, and takes the number of bytes
as an `int`.  Pointers are 32-bit numbers; the ranges do not wrap, though a pointer
may be left at the end of the address space, which is address 0.
-/

namespace RandomRepo.Xv6

/-- The bytes of an address space. -/
abbrev Bytes : Type := Nat → UInt8

/-- `while(n-- > 0) *d++ = *s++;` -/
def moveLoop : Nat → Bytes → Nat → Nat → Bytes
  | 0, mem, _, _ => mem
  | n + 1, mem, d, s => moveLoop n (Function.update mem d (mem s)) (u32 (d + 1)) (u32 (s + 1))

/-- `p - 1` for a pointer. -/
def prevPtr (p : Nat) : Nat := if p = 0 then 4294967295 else p - 1

/-- `while(n-- > 0) *--d = *--s;` -/
def moveBackLoop : Nat → Bytes → Nat → Nat → Bytes
  | 0, mem, _, _ => mem
  | n + 1, mem, d, s =>
    moveBackLoop n (Function.update mem (prevPtr d) (mem (prevPtr s))) (prevPtr d) (prevPtr s)

/-- The result and the memory afterwards. -/
def memmove (mem : Bytes) (dst src n : Nat) : Nat × Bytes :=
  (dst, if src < dst ∧ u32 (src + n) > dst then
      moveBackLoop n mem (u32 (dst + n)) (u32 (src + n))
    else moveLoop n mem dst src)

/-- A `uint` that is passed for an `int`. -/
def intOfUint (n : Nat) : Int := if n < 2147483648 then n else n - 4294967296

/-- With a negative `n` there is no turn. -/
def Ulib.memmove (mem : Bytes) (vdst vsrc : Nat) (n : Int) : Nat × Bytes :=
  (vdst, moveLoop n.toNat mem vdst vsrc)

variable {mem : Bytes} {dst src n : Nat}

theorem prevPtr_succ {a : Nat} (small : a < 4294967296) : prevPtr (u32 (a + 1)) = a := by
  unfold prevPtr u32
  split_ifs
  · omega
  · omega

theorem moveLoop_eq (fits : dst + n ≤ 4294967296) (fits' : src + n ≤ 4294967296) :
    moveLoop n mem dst src = copyUp n mem dst src := by
  induction n generalizing mem dst src with
  | zero => rfl
  | succ n ih =>
    rw [moveLoop, copyUp]
    cases n with
    | zero => rfl
    | succ n =>
      rw [u32_of_lt (by omega), u32_of_lt (by omega), ih (by omega) (by omega)]

theorem moveBackLoop_eq (fits : dst + n ≤ 4294967296) (fits' : src + n ≤ 4294967296) :
    moveBackLoop n mem (u32 (dst + n)) (u32 (src + n)) = copyDown n mem dst src := by
  induction n generalizing mem with
  | zero => rfl
  | succ n ih =>
    have rest := @ih (Function.update mem (dst + n) (mem (src + n))) (by omega) (by omega)
    rw [u32_of_lt (show dst + n < _ by omega), u32_of_lt (show src + n < _ by omega)] at rest
    rw [moveBackLoop, copyDown, ← Nat.add_assoc, ← Nat.add_assoc,
      prevPtr_succ (show dst + n < _ by omega), prevPtr_succ (show src + n < _ by omega)]
    exact rest

/-- The kernel's `memmove` is right wherever the ranges lie. -/
theorem memmove_copied (fits : dst + n ≤ 4294967296) (fits' : src + n ≤ 4294967296) :
    Copied mem dst src n (memmove mem dst src n).2 := by
  unfold memmove
  split_ifs with overlap
  · rw [moveBackLoop_eq fits fits']
    exact copied_copyDown (Nat.le_of_lt overlap.1)
  · rw [moveLoop_eq fits fits']
    refine copied_copyUp ?_
    -- With the target above the source, the end of the source does not wrap.
    by_contra inside
    refine overlap ⟨by omega, ?_⟩
    rw [u32_of_lt (by omega)]
    omega

/-- What `memmove` is for. -/
def MovesBytes (mem : Bytes) (dst src n : Nat) (r : Nat × Bytes) : Prop :=
  r.1 = dst ∧ Copied mem dst src n r.2

/-- Both are right just if the target does not start inside the source, or the source repeats itself
from there on, and the number of bytes is an `int`, or nothing needs to be moved. -/
theorem memmoves_iff (isUint : n < 4294967296) (fits : dst + n ≤ 4294967296)
    (fits' : src + n ≤ 4294967296) :
    (MovesBytes mem dst src n (memmove mem dst src n) ∧
        MovesBytes mem dst src n (Ulib.memmove mem dst src (intOfUint n))) ↔
      if n < 2147483648 then
        dst ≤ src ∨ src + n ≤ dst ∨
          ∀ i, i + (dst - src) < n → mem (src + (i + (dst - src))) = mem (src + i)
      else ∀ i, i < n → mem (dst + i) = mem (src + i) := by
  have kernel : MovesBytes mem dst src n (memmove mem dst src n) := ⟨rfl, memmove_copied fits fits'⟩
  rw [and_iff_right kernel]
  unfold MovesBytes Ulib.memmove
  rw [and_iff_right rfl]
  unfold intOfUint
  split_ifs with isInt
  · rw [Int.toNat_natCast, moveLoop_eq fits fits']
    by_cases apart : dst ≤ src ∨ src + n ≤ dst
    · exact iff_of_true (copied_copyUp apart) (apart.imp_right Or.inl)
    · rw [copied_copyUp_iff (by omega)]
      constructor
      · exact fun repeats => Or.inr (Or.inr repeats)
      · rintro (below | above | repeats)
        · exact absurd (Or.inl below) apart
        · exact absurd (Or.inr above) apart
        · exact repeats
  · rw [show ((n : Int) - 4294967296).toNat = 0 by omega]
    exact ⟨Copied.here, fun same => ⟨same, fun a _ => rfl⟩⟩

theorem memmoves_iff_down :
    MovesBytes UInt8.ofNat 0 1 2 (memmove UInt8.ofNat 0 1 2) ∧
      MovesBytes UInt8.ofNat 0 1 2 (Ulib.memmove UInt8.ofNat 0 1 (intOfUint 2)) :=
  (memmoves_iff (by decide) (by decide) (by decide)).mpr (by simp)

/-- Two bytes are moved up by one: the kernel moves the second, the user library the first twice. -/
theorem ulib_memmove_repeats :
    MovesBytes UInt8.ofNat 1 0 2 (memmove UInt8.ofNat 1 0 2) ∧
      (memmove UInt8.ofNat 1 0 2).2 2 = 1 ∧ (Ulib.memmove UInt8.ofNat 1 0 2).2 2 = 0 ∧
      ¬ MovesBytes UInt8.ofNat 1 0 2 (Ulib.memmove UInt8.ofNat 1 0 2) := by
  refine ⟨⟨rfl, memmove_copied (by decide) (by decide)⟩, by decide, by decide, fun moves => ?_⟩
  exact absurd (moves.2.here 1 (by decide)) (by decide)

end RandomRepo.Xv6

import RandomRepo.Xv6.Reach

/-!
# The size of a process

`fetchint`, `fetchstr` and `argptr` compare user addresses with the size of the
process only, so they keep the kernel's memory out of reach as long as no size
exceeds `kernbase`.  `mmap` adds to the size without a check.
-/

namespace RandomRepo.Xv6

variable {L : Layout} {M : Machine} {i sz addr : Nat} {k₀ k : Kernel} {p : Proc}
  {mem : Nat → UInt8}

/-! ## The checks of arguments -/

end RandomRepo.Xv6

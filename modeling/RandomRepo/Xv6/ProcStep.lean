import RandomRepo.Xv6.ExecImage

/-!
# What a process does to its own memory

The operations of one process on its own address space are `mmap`, `sbrk`,
`exec` and the execution of a load or a store.  `ProcStep` says once what each of
them can do to the process and to physical memory; every invariant of the
address spaces is derived from it by cases.
-/

namespace RandomRepo.Xv6

inductive MemOp
  | mmap (arg : Option CInt)
  | sbrk (arg : Option CInt)
  | exec (file : Option (List UInt8)) (path : List UInt8) (argv : List (List UInt8))
  | access (acc : Access) (va : Nat)

/-- What the process gets to see: the result of a call, or the outcome of an access. -/
inductive Reply
  | word (w : Nat)
  | access (o : Outcome)
  deriving DecidableEq, Repr

def MemOp.run (L : Layout) (op : MemOp) (p : Proc) (m : Kmem) : Except Halt (Reply × Proc × Kmem) :=
  match op with
  | .mmap arg => let (r, p) := sysMmap arg p; .ok (.word r, p, m)
  | .sbrk arg => do
    let (r, p, m) ← sysSbrk L arg p m
    .ok (.word r, p, m)
  | .exec file path argv => do
    let (ok, p, m) ← Xv6.exec L file path argv p m
    .ok (.word (if ok then 0 else minusOne), p, m)
  | .access acc va => do
    let (o, p, m) ← Xv6.access L acc (u32 va) p m
    .ok (.access o, p, m)

/-- What an operation that returns has done. -/
inductive ProcStep (L : Layout) (p : Proc) (m : Kmem) : MemOp → Proc → Kmem → Prop
  | refused {op : MemOp} {m' : Kmem} (moves : Moves L m 0 m' 0) : ProcStep L p m op p m'
  | mmap {size : CInt} (valid : 0 ≤ size.val ∧ size.val % 4096 = 0) :
      ProcStep L p m (.mmap (some size)) { p with sz := uaddInt p.sz size.val } m
  | grow {n : CInt} {pd pd' : Pgdir} {m' : Kmem} {r : Nat} (positive : 0 < n.val)
      (had : p.pgdir = some pd) (alloc : Allocuvm L pd p.sz (uaddInt p.sz n.val) m r pd' m') :
      ProcStep L p m (.sbrk (some n))
        { p with pgdir := some pd', sz := if r = 0 then p.sz else r } m'
  | shrink {n : CInt} {pd pd' : Pgdir} {m' : Kmem} {r : Nat} (negative : n.val < 0)
      (had : p.pgdir = some pd)
      (dealloc : deallocuvm L pd p.sz (uaddInt p.sz n.val) m = .ok (r, pd', m')) :
      ProcStep L p m (.sbrk (some n))
        { p with pgdir := some pd', sz := if r = 0 then p.sz else r } m'
  | fault {acc : Access} {va : Nat} {pd pd' : Pgdir} {m' : Kmem} (had : p.pgdir = some pd)
      (trapped : pd.userPte (u32 va) acc.write = none)
      (fault : Fault L pd (pgrounddown (u32 va)) m true pd' m') :
      ProcStep L p m (.access acc va) { p with pgdir := some pd' } m'
  | store {b : UInt8} {va : Nat} {pd : Pgdir} {e : Pte} (had : p.pgdir = some pd)
      (mapped : pd.userPte (u32 va) true = some e) :
      ProcStep L p m (.access (.store b) va) p (m.write e.ppn (u32 va % pgsize) [b])
  | exec {file : Option (List UInt8)} {path : List UInt8} {argv : List (List UInt8)}
      {old pd : Pgdir} {sz : Nat} {tf : Trapframe} {name : List UInt8} {m' : Kmem}
      (had : p.pgdir = some old) (image : Image L pd sz)
      (moves : Moves L m old.pages m' (pd.pages + old.stranded)) :
      ProcStep L p m (.exec file path argv)
        { p with name := name, pgdir := some pd, sz := sz, tf := tf } m'

variable {L : Layout} {p p' : Proc} {m m' : Kmem} {r : Reply} {op : MemOp} {va : Nat}

theorem Proc.dir_eq_ok {pd : Pgdir} (h : p.dir = .ok pd) : p.pgdir = some pd := by
  unfold Proc.dir at h
  cases had : p.pgdir with
  | none => rw [had] at h; cases h
  | some d => rw [had] at h; cases h; rfl

/-- The two ways `trap` returns from a page fault. -/
theorem trapPgflt_cases {ok : Bool} (h : trapPgflt L va p m = .ok (ok, p', m')) :
    ∃ pd pd', p.pgdir = some pd ∧ p' = { p with pgdir := some pd' } ∧
      pageFaultHandler L pd (pgrounddown va) m = .ok (ok, pd', m') := by
  obtain ⟨pd, had, rest⟩ := bind_ok_iff.mp h
  obtain ⟨⟨ok, pd', m₁⟩, fault, rest⟩ := bind_ok_iff.mp rest
  obtain ⟨-, -, rest⟩ := bind_ok_iff.mp rest
  cases rest
  exact ⟨pd, pd', Proc.dir_eq_ok had, rfl, fault⟩

theorem growproc_cases {n : Int} {ok : Bool} (h : growproc L n p m = .ok (ok, p', m')) :
    (n = 0 ∧ ok = true ∧ p' = p ∧ m' = m) ∨
      (n ≠ 0 ∧ ∃ pd pd' r, p.pgdir = some pd ∧ (ok = true ↔ r ≠ 0) ∧
        p' = { p with pgdir := some pd', sz := if r = 0 then p.sz else r } ∧
        (if 0 < n then allocuvm L pd p.sz (uaddInt p.sz n) m
          else deallocuvm L pd p.sz (uaddInt p.sz n) m) = .ok (r, pd', m')) := by
  unfold growproc at h
  by_cases zero : n = 0
  · rw [if_pos zero] at h
    obtain ⟨-, -, rest⟩ := bind_ok_iff.mp h
    cases rest
    exact .inl ⟨zero, rfl, rfl, rfl⟩
  · rw [if_neg zero] at h
    obtain ⟨pd, had, rest⟩ := bind_ok_iff.mp h
    obtain ⟨⟨sz, pd', m₁⟩, grow, rest⟩ := bind_ok_iff.mp rest
    refine .inr ⟨zero, pd, pd', sz, Proc.dir_eq_ok had, ?_⟩
    dsimp only at rest
    by_cases failed : sz = 0
    · rw [if_pos failed] at rest
      cases rest
      exact ⟨by simp [failed], by rw [if_pos failed], grow⟩
    · rw [if_neg failed] at rest
      obtain ⟨-, -, rest⟩ := bind_ok_iff.mp rest
      cases rest
      exact ⟨by simp [failed], by rw [if_neg failed], grow⟩

theorem MemOp.run_spec (h : op.run L p m = .ok (r, p', m')) : ProcStep L p m op p' m' := by
  cases op with
  | mmap arg =>
    cases arg with
    | none => cases h; exact .refused (.refl _ _ _)
    | some size =>
      simp only [MemOp.run, sysMmap] at h
      split at h
      · cases h; exact .refused (.refl _ _ _)
      · rename_i valid
        cases h
        simp only [pgsize] at valid
        exact .mmap (by omega)
  | sbrk arg =>
    obtain ⟨⟨w, p₁, m₁⟩, call, rest⟩ := bind_ok_iff.mp h
    cases rest
    cases arg with
    | none => cases call; exact .refused (.refl _ _ _)
    | some n =>
      obtain ⟨⟨ok, p₁, m₁⟩, grow, rest⟩ := bind_ok_iff.mp call
      cases rest
      rcases growproc_cases grow with ⟨-, -, rfl, rfl⟩ | ⟨zero, pd, pd', r, had, -, rfl, sized⟩
      · exact .refused (.refl _ _ _)
      · by_cases positive : 0 < n.val
        · rw [if_pos positive] at sized
          exact .grow positive had (allocuvm_spec sized)
        · rw [if_neg positive] at sized
          exact .shrink (by omega) had sized
  | exec file path argv =>
    obtain ⟨⟨ok, p₁, m₁⟩, call, rest⟩ := bind_ok_iff.mp h
    cases rest
    cases exec_spec call with
    | failed moves => exact .refused moves
    | done had image moves => exact .exec had image moves
  | access acc va =>
    obtain ⟨⟨o, p₁, m₁⟩, call, rest⟩ := bind_ok_iff.mp h
    cases rest
    obtain ⟨pd, had, rest⟩ := bind_ok_iff.mp call
    have had := Proc.dir_eq_ok had
    cases mapped : pd.userPte (u32 va) acc.write with
    | some e =>
      rw [mapped] at rest
      cases acc with
      | load => cases rest; exact .refused (.refl _ _ _)
      | store b => cases rest; exact .store had mapped
    | none =>
      rw [mapped] at rest
      obtain ⟨⟨ok, p₂, m₂⟩, trap, rest⟩ := bind_ok_iff.mp rest
      cases rest
      obtain ⟨pd₀, pd', had', rfl, fault⟩ := trapPgflt_cases trap
      rw [had] at had'
      cases had'
      have fault := pageFaultHandler_spec (pgrounddown_lt (u32_lt va))
        (pgrounddown_aligned _) fault
      cases ok with
      | true => exact .fault had mapped fault
      | false =>
        cases fault with
        | outOfMemory _ moves =>
          have same : { p with pgdir := some pd } = p := by rw [← had]
          rw [same]
          exact .refused moves

end RandomRepo.Xv6

import Mathlib.Data.List.GetD
import Mathlib.Logic.Function.Basic
import Mathlib.Tactic.ByContra
import Mathlib.Tactic.SplitIfs
import RandomRepo.Lib.Fuel
import RandomRepo.Lib.Run
import RandomRepo.Lib.Words

/-!
# The table of the processors

`mpinit` of `mp.c` walks over the entries of the configuration table that the firmware left in
memory.  The first byte of an entry is its type, and the type gives its size.  For an unknown type
`ismp` is cleared and the `break` leaves the `switch`, but not the loop around it: the
cursor stays where it is, and the same entry is read again.  So the loop ends just if it meets
known types only.
-/

namespace RandomRepo.Xv6.Mp

def ncpuMax : Nat := 8

/-- `sizeof(struct mpconf)`. -/
def confSize : Nat := 44

def mpproc : UInt8 := 0

def mpbus : UInt8 := 1

def mpioapic : UInt8 := 2

def mpiointr : UInt8 := 3

def mplintr : UInt8 := 4

/-- The floating pointer: where the table is, and whether there is an interrupt mode register. -/
structure Pointer where
  physaddr : Nat
  imcrp : UInt8

/-- The sum of the bytes, as a byte. -/
def sum (addr : Nat → UInt8) : Nat → UInt8
  | 0 => 0
  | len + 1 => sum addr len + addr len

/-- `conf->length`, a 16-bit number. -/
def confLength (conf : Nat → UInt8) : Nat := (conf 4).toNat + 256 * (conf 5).toNat

def version (conf : Nat → UInt8) : UInt8 := conf 6

def lapicaddr (conf : Nat → UInt8) : Nat := readWord conf 36

/-- The table, if the pointer that `mpsearch` found leads to a good one. -/
def mpconfig (mem : Nat → UInt8) (mp : Option Pointer) : Option (Pointer × (Nat → UInt8)) :=
  match mp with
  | none => none
  | some mp =>
    if mp.physaddr = 0 then none
    else
      let conf := fun i => mem (mp.physaddr + i)
      if ¬ (conf 0 = 80 ∧ conf 1 = 67 ∧ conf 2 = 77 ∧ conf 3 = 80) then none
      else if version conf ≠ 1 ∧ version conf ≠ 4 then none
      else if sum conf (confLength conf) ≠ 0 then none
      else some (mp, conf)

/-- The variables of `mpinit`, and what it finds out: the processors, the interrupt controllers.
The cursor is counted from the beginning of the table. -/
structure State where
  ncpu : Nat
  apicid : Nat → UInt8
  ioapicid : UInt8
  lapic : Nat
  ismp : Bool
  p : Nat

/-- The next processor, if there is a place for it. -/
def State.addCpu (s : State) (apicid : UInt8) : State :=
  if s.ncpu < ncpuMax then
    { s with apicid := Function.update s.apicid s.ncpu apicid, ncpu := s.ncpu + 1 }
  else s

/-- The body of the loop: the `switch` on the type of the entry at the cursor. -/
def entry (conf : Nat → UInt8) (s : State) : State :=
  let type := conf s.p
  if type = mpproc then { s.addCpu (conf (s.p + 1)) with p := s.p + 20 }
  else if type = mpioapic then { s with ioapicid := conf (s.p + 1), p := s.p + 8 }
  else if type = mpbus ∨ type = mpiointr ∨ type = mplintr then { s with p := s.p + 8 }
  else { s with ismp := false }

/-- The loop over the entries. -/
def entryLoop (conf : Nat → UInt8) : Nat → State → Option State
  | 0, _ => none
  | fuel + 1, s => if s.p < confLength conf then entryLoop conf fuel (entry conf s) else some s

inductive Panic where
  | expectSmp
  | noSuitableMachine
deriving Repr, DecidableEq

/-- The state in which the loop is entered. -/
def State.begin_ (conf : Nat → UInt8) (s : State) : State :=
  { s with ismp := true, lapic := lapicaddr conf, p := confSize }

/-- `mpinit`, with what was known of the machine before.  The flag says whether the interrupt mode
register is set in the end. -/
def mpinit (mem : Nat → UInt8) (mp : Option Pointer) (s : State) (fuel : Nat) :
    Option (Except Panic (State × Bool)) :=
  match mpconfig mem mp with
  | none => some (.error .expectSmp)
  | some (mp, conf) =>
    (entryLoop conf fuel (s.begin_ conf)).map fun s =>
      if s.ismp = false then .error .noSuitableMachine else .ok (s, decide (mp.imcrp ≠ 0))

/-! ## The walk over the entries -/

section Walk

variable {conf : Nat → UInt8} {s t : State} {p : Nat}

/-- The types of entries that the `switch` has a case for. -/
def Known (type : UInt8) : Prop :=
  type = mpproc ∨ type = mpioapic ∨ type = mpbus ∨ type = mpiointr ∨ type = mplintr

instance (type : UInt8) : Decidable (Known type) := inferInstanceAs (Decidable (_ ∨ _))

/-- The size of an entry of a known type. -/
def entrySize (type : UInt8) : Nat := if type = mpproc then 20 else 8

/-- The places at which entries begin, read off the table from the first one on. -/
inductive EntryAt (conf : Nat → UInt8) : Nat → Prop
  | first : EntryAt conf confSize
  | next {p : Nat} : EntryAt conf p → p < confLength conf → Known (conf p) →
      EntryAt conf (p + entrySize (conf p))

/-- The states in which the condition of the loop is tested. -/
def Visits (conf : Nat → UInt8) : State → State → Prop :=
  Relation.ReflTransGen fun s t => s.p < confLength conf ∧ t = entry conf s

/-- The cursor moves over an entry of a known type. -/
theorem entry_known (known : Known (conf s.p)) :
    (entry conf s).p = s.p + entrySize (conf s.p) := by
  unfold entry entrySize
  dsimp only
  split_ifs with proc ioapic other
  · rfl
  · rfl
  · rfl
  · rcases known with known | known | known
    · exact absurd known proc
    · exact absurd known ioapic
    · exact absurd known other

/-- The cursor stays at an entry of an unknown type. -/
theorem entry_unknown (unknown : ¬ Known (conf s.p)) : (entry conf s).p = s.p := by
  unfold Known at unknown
  push Not at unknown
  obtain ⟨proc, ioapic, bus, iointr, lintr⟩ := unknown
  unfold entry
  dsimp only
  rw [if_neg proc, if_neg ioapic, if_neg (fun other => by
    rcases other with other | other | other
    · exact bus other
    · exact iointr other
    · exact lintr other)]

theorem entrySize_pos (type : UInt8) : 0 < entrySize type := by
  unfold entrySize
  split_ifs
  · decide
  · decide

/-- The loop never ends at an entry of an unknown type. -/
theorem entryLoop_stuck (fuel : Nat) (inside : s.p < confLength conf)
    (unknown : ¬ Known (conf s.p)) : entryLoop conf fuel s = none := by
  induction fuel generalizing s with
  | zero => rfl
  | succ fuel ih =>
    have stays := entry_unknown unknown
    rw [entryLoop, if_pos inside]
    exact ih (by rwa [stays]) (by rwa [stays])

/-- The cursor is at the beginning of an entry. -/
theorem Visits.entryAt (start : s.p = confSize) (visits : Visits conf s t) : EntryAt conf t.p := by
  induction visits with
  | refl =>
    rw [start]
    exact .first
  | @tail u _ _ turn ih =>
    obtain ⟨inside, rfl⟩ := turn
    by_cases known : Known (conf u.p)
    · rw [entry_known known]
      exact ih.next inside known
    · rw [entry_unknown known]
      exact ih

/-- Every entry is visited. -/
theorem EntryAt.visited (start : s.p = confSize) (here : EntryAt conf p) :
    ∃ t, Visits conf s t ∧ t.p = p := by
  induction here with
  | first => exact ⟨s, .refl, start⟩
  | next _ inside known ih =>
    obtain ⟨t, visits, rfl⟩ := ih
    exact ⟨entry conf t, visits.tail ⟨inside, rfl⟩, entry_known known⟩

/-- The loop ends if all types are known. -/
theorem entryLoop_ends (known : ∀ p, EntryAt conf p → p < confLength conf → Known (conf p))
    (here : EntryAt conf s.p) : Ends fun fuel => entryLoop conf fuel s := by
  -- The induction is on the number of bytes after the cursor.
  induction left : confLength conf - s.p using Nat.strongRecOn generalizing s with
  | _ left ih =>
    by_cases inside : s.p < confLength conf
    · have type := known s.p here inside
      have moves := entry_known type
      have size := entrySize_pos (conf s.p)
      have rest := ih (confLength conf - (entry conf s).p) (by omega)
        (by rw [moves]; exact here.next inside type) rfl
      exact rest.turn fun fuel => if_pos inside
    · exact ⟨s, 1, fun fuel more => by
        obtain ⟨fuel, rfl⟩ : ∃ n, fuel = n + 1 := ⟨fuel - 1, by omega⟩
        exact if_neg inside⟩

end Walk

/-! ## Initialization -/

section Init

variable {mem conf : Nat → UInt8} {mp : Option Pointer} {found : Pointer} {s : State}
  {p : Nat}

/-- The loop over the entries of a table, and so `mpinit`, ends; it moves on in every turn, and leads
to the panic if there is an entry of an unknown type. -/
structure Parses (mem : Nat → UInt8) (mp : Option Pointer) (conf : Nat → UInt8) (s : State) :
    Prop where
  ends : Ends (mpinit mem mp s)
  advances : ∀ t, Visits conf (s.begin_ conf) t → t.p < confLength conf → t.p < (entry conf t).p
  unknown : ∀ t, Visits conf (s.begin_ conf) t → t.p < confLength conf → ¬ Known (conf t.p) →
    Settles (mpinit mem mp s) (.error .noSuitableMachine)

/-- The table is parsed just if all its entries are of known types. -/
theorem parses_iff_known (accepted : mpconfig mem mp = some (found, conf)) :
    Parses mem mp conf s ↔ ∀ p, EntryAt conf p → p < confLength conf → Known (conf p) := by
  constructor
  · intro parses p here inside
    by_contra unknown
    obtain ⟨t, visits, rfl⟩ := here.visited (s := s.begin_ conf) rfl
    have moves := parses.advances t visits inside
    rw [entry_unknown unknown] at moves
    exact absurd moves (Nat.lt_irrefl _)
  · intro known
    have type : ∀ t, Visits conf (s.begin_ conf) t → t.p < confLength conf → Known (conf t.p) :=
      fun t visits inside => known t.p (visits.entryAt rfl) inside
    refine ⟨?_, fun t visits inside => ?_, fun t visits inside unknown => ?_⟩
    · obtain ⟨last, settles⟩ := entryLoop_ends (s := s.begin_ conf) known .first
      unfold mpinit
      rw [accepted]
      exact ⟨_, settles.map _⟩
    · rw [entry_known (type t visits inside)]
      have size := entrySize_pos (conf t.p)
      omega
    · exact absurd (type t visits inside) unknown

/-- A memory with a table at 4096. -/
def tableMem (table : List UInt8) (i : Nat) : UInt8 := table.getD (i - 4096) 0

/-- One processor, with 20 zero bytes. -/
def oneProcessor : List UInt8 := [80, 67, 77, 80, 64, 0, 1, 143]

/-- One byte after the header, of no known type. -/
def oddEntry : List UInt8 := [80, 67, 77, 80, 45, 0, 1, 157] ++ List.replicate 36 0 ++ [5]

theorem entryAt_le (here : EntryAt conf p) : confSize ≤ p := by
  induction here with
  | first => exact Nat.le_refl _
  | next _ _ _ ih => exact Nat.le_add_right_of_le ih

/-- The tests of `mpconfig` on a table at 4096. -/
theorem mpconfig_tableMem {table : List UInt8}
    (signature : tableMem table 4096 = 80 ∧ tableMem table 4097 = 67 ∧ tableMem table 4098 = 77 ∧
      tableMem table 4099 = 80) (version_ : tableMem table 4102 = 1)
    (checksum : sum (fun i => tableMem table (4096 + i))
      (confLength fun i => tableMem table (4096 + i)) = 0) :
    mpconfig (tableMem table) (some ⟨4096, 0⟩) =
      some (⟨4096, 0⟩, fun i => tableMem table (4096 + i)) := by
  unfold mpconfig version
  dsimp only
  rw [if_neg (by decide), if_neg (not_not.mpr signature), if_neg (fun other => other.1 version_),
    if_neg (not_not.mpr checksum)]

theorem parses_oneProcessor : ∃ conf,
    mpconfig (tableMem oneProcessor) (some ⟨4096, 0⟩) = some (⟨4096, 0⟩, conf) ∧
      Parses (tableMem oneProcessor) (some ⟨4096, 0⟩) conf ⟨0, fun _ => 0, 0, 0, false, 0⟩ := by
  have accepted : mpconfig (tableMem oneProcessor) (some ⟨4096, 0⟩) =
      some (⟨4096, 0⟩, fun i => tableMem oneProcessor (4096 + i)) :=
    mpconfig_tableMem (by decide) (by decide) (by decide +kernel)
  refine ⟨_, accepted, (parses_iff_known accepted).mpr fun p here _ => Or.inl ?_⟩
  have bound := entryAt_le here
  unfold confSize at bound
  unfold tableMem
  rw [Nat.add_sub_cancel_left]
  exact List.getD_eq_default _ 0 (by
    show 8 ≤ p
    omega)

/-- The table is accepted, and `mpinit` never returns. -/
theorem mpinit_oddEntry : (mpconfig (tableMem oddEntry) (some ⟨4096, 0⟩)).isSome = true ∧
    ∀ s fuel, mpinit (tableMem oddEntry) (some ⟨4096, 0⟩) s fuel = none := by
  have accepted : mpconfig (tableMem oddEntry) (some ⟨4096, 0⟩) =
      some (⟨4096, 0⟩, fun i => tableMem oddEntry (4096 + i)) :=
    mpconfig_tableMem (by decide) (by decide) (by decide +kernel)
  refine ⟨by rw [accepted]; rfl, fun s fuel => ?_⟩
  unfold mpinit
  rw [accepted]
  dsimp only
  rw [entryLoop_stuck fuel (s := s.begin_ _)]
  · rfl
  · show confSize < _
    decide
  · show ¬ Known (tableMem oddEntry (4096 + confSize))
    decide

end Init

end RandomRepo.Xv6.Mp

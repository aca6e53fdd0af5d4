import RandomRepo.Lib.Run
import RandomRepo.Xv6.LogCrash
import Mathlib.Algebra.Order.BigOperators.Group.Finset

/-!
# Space in the log

Operations that run at the same time share one transaction.  `begin_op` admits an
operation if the log has room for `maxopblocks` more blocks of each one that
runs.  Each operation is at a place of its code; the tests of `log_write` are made
without the lock, so they are a step of their own.
-/

namespace RandomRepo.Xv6

/-- Where an operation is.  `logged` are the different blocks it has logged. -/
inductive OpPlace
  | outside
  | inside (logged : List UInt32)
  | testing (logged : List UInt32) (b : UInt32)
  | committing
  | committed
  deriving DecidableEq

/-- `struct log`, and the places of all operations. -/
structure LogSys where
  lh : List UInt32
  outstanding : Int
  committing : Bool
  ops : Nat → OpPlace

inductive LogAct
  | beginOp (i : Nat)
  | logTest (i : Nat) (b : UInt32)
  | logAppend (i : Nat)
  | endOp (i : Nat)
  | commit (i : Nat)
  | reopen (i : Nat)

namespace LogSys

def setOp (s : LogSys) (i : Nat) (x : OpPlace) : LogSys :=
  { s with ops := Function.update s.ops i x }

/-- `begin_op`, once it does not sleep. -/
def beginOp (i : Nat) (s : LogSys) : Option LogSys :=
  if s.committing then none
  else if (s.lh.length : Int) + (s.outstanding + 1) * maxopblocks > logsize then none
  else some ({ s with outstanding := s.outstanding + 1 }.setOp i (.inside []))

/-- The two tests at the start of `log_write`. -/
def logTest (A : LogArea) (i : Nat) (logged : List UInt32) (b : UInt32) (s : LogSys) :
    Except Halt LogSys :=
  if A.Full s.lh then .error (.panic .tooBigTransaction)
  else if s.outstanding < 1 then .error (.panic .logWriteOutside)
  else .ok (s.setOp i (.testing logged b))

/-- The part of `log_write` under the lock. -/
def logAppend (i : Nat) (logged : List UInt32) (b : UInt32) (s : LogSys) : LogSys :=
  { s with lh := absorb b s.lh }.setOp i (.inside (absorb b logged))

/-- `end_op` up to the call of `commit`. -/
def endOp (i : Nat) (s : LogSys) : Except Halt LogSys :=
  let s := { s with outstanding := s.outstanding - 1 }
  if s.committing then .error (.panic .logCommitting)
  else if s.outstanding = 0 then .ok ({ s with committing := true }.setOp i .committing)
  else .ok (s.setOp i .outside)

/-- One step of an operation; `none` if it is not at this place of its code, or sleeps. -/
def act (A : LogArea) (s : LogSys) : LogAct → Option (Except Halt LogSys)
  | .beginOp i =>
    match s.ops i with
    | .outside => (s.beginOp i).map .ok
    | _ => none
  | .logTest i b =>
    match s.ops i with
    | .inside logged => some (s.logTest A i logged b)
    | _ => none
  | .logAppend i =>
    match s.ops i with
    | .testing logged b => some (.ok (s.logAppend i logged b))
    | _ => none
  | .endOp i =>
    match s.ops i with
    | .inside _ => some (s.endOp i)
    | _ => none
  | .commit i =>
    match s.ops i with
    | .committing => some (.ok ({ s with lh := [] }.setOp i .committed))
    | _ => none
  | .reopen i =>
    match s.ops i with
    | .committed => some (.ok ({ s with committing := false }.setOp i .outside))
    | _ => none

def Step (A : LogArea) (s : LogSys) (a : LogAct) (s' : LogSys) : Prop := s.act A a = some (.ok s')

/-- No operation has begun. -/
def init : LogSys := ⟨[], 0, false, fun _ => .outside⟩

/-- An operation logs at most `maxopblocks` different blocks. -/
def Quota (s : LogSys) : LogAct → Prop
  | .logTest i b => ∀ logged, s.ops i = .inside logged → (absorb b logged).length ≤ maxopblocks
  | _ => True

/-- Moreover `begin_op` leaves two blocks of the log unreserved. -/
def Spare (A : LogArea) (s : LogSys) (a : LogAct) : Prop :=
  s.Quota a ∧ ∀ i, a = .beginOp i →
    (s.lh.length : Int) + (s.outstanding + 1) * maxopblocks + 2 ≤ A.size

/-! ## What a step does -/

/-- The steps of the log. -/
inductive Acts (A : LogArea) (s : LogSys) : LogAct → LogSys → Prop
  | beginOp (i : Nat) (at_ : s.ops i = .outside) (waits : s.committing = false)
      (room : (s.lh.length : Int) + (s.outstanding + 1) * maxopblocks ≤ logsize) :
      Acts A s (.beginOp i) ({ s with outstanding := s.outstanding + 1 }.setOp i (.inside []))
  | logTest (i : Nat) (b : UInt32) (logged : List UInt32) (at_ : s.ops i = .inside logged) :
      Acts A s (.logTest i b) (s.setOp i (.testing logged b))
  | logAppend (i : Nat) (b : UInt32) (logged : List UInt32) (at_ : s.ops i = .testing logged b) :
      Acts A s (.logAppend i) (s.logAppend i logged b)
  | endOp (i : Nat) (logged : List UInt32) (at_ : s.ops i = .inside logged)
      (open_ : s.committing = false) (others : s.outstanding - 1 ≠ 0) :
      Acts A s (.endOp i) ({ s with outstanding := s.outstanding - 1 }.setOp i .outside)
  | endLast (i : Nat) (logged : List UInt32) (at_ : s.ops i = .inside logged)
      (open_ : s.committing = false) (last : s.outstanding - 1 = 0) :
      Acts A s (.endOp i)
        ({ s with outstanding := s.outstanding - 1, committing := true }.setOp i .committing)
  | commit (i : Nat) (at_ : s.ops i = .committing) :
      Acts A s (.commit i) ({ s with lh := [] }.setOp i .committed)
  | reopen (i : Nat) (at_ : s.ops i = .committed) :
      Acts A s (.reopen i) ({ s with committing := false }.setOp i .outside)

variable {A : LogArea} {s s' : LogSys} {a : LogAct} {S : Finset Nat} {i : Nat}

theorem Step.acts (step : Step A s a s') : Acts A s a s' := by
  unfold Step act at step
  cases a with
  | beginOp i =>
    dsimp only at step
    split at step
    · rename_i at_
      obtain ⟨s₁, begins, same⟩ := Option.map_eq_some_iff.mp step
      cases same
      unfold LogSys.beginOp at begins
      split_ifs at begins with waits full
      cases begins
      exact .beginOp i at_ (by simpa using waits) (by omega)
    · cases step
  | logTest i b =>
    dsimp only at step
    split at step
    · rename_i logged at_
      have tests := Option.some.inj step
      unfold LogSys.logTest at tests
      split_ifs at tests
      cases tests
      exact .logTest i b logged at_
    · cases step
  | logAppend i =>
    dsimp only at step
    split at step
    · rename_i logged b at_
      cases step
      exact .logAppend i b logged at_
    · cases step
  | endOp i =>
    dsimp only at step
    split at step
    · rename_i logged at_
      have ends := Option.some.inj step
      unfold LogSys.endOp at ends
      dsimp only at ends
      split_ifs at ends with closed last
      · cases ends
        exact .endLast i logged at_ (by simpa using closed) last
      · cases ends
        exact .endOp i logged at_ (by simpa using closed) last
    · cases step
  | commit i =>
    dsimp only at step
    split at step
    · rename_i at_
      cases step
      exact .commit i at_
    · cases step
  | reopen i =>
    dsimp only at step
    split at step
    · rename_i at_
      cases step
      exact .reopen i at_
    · cases step

@[simp] theorem setOp_self (s : LogSys) (i : Nat) (x : OpPlace) : (s.setOp i x).ops i = x := by
  simp [setOp]

theorem setOp_ne {j : Nat} (s : LogSys) (x : OpPlace) (other : j ≠ i) :
    (s.setOp i x).ops j = s.ops j := by
  simp [setOp, other]

end LogSys

/-! ## Operations that are counted -/

/-- The blocks of an operation between `begin_op` and `end_op`. -/
def OpPlace.logged : OpPlace → Option (List UInt32)
  | .inside logged => some logged
  | .testing logged _ => some logged
  | _ => none

def OpPlace.Closing : OpPlace → Prop
  | .committing => True
  | .committed => True
  | _ => False

/-- The operations that are inside after a step, with those in `S` before it. -/
def LogAct.inside (S : Finset Nat) : LogAct → Finset Nat
  | .beginOp i => insert i S
  | .endOp i => S.erase i
  | _ => S

namespace LogSys

variable {A : LogArea} {s s' : LogSys} {a : LogAct} {S : Finset Nat} {i : Nat}

/-- `outstanding` counts the operations in `S`; while one commits there is no other. -/
structure Counted (s : LogSys) (S : Finset Nat) : Prop where
  active : ∀ i, i ∈ S ↔ (s.ops i).logged.isSome
  outstanding : s.outstanding = S.card
  busy : ∀ i, (s.ops i).Closing → s.committing = true
  one : ∀ i j, (s.ops i).Closing → (s.ops j).Closing → i = j
  alone : s.committing = true → S = ∅

/-- What the other operations contribute when one changes its place. -/
theorem Counted.move {x : OpPlace} {t : LogSys} {S' : Finset Nat} (counted : s.Counted S)
    (ops : t.ops = Function.update s.ops i x)
    (mine : i ∈ S' ↔ x.logged.isSome) (others : ∀ j, j ≠ i → (j ∈ S' ↔ j ∈ S))
    (outstanding : t.outstanding = S'.card)
    (closing : x.Closing → t.committing = true ∧ ∀ j, j ≠ i → ¬ (s.ops j).Closing)
    (busy : ∀ j, j ≠ i → (s.ops j).Closing → t.committing = true)
    (alone : t.committing = true → S' = ∅) : t.Counted S' := by
  have here : t.ops i = x := by rw [ops, Function.update_self]
  have there : ∀ j, j ≠ i → t.ops j = s.ops j := fun j other => by
    rw [ops, Function.update_of_ne other]
  refine ⟨fun j => ?_, outstanding, fun j hj => ?_, fun j k hj hk => ?_, alone⟩
  · by_cases at_ : j = i
    · subst at_
      rw [here, mine]
    · rw [there j at_, others j at_]
      exact counted.active j
  · by_cases at_ : j = i
    · subst at_
      rw [here] at hj
      exact (closing hj).1
    · rw [there j at_] at hj
      exact busy j at_ hj
  · by_cases atJ : j = i <;> by_cases atK : k = i
    · rw [atJ, atK]
    · subst atJ
      rw [here] at hj
      rw [there k atK] at hk
      exact absurd hk ((closing hj).2 k atK)
    · subst atK
      rw [here] at hk
      rw [there j atJ] at hj
      exact absurd hj ((closing hk).2 j atJ)
    · rw [there j atJ] at hj
      rw [there k atK] at hk
      exact counted.one j k hj hk

theorem Counted.step (counted : s.Counted S) (acts : Acts A s a s') :
    s'.Counted (a.inside S) := by
  cases acts with
  | beginOp i at_ waits _ =>
    have new : i ∉ S := by
      rw [counted.active, at_]
      exact Bool.false_ne_true
    refine counted.move (i := i) (x := .inside []) rfl ?_ ?_ ?_ nofun ?_ ?_
    · exact ⟨fun _ => rfl, fun _ => Finset.mem_insert_self i S⟩
    · intro j other
      exact ⟨fun h => Finset.mem_of_mem_insert_of_ne h other, Finset.mem_insert_of_mem⟩
    · show s.outstanding + 1 = _
      rw [LogAct.inside, Finset.card_insert_of_notMem new, counted.outstanding]
      rfl
    · exact fun j _ closing => counted.busy j closing
    · intro closed
      have closed : s.committing = true := closed
      rw [waits] at closed
      cases closed
  | logTest i b logged at_ =>
    refine counted.move (i := i) (x := .testing logged b) rfl ?_ (fun _ _ => Iff.rfl)
      counted.outstanding nofun (fun j _ closing => counted.busy j closing) counted.alone
    show i ∈ S ↔ _
    rw [counted.active, at_]
    rfl
  | logAppend i b logged at_ =>
    refine counted.move (i := i) (x := .inside (absorb b logged)) rfl ?_ (fun _ _ => Iff.rfl)
      counted.outstanding nofun (fun j _ closing => counted.busy j closing) counted.alone
    show i ∈ S ↔ _
    rw [counted.active, at_]
    rfl
  | endOp i logged at_ open_ others =>
    have mine : i ∈ S := by rw [counted.active, at_]; rfl
    refine counted.move (i := i) (x := .outside) rfl ?_ ?_ ?_ nofun ?_ ?_
    · exact ⟨fun h => absurd rfl (Finset.ne_of_mem_erase h), nofun⟩
    · intro j other
      exact ⟨Finset.mem_of_mem_erase, Finset.mem_erase_of_ne_of_mem other⟩
    · show s.outstanding - 1 = _
      have := Finset.card_erase_add_one mine
      rw [LogAct.inside, counted.outstanding]
      omega
    · exact fun j _ closing => counted.busy j closing
    · intro closed
      have closed : s.committing = true := closed
      rw [open_] at closed
      cases closed
  | endLast i logged at_ open_ last =>
    have mine : i ∈ S := by rw [counted.active, at_]; rfl
    have card := Finset.card_erase_add_one mine
    have total := counted.outstanding
    have quiet : ∀ j, ¬ (s.ops j).Closing := by
      intro j closing
      have := counted.busy j closing
      rw [open_] at this
      cases this
    refine counted.move (i := i) (x := .committing) rfl ?_ ?_ ?_ ?_ ?_ ?_
    · exact ⟨fun h => absurd rfl (Finset.ne_of_mem_erase h), nofun⟩
    · intro j other
      exact ⟨Finset.mem_of_mem_erase, Finset.mem_erase_of_ne_of_mem other⟩
    · show s.outstanding - 1 = _
      rw [LogAct.inside]
      omega
    · exact fun _ => ⟨rfl, fun j _ => quiet j⟩
    · exact fun j _ closing => absurd closing (quiet j)
    · intro _
      rw [LogAct.inside]
      exact Finset.card_eq_zero.mp (by omega)
  | commit i at_ =>
    have closing : (s.ops i).Closing := by rw [at_]; trivial
    refine counted.move (i := i) (x := .committed) rfl ?_ (fun _ _ => Iff.rfl)
      counted.outstanding ?_ (fun j _ closing => counted.busy j closing) counted.alone
    · show i ∈ S ↔ _
      rw [counted.active, at_]
      rfl
    · exact fun _ => ⟨counted.busy i closing, fun j other h => other (counted.one j i h closing)⟩
  | reopen i at_ =>
    have closing : (s.ops i).Closing := by rw [at_]; trivial
    refine counted.move (i := i) (x := .outside) rfl ?_ (fun _ _ => Iff.rfl)
      counted.outstanding nofun ?_ nofun
    · show i ∈ S ↔ _
      rw [counted.active, at_]
      rfl
    · exact fun j other h => absurd (counted.one j i h closing) other


/-! ## Blocks that are reserved -/

/-- How many different blocks the operation has logged. -/
def used (x : OpPlace) : Nat := (x.logged.getD []).length

/-- The blocks that the operations in `S` may still log. -/
def reserve (ops : Nat → OpPlace) (S : Finset Nat) : Nat :=
  ∑ j ∈ S, (maxopblocks - used (ops j))

theorem reserve_update (ops : Nat → OpPlace) {x : OpPlace} (mine : i ∈ S) :
    reserve (Function.update ops i x) S + (maxopblocks - used (ops i)) =
      reserve ops S + (maxopblocks - used x) := by
  have rest : ∑ j ∈ S.erase i, (maxopblocks - used (Function.update ops i x j)) =
      ∑ j ∈ S.erase i, (maxopblocks - used (ops j)) := by
    refine Finset.sum_congr rfl fun j member => ?_
    rw [Function.update_of_ne (Finset.ne_of_mem_erase member)]
  have new := Finset.sum_erase_add S (fun j => maxopblocks - used (Function.update ops i x j)) mine
  have old := Finset.sum_erase_add S (fun j => maxopblocks - used (ops j)) mine
  simp only [Function.update_self] at new
  unfold reserve
  omega

theorem reserve_erase (ops : Nat → OpPlace) (x : OpPlace) (S : Finset Nat) (i : Nat) :
    reserve (Function.update ops i x) (S.erase i) ≤ reserve ops S := by
  refine le_trans (le_of_eq (Finset.sum_congr rfl fun j member => ?_))
    (Finset.sum_le_sum_of_subset (Finset.erase_subset i S))
  rw [Function.update_of_ne (Finset.ne_of_mem_erase member)]

theorem reserve_le (ops : Nat → OpPlace) (S : Finset Nat) :
    reserve ops S ≤ S.card * maxopblocks :=
  Finset.sum_le_card_nsmul S _ _ fun _ _ => Nat.sub_le _ _

theorem absorb_length_of_mem {b : UInt32} {lh : List UInt32} (member : b ∈ lh) :
    (absorb b lh).length = lh.length := by
  induction lh with
  | nil => cases member
  | cons x lh ih =>
    rw [absorb]
    split_ifs with here
    · rfl
    · rcases List.mem_cons.mp member with rfl | later
      · exact absurd rfl here
      · rw [List.length_cons, ih later, List.length_cons]

theorem absorb_length_of_notMem {b : UInt32} {lh : List UInt32} (new : b ∉ lh) :
    (absorb b lh).length = lh.length + 1 := by
  induction lh with
  | nil => rfl
  | cons x lh ih =>
    have other : x ≠ b := fun here => new (by rw [here]; exact List.mem_cons_self)
    rw [absorb, if_neg other, List.length_cons,
      ih fun later => new (List.mem_cons_of_mem _ later), List.length_cons]

/-- What is logged and what may still be logged leaves two blocks of the log. -/
structure Reserved (A : LogArea) (s : LogSys) (S : Finset Nat) : Prop where
  listed : ∀ i logged, (s.ops i).logged = some logged → ∀ b ∈ logged, b ∈ s.lh
  quota : ∀ i logged b, s.ops i = .testing logged b → (absorb b logged).length ≤ maxopblocks
  room : s.lh.length + reserve s.ops S + 2 ≤ A.size

/-- The clauses about single operations, when one of them changes its place. -/
theorem Reserved.move {x : OpPlace} {t : LogSys} {S' : Finset Nat} (reserved : s.Reserved A S)
    (ops : t.ops = Function.update s.ops i x) (more : ∀ b ∈ s.lh, b ∈ t.lh)
    (listed : ∀ logged, x.logged = some logged → ∀ b ∈ logged, b ∈ t.lh)
    (quota : ∀ logged b, x = .testing logged b → (absorb b logged).length ≤ maxopblocks)
    (room : t.lh.length + reserve t.ops S' + 2 ≤ A.size) : t.Reserved A S' := by
  refine ⟨fun j logged hj b hb => ?_, fun j logged b hj => ?_, room⟩
  · rw [ops] at hj
    by_cases at_ : j = i
    · subst at_
      rw [Function.update_self] at hj
      exact listed logged hj b hb
    · rw [Function.update_of_ne at_] at hj
      exact more b (reserved.listed j logged hj b hb)
  · rw [ops] at hj
    by_cases at_ : j = i
    · subst at_
      rw [Function.update_self] at hj
      exact quota logged b hj
    · rw [Function.update_of_ne at_] at hj
      exact reserved.quota j logged b hj

theorem Reserved.step (reserved : s.Reserved A S) (counted : s.Counted S)
    (spare : s.Spare A a) (acts : Acts A s a s') : s'.Reserved A (a.inside S) := by
  have max : maxopblocks = 10 := rfl
  cases acts with
  | beginOp i at_ waits _ =>
    have new : i ∉ S := by
      rw [counted.active, at_]
      exact Bool.false_ne_true
    have room := spare.2 i rfl
    have bound := reserve_le s.ops S
    refine reserved.move (i := i) (x := .inside []) rfl (fun _ h => h) ?_ nofun ?_
    · intro logged none_ b hb
      cases none_
      cases hb
    · have grown : reserve (Function.update s.ops i (.inside [])) (insert i S) =
          maxopblocks + reserve s.ops S := by
        unfold reserve
        rw [Finset.sum_insert new, Function.update_self]
        refine congrArg (maxopblocks + ·) (Finset.sum_congr rfl fun j hj => ?_)
        rw [Function.update_of_ne (ne_of_mem_of_not_mem hj new)]
      show s.lh.length + reserve (Function.update s.ops i (.inside [])) (insert i S) + 2 ≤ _
      rw [counted.outstanding, max] at room
      rw [max] at grown bound
      omega
  | logTest i b logged at_ =>
    have mine : i ∈ S := by rw [counted.active, at_]; rfl
    have quota := spare.1 logged at_
    refine reserved.move (i := i) (x := .testing logged b) rfl (fun _ h => h) ?_ ?_ ?_
    · intro logged' same
      cases same
      exact reserved.listed i logged (by rw [at_]; rfl)
    · intro logged' b' same
      cases same
      exact quota
    · have same := reserve_update s.ops (x := .testing logged b) mine
      rw [at_] at same
      have := reserved.room
      show s.lh.length + reserve (Function.update s.ops i (.testing logged b)) S + 2 ≤ _
      simp only [used, OpPlace.logged] at same
      omega
  | logAppend i b logged at_ =>
    have mine : i ∈ S := by rw [counted.active, at_]; rfl
    have quota := reserved.quota i logged b at_
    have listed : ∀ c ∈ logged, c ∈ s.lh := reserved.listed i logged (by rw [at_]; rfl)
    refine reserved.move (i := i) (x := .inside (absorb b logged)) rfl
      (fun c h => mem_absorb.mpr (.inr h)) ?_ nofun ?_
    · intro logged' same c hc
      cases same
      rcases mem_absorb.mp hc with rfl | old
      · exact mem_absorb.mpr (.inl rfl)
      · exact mem_absorb.mpr (.inr (listed c old))
    · have same := reserve_update s.ops (x := .inside (absorb b logged)) mine
      rw [at_] at same
      have room := reserved.room
      show (absorb b s.lh).length +
        reserve (Function.update s.ops i (.inside (absorb b logged))) S + 2 ≤ _
      simp only [used, OpPlace.logged, Option.getD_some] at same
      by_cases old : b ∈ s.lh
      · rw [absorb_length_of_mem old]
        have longer : logged.length ≤ (absorb b logged).length := by
          by_cases mine : b ∈ logged
          · exact Nat.le_of_eq (absorb_length_of_mem mine).symm
          · rw [absorb_length_of_notMem mine]
            exact Nat.le_succ _
        omega
      · rw [absorb_length_of_notMem old]
        rw [absorb_length_of_notMem fun mine => old (listed b mine)] at quota same
        omega
  | endOp i logged at_ open_ others =>
    refine reserved.move (i := i) (x := .outside) rfl (fun _ h => h) nofun nofun ?_
    have less := reserve_erase s.ops .outside S i
    have := reserved.room
    show s.lh.length + reserve (Function.update s.ops i .outside) (S.erase i) + 2 ≤ _
    omega
  | endLast i logged at_ open_ last =>
    refine reserved.move (i := i) (x := .committing) rfl (fun _ h => h) nofun nofun ?_
    have less := reserve_erase s.ops .committing S i
    have := reserved.room
    show s.lh.length + reserve (Function.update s.ops i .committing) (S.erase i) + 2 ≤ _
    omega
  | commit i at_ =>
    have none_ : S = ∅ := counted.alone (counted.busy i (by rw [at_]; trivial))
    subst none_
    refine ⟨fun j logged hj => ?_, fun j logged b hj => ?_, ?_⟩
    · by_cases here : j = i
      · subst here
        rw [setOp_self] at hj
        cases hj
      · rw [setOp_ne _ _ here] at hj
        have inside : j ∈ (∅ : Finset Nat) := by
          rw [counted.active]
          exact Option.isSome_iff_exists.mpr ⟨logged, hj⟩
        cases inside
    · by_cases here : j = i
      · subst here
        rw [setOp_self] at hj
        cases hj
      · rw [setOp_ne _ _ here] at hj
        exact reserved.quota j logged b hj
    · have := reserved.room
      show 0 + 0 + 2 ≤ _
      omega
  | reopen i at_ =>
    have none_ : S = ∅ := counted.alone (counted.busy i (by rw [at_]; trivial))
    subst none_
    exact reserved.move (i := i) (x := .outside) rfl (fun _ h => h) nofun nofun reserved.room

/-! ## Runs -/

/-- `s` is reached from the start by steps that the guard admits. -/
def Reaches (A : LogArea) (guard : LogSys → LogAct → Prop) (s : LogSys) : Prop :=
  Run (Step A) guard init s

theorem counted_init : init.Counted ∅ :=
  ⟨fun _ => ⟨nofun, nofun⟩, rfl, nofun, nofun, fun _ => rfl⟩

theorem Reaches.reserved (run : Reaches A (Spare A) s) (big : 2 ≤ A.size) :
    ∃ S, s.Counted S ∧ s.Reserved A S := by
  refine Run.invariant run (fun s => ∃ S, s.Counted S ∧ s.Reserved A S)
    ⟨∅, counted_init, nofun, nofun, big⟩ ?_
  intro s a s' inv spare step
  obtain ⟨S, counted, reserved⟩ := inv
  exact ⟨_, counted.step step.acts, reserved.step counted spare step.acts⟩

/-- **Space in the log.**  On the disk that `mkfs` lays out, if every operation logs at most
`maxopblocks` different blocks and `begin_op` leaves two blocks unreserved, then `log_write` never
panics and the log holds what is logged.  A commit runs only when no operation is outstanding. -/
theorem log_space (run : Reaches mkfsLog (Spare mkfsLog) s) :
    (∀ i b logged, s.ops i = .inside logged →
      ∃ s', s.act mkfsLog (.logTest i b) = some (.ok s')) ∧
    s.lh.length ≤ mkfsLog.size - 1 ∧
    ∀ i, s.ops i = .committing → s.outstanding = 0 := by
  have size : mkfsLog.size = 30 := rfl
  have lines : logsize = 30 := rfl
  obtain ⟨S, counted, reserved⟩ := run.reserved (by decide)
  have room := reserved.room
  refine ⟨fun i b logged at_ => ?_, by omega, fun i at_ => ?_⟩
  · have mine : i ∈ S := by rw [counted.active, at_]; rfl
    have some_ := Finset.card_pos.mpr ⟨i, mine⟩
    have total := counted.outstanding
    refine ⟨s.setOp i (.testing logged b), ?_⟩
    unfold act LogSys.logTest
    dsimp only
    rw [at_]
    dsimp only
    rw [if_neg (by unfold LogArea.Full; omega), if_neg (by omega)]
  · have none_ : S = ∅ := counted.alone (counted.busy i (by rw [at_]; trivial))
    rw [counted.outstanding, none_]
    rfl

/-! ## Scripts -/

/-- The quota as a test. -/
def withinQuota (s : LogSys) : LogAct → Bool
  | .logTest i b =>
    match s.ops i with
    | .inside logged => decide ((absorb b logged).length ≤ maxopblocks)
    | _ => true
  | _ => true

theorem withinQuota_iff : s.withinQuota a = true ↔ s.Quota a := by
  cases a with
  | logTest i b =>
    unfold withinQuota Quota
    dsimp only
    cases at_ : s.ops i <;> simp
  | _ => simp [withinQuota, Quota]

/-- A step that passes a test. -/
def next (A : LogArea) (test : LogSys → LogAct → Bool) (s : LogSys) (a : LogAct) : Option LogSys :=
  if test s a then
    match s.act A a with
    | some (.ok s') => some s'
    | _ => none
  else none

theorem next_sound {A : LogArea} {test : LogSys → LogAct → Bool} {s s' : LogSys} {a : LogAct}
    (h : next A test s a = some s') : test s a = true ∧ Step A s a s' := by
  unfold next at h
  split_ifs at h with passes
  refine ⟨passes, ?_⟩
  split at h
  · rename_i done
    cases h
    exact done
  · cases h

/-- Operation `i` logs the blocks from `b` on. -/
def logBlocks (i b n : Nat) : List LogAct :=
  (List.range n).flatMap fun j => [.logTest i (.ofNat (b + j)), .logAppend i]

/-- The guard with two spare blocks as a test. -/
def spares (s : LogSys) (a : LogAct) : Bool :=
  s.withinQuota a && match a with
    | .beginOp _ => decide ((s.lh.length : Int) + (s.outstanding + 1) * maxopblocks + 2 ≤ mkfsLog.size)
    | _ => true

theorem spare_of_spares (test : s.spares a = true) : Spare mkfsLog s a := by
  obtain ⟨quota, room⟩ := Bool.and_eq_true_iff.mp test
  refine ⟨withinQuota_iff.mp quota, ?_⟩
  rintro i rfl
  exact of_decide_eq_true room

/-- Two operations overlap and log some of the same blocks.  One has ended, and the other can go on. -/
theorem log_space_two : ∃ s, Reaches mkfsLog (Spare mkfsLog) s ∧
    s.lh = [100, 101, 102, 103, 104, 105, 106] ∧ s.outstanding = 1 ∧
    s.ops 1 = .inside [103, 104, 105, 106] ∧
    (∃ s', s.act mkfsLog (.logTest 1 107) = some (.ok s')) ∧ s.lh.length ≤ mkfsLog.size - 1 := by
  have steps : (follow (next mkfsLog spares) ([.beginOp 0, .beginOp 1] ++ logBlocks 0 100 5 ++
      logBlocks 1 103 4 ++ [.endOp 0]) init).any (fun s => decide
        (s.lh = [100, 101, 102, 103, 104, 105, 106] ∧ s.outstanding = 1 ∧
          s.ops 1 = .inside [103, 104, 105, 106])) = true := by
    decide +kernel
  obtain ⟨s, run, shape⟩ := Run.follow_any (Step mkfsLog) (Spare mkfsLog)
    (fun _ _ _ done => (next_sound done).imp spare_of_spares id) steps
  obtain ⟨lh, outstanding, inside⟩ := of_decide_eq_true shape
  obtain ⟨writes, room, -⟩ := log_space run
  exact ⟨s, run, lh, outstanding, inside, writes 1 107 _ inside, room⟩

/-! ## Three operations at once -/

/-- Three operations begin and log `n` blocks together, each at most ten. -/
def threeOps (n : Nat) : List LogAct :=
  [.beginOp 0, .beginOp 1, .beginOp 2] ++ logBlocks 0 100 10 ++ logBlocks 1 110 (min (n - 10) 9) ++
    logBlocks 2 120 (n - 19)

def panics : Option (Except Halt LogSys) → Bool
  | some (.error (.panic .tooBigTransaction)) => true
  | _ => false

theorem panics_eq {r : Option (Except Halt LogSys)} (h : panics r = true) :
    r = some (.error (.panic .tooBigTransaction)) := by
  unfold panics at h
  split at h
  · rfl
  · cases h

/-- Three operations log 29 blocks.  The next block, the tenth of the second one, is too many for
`log_write`.  If two operations make the tests when there are 28 blocks, both pass, and
the log has no room for what they log. -/
theorem three_operations_panic :
    (∃ s, Reaches mkfsLog Quota s ∧ s.Quota (.logTest 1 119) ∧
      s.act mkfsLog (.logTest 1 119) = some (.error (.panic .tooBigTransaction))) ∧
    ∃ s, Reaches mkfsLog Quota s ∧ mkfsLog.size - 1 < s.lh.length := by
  have full : (follow (next mkfsLog withinQuota) (threeOps 29) init).any (fun s =>
      s.withinQuota (.logTest 1 119) && panics (s.act mkfsLog (.logTest 1 119))) = true := by
    decide +kernel
  have beyond : (follow (next mkfsLog withinQuota) (threeOps 28 ++ [.logTest 1 119, .logTest 2 129,
      .logAppend 1, .logAppend 2]) init).any (fun s => decide (29 < s.lh.length)) = true := by
    decide +kernel
  have sound : ∀ s a s', next mkfsLog withinQuota s a = some s' → s.Quota a ∧ Step mkfsLog s a s' :=
    fun s a s' done => (next_sound done).imp withinQuota_iff.mp id
  constructor
  · obtain ⟨s, run, test⟩ := Run.follow_any _ _ sound full
    obtain ⟨quota, panic⟩ := Bool.and_eq_true_iff.mp test
    exact ⟨s, run, withinQuota_iff.mp quota, panics_eq panic⟩
  · obtain ⟨s, run, long⟩ := Run.follow_any _ _ sound beyond
    exact ⟨s, run, of_decide_eq_true long⟩

end LogSys

end RandomRepo.Xv6

import RandomRepo.Lib.SlotTable
import RandomRepo.Xv6.Mmu

/-!
# Directory entries and their names

The string functions of `string.c` that directories use, and the contents of a directory:
the list of its entries, so that an offset is a position in the list.

A `char *` is the list of the bytes it points to; past the end of the list stands a NUL.
The name in an entry has 14 bytes and need not have a NUL.  `nameKey` is what two
names have to have in common for `namecmp` to return 0.
-/

namespace RandomRepo.Xv6

/-- The panics of `fs.c` and `sysfile.c`. -/
inductive FsPanic
  | igetNoInodes | ilock | ilockNoType | iunlock | iallocNoInodes | dirlookupNotDir | dirlink
  | unlinkNlink | unlinkWritei | createDots | createDirlink
  deriving DecidableEq, Repr

def dirsiz : Nat := 14

/-- Entries in the largest directory: `MAXFILE*BSIZE / sizeof(struct dirent)`. -/
def maxEntries : Nat := (12 + 512 / 4) * 512 / 16

/-- "." and "..". -/
def dot : List UInt8 := [46]

def dotdot : List UInt8 := [46, 46]

/-! ## Strings -/

def strncmp : List UInt8 → List UInt8 → Nat → Int
  | _, _, 0 => 0
  | p, q, n + 1 =>
    if p.headD 0 ≠ 0 ∧ p.headD 0 = q.headD 0 then strncmp p.tail q.tail n
    else (p.headD 0).toNat - (q.headD 0).toNat

/-- The `n` bytes that are written. -/
def strncpy : List UInt8 → Nat → List UInt8
  | _, 0 => []
  | t, n + 1 =>
    if t.headD 0 = 0 then 0 :: List.replicate n 0
    else t.headD 0 :: strncpy t.tail n

def namecmp (s t : List UInt8) : Int := strncmp s t dirsiz

/-- The first `n` bytes, up to a NUL. -/
def stringKey (n : Nat) (t : List UInt8) : List UInt8 := (t.take n).takeWhile (· ≠ 0)

def nameKey (t : List UInt8) : List UInt8 := stringKey dirsiz t

theorem stringKey_succ (n : Nat) (t : List UInt8) :
    stringKey (n + 1) t = if t.headD 0 = 0 then [] else t.headD 0 :: stringKey n t.tail := by
  cases t with
  | nil => rfl
  | cons c t =>
    unfold stringKey
    rw [List.take_succ_cons, List.headD_cons, List.tail_cons]
    by_cases nul : c = 0
    · rw [if_pos nul, List.takeWhile_cons_of_neg (by simpa using nul)]
    · rw [if_neg nul, List.takeWhile_cons_of_pos (by simpa using nul)]

theorem strncmp_eq_zero_iff (n : Nat) (p q : List UInt8) :
    strncmp p q n = 0 ↔ stringKey n p = stringKey n q := by
  induction n generalizing p q with
  | zero => simp [strncmp, stringKey]
  | succ n ih =>
    rw [strncmp, stringKey_succ, stringKey_succ]
    by_cases nul : p.headD 0 = 0
    · rw [if_neg (fun both => both.1 nul), if_pos nul, nul]
      by_cases other : q.headD 0 = 0
      · rw [if_pos other, other]
        exact ⟨fun _ => rfl, fun _ => rfl⟩
      · rw [if_neg other]
        refine ⟨fun zero => absurd ?_ other, nofun⟩
        apply UInt8.toNat_inj.mp
        have : (0 : UInt8).toNat = 0 := rfl
        omega
    · rw [if_neg nul]
      by_cases same : p.headD 0 = q.headD 0
      · rw [if_pos ⟨nul, same⟩, if_neg (same ▸ nul), ih, same]
        exact ⟨fun tails => by rw [tails], fun both => (List.cons.inj both).2⟩
      · rw [if_neg (fun both => same both.2)]
        refine ⟨fun zero => absurd (UInt8.toNat_inj.mp (by omega)) same, fun keys => ?_⟩
        split_ifs at keys
        exact absurd (List.cons.inj keys).1 same

theorem namecmp_eq_zero_iff (s t : List UInt8) : namecmp s t = 0 ↔ nameKey s = nameKey t :=
  strncmp_eq_zero_iff dirsiz s t

theorem length_strncpy (t : List UInt8) (n : Nat) : (strncpy t n).length = n := by
  induction n generalizing t with
  | zero => rfl
  | succ n ih =>
    rw [strncpy]
    split_ifs
    · rw [List.length_cons, List.length_replicate]
    · rw [List.length_cons, ih]

theorem stringKey_strncpy (t : List UInt8) (n : Nat) : stringKey n (strncpy t n) = stringKey n t := by
  induction n generalizing t with
  | zero => rfl
  | succ n ih =>
    rw [stringKey_succ, stringKey_succ n t, strncpy]
    by_cases nul : t.headD 0 = 0
    · rw [if_pos nul, if_pos nul]
      rfl
    · rw [if_neg nul, if_neg nul, List.headD_cons, if_neg nul, List.tail_cons, ih]

/-! ## Entries -/

structure Dirent where
  /-- A free entry has number 0. -/
  inum : UInt16
  name : { bytes : List UInt8 // bytes.length = dirsiz }
  deriving DecidableEq, Repr

namespace Dirent

/-- The entry that `dirlink` writes; the number is cut to a `ushort`. -/
def mk_ (name : List UInt8) (inum : Nat) : Dirent :=
  ⟨.ofNat inum, strncpy name dirsiz, length_strncpy name dirsiz⟩

/-- The entry that `sys_unlink` writes. -/
def zero : Dirent := ⟨0, List.replicate dirsiz 0, List.length_replicate⟩

/-- What stands for a live entry when names are compared. -/
def key (de : Dirent) : Option (List UInt8) :=
  if de.inum = 0 then none else some (nameKey de.name.val)

theorem key_eq_some {de : Dirent} {k : List UInt8} :
    de.key = some k ↔ de.inum ≠ 0 ∧ nameKey de.name.val = k := by
  unfold key
  split_ifs with free
  · exact ⟨nofun, fun both => absurd free both.1⟩
  · rw [Option.some.injEq]
    exact ⟨fun same => ⟨free, same⟩, And.right⟩

theorem nameKey_mk_ (name : List UInt8) (inum : Nat) :
    nameKey (mk_ name inum).name.val = nameKey name :=
  stringKey_strncpy name dirsiz

theorem inum_mk_ (name : List UInt8) {inum : Nat} (small : inum < 65536) :
    (mk_ name inum).inum.toNat = inum :=
  UInt16.toNat_ofNat_of_lt' small

theorem key_mk_ {name : List UInt8} {inum : Nat} (pos : 0 < inum) (small : inum < 65536) :
    (mk_ name inum).key = some (nameKey name) := by
  refine key_eq_some.mpr ⟨fun zero => ?_, nameKey_mk_ name inum⟩
  have := inum_mk_ name small
  rw [zero] at this
  have : (0 : UInt16).toNat = 0 := rfl
  omega

end Dirent

/-! ## Directories -/

/-- The loop of `dirlookup` from position `off` on: the position of the entry and its number. -/
def lookupLoop (name : List UInt8) : Nat → List Dirent → Option (Nat × UInt16)
  | _, [] => none
  | off, de :: rest =>
    if de.inum = 0 then lookupLoop name (off + 1) rest
    else if namecmp name de.name.val = 0 then some (off, de.inum)
    else lookupLoop name (off + 1) rest

def dirlookup (dp : List Dirent) (name : List UInt8) : Option (Nat × UInt16) :=
  lookupLoop name 0 dp

/-- The second loop of `dirlink`: an empty entry, or the end of the directory. -/
def emptySlot (dp : List Dirent) : Nat := dp.findIdx fun de => de.inum = 0

/-- No entry holds the name. -/
def Absent (dp : List Dirent) (k : List UInt8) : Prop :=
  ∀ (off : Nat) (de : Dirent), dp[off]? = some de → de.key ≠ some k

variable {dp : List Dirent} {name t : List UInt8} {off : Nat} {n : UInt16}

theorem lookupLoop_cons (name : List UInt8) (off : Nat) (de : Dirent) (rest : List Dirent) :
    lookupLoop name off (de :: rest) =
      if de.key = some (nameKey name) then some (off, de.inum)
      else lookupLoop name (off + 1) rest := by
  rw [lookupLoop]
  by_cases free : de.inum = 0
  · rw [if_pos free, if_neg (fun same => (Dirent.key_eq_some.mp same).1 free)]
  · rw [if_neg free]
    by_cases same : namecmp name de.name.val = 0
    · rw [if_pos same,
        if_pos (Dirent.key_eq_some.mpr ⟨free, ((namecmp_eq_zero_iff _ _).mp same).symm⟩)]
    · rw [if_neg same, if_neg fun both => same
        ((namecmp_eq_zero_iff _ _).mpr (Dirent.key_eq_some.mp both).2.symm)]

theorem lookupLoop_none {rest : List Dirent} :
    lookupLoop name off rest = none ↔ Absent rest (nameKey name) := by
  induction rest generalizing off with
  | nil => exact ⟨fun _ => nofun, fun _ => rfl⟩
  | cons de rest ih =>
    rw [lookupLoop_cons]
    split_ifs with here
    · exact ⟨nofun, fun absent => absurd here (absent 0 de rfl)⟩
    · refine ih.trans ⟨fun absent j b hb => ?_, fun absent j b hb => absent (j + 1) b hb⟩
      cases j with
      | zero =>
        cases hb
        exact here
      | succ j => exact absent j b hb

theorem lookupLoop_some {rest : List Dirent} {pos : Nat}
    (found : lookupLoop name off rest = some (pos, n)) :
    ∃ j de, pos = off + j ∧ rest[j]? = some de ∧ de.key = some (nameKey name) ∧ de.inum = n := by
  induction rest generalizing off with
  | nil => cases found
  | cons de rest ih =>
    rw [lookupLoop_cons] at found
    split_ifs at found with here
    · cases found
      exact ⟨0, de, rfl, rfl, here, rfl⟩
    · obtain ⟨j, de', rfl, at_, key, number⟩ := ih found
      exact ⟨j + 1, de', by omega, at_, key, number⟩

theorem dirlookup_none : dirlookup dp name = none ↔ Absent dp (nameKey name) := lookupLoop_none

theorem dirlookup_some (found : dirlookup dp name = some (off, n)) :
    ∃ de, dp[off]? = some de ∧ de.key = some (nameKey name) ∧ de.inum = n := by
  obtain ⟨j, de, rfl, at_, key, number⟩ := lookupLoop_some found
  rw [Nat.zero_add]
  exact ⟨de, at_, key, number⟩

theorem lookupLoop_first {rest : List Dirent} {j : Nat} {de : Dirent} (at_ : rest[j]? = some de)
    (key : de.key = some (nameKey name))
    (first : ∀ l b, l < j → rest[l]? = some b → b.key ≠ some (nameKey name)) :
    lookupLoop name off rest = some (off + j, de.inum) := by
  induction rest generalizing off j with
  | nil => cases at_
  | cons b rest ih =>
    rw [lookupLoop_cons]
    cases j with
    | zero =>
      cases at_
      rw [if_pos key]
      rfl
    | succ j =>
      rw [if_neg (first 0 b (Nat.succ_pos j) rfl),
        ih at_ fun l c lt => first (l + 1) c (Nat.succ_lt_succ lt)]
      rw [Nat.add_right_comm, Nat.add_assoc]

theorem dirlookup_first {de : Dirent} (at_ : dp[off]? = some de)
    (key : de.key = some (nameKey name))
    (first : ∀ l b, l < off → dp[l]? = some b → b.key ≠ some (nameKey name)) :
    dirlookup dp name = some (off, de.inum) := by
  rw [dirlookup, lookupLoop_first at_ key first, Nat.zero_add]

/-- Distinct names: any entry that holds the name is the one found. -/
theorem dirlookup_eq (distinct : Distinct Dirent.key dp) {de : Dirent} (at_ : dp[off]? = some de)
    (key : de.key = some (nameKey name)) : dirlookup dp name = some (off, de.inum) := by
  refine dirlookup_first at_ key fun l b lt at' key' => ?_
  have := distinct l off b de _ at' at_ key' key
  omega

theorem emptySlot_le (dp : List Dirent) : emptySlot dp ≤ dp.length := List.findIdx_le_length

/-- The directory grows only if every entry is in use. -/
theorem emptySlot_free {de : Dirent} (at_ : dp[emptySlot dp]? = some de) : de.key = none := by
  obtain ⟨inside, rfl⟩ := List.getElem?_eq_some_iff.mp at_
  have free := List.findIdx_getElem (w := inside)
  exact if_pos (of_decide_eq_true free)

/-! ## Changes -/

section Changes

variable {inum : Nat}

/-- `dirlink` and the scans: the name is absent, the entry goes to a free slot or to the end. -/
theorem distinct_link (distinct : Distinct Dirent.key dp) (absent : Absent dp (nameKey name))
    (bound : off ≤ dp.length) (pos : 0 < inum) (small : inum < 65536) :
    Distinct Dirent.key (put dp off (.mk_ name inum)) := by
  refine distinct.put bound fun j de k _ at_ key new => ?_
  rw [Dirent.key_mk_ pos small] at new
  cases new
  exact absent j de at_ key

theorem dirlookup_link (distinct : Distinct Dirent.key dp) (absent : Absent dp (nameKey name))
    (bound : off ≤ dp.length) (free : ∀ de, dp[off]? = some de → de.key = none) (pos : 0 < inum)
    (small : inum < 65536) (t : List UInt8) :
    dirlookup (put dp off (.mk_ name inum)) t =
      if nameKey t = nameKey name then some (off, (Dirent.mk_ name inum).inum)
      else dirlookup dp t := by
  have distinct' := distinct_link distinct absent bound pos small
  split_ifs with same
  · refine dirlookup_eq distinct' ?_ ((Dirent.key_mk_ pos small).trans (by rw [same]))
    rw [getElem?_put bound, if_pos rfl]
  · cases found : dirlookup dp t with
    | none =>
      refine dirlookup_none.mpr fun j de at_ key => ?_
      rw [getElem?_put bound] at at_
      split_ifs at at_
      · cases at_
        rw [Dirent.key_mk_ pos small] at key
        exact same (Option.some.inj key).symm
      · exact dirlookup_none.mp found j de at_ key
    | some r =>
      obtain ⟨j, n⟩ := r
      obtain ⟨de, at_, key, rfl⟩ := dirlookup_some found
      refine dirlookup_eq distinct' ?_ key
      rw [getElem?_put bound, if_neg, at_]
      rintro rfl
      rw [free de at_] at key
      cases key

theorem distinct_clear (distinct : Distinct Dirent.key dp) (inside : off < dp.length) :
    Distinct Dirent.key (put dp off .zero) :=
  distinct.put (Nat.le_of_lt inside) fun _ _ _ _ _ _ impossible => nomatch impossible

theorem dirlookup_clear (distinct : Distinct Dirent.key dp) {de : Dirent}
    (at_ : dp[off]? = some de) (key : de.key = some (nameKey name)) (t : List UInt8) :
    dirlookup (put dp off .zero) t =
      if nameKey t = nameKey name then none else dirlookup dp t := by
  have inside : off < dp.length := (List.getElem?_eq_some_iff.mp at_).1
  have distinct' := distinct_clear distinct inside
  split_ifs with same
  · refine dirlookup_none.mpr fun j de' at' key' => ?_
    rw [getElem?_put (Nat.le_of_lt inside)] at at'
    split_ifs at at' with here
    · cases at'
      cases key'
    · exact here (distinct j off de' de _ at' at_ (key'.trans (by rw [same])) key)
  · cases found : dirlookup dp t with
    | none =>
      refine dirlookup_none.mpr fun j de' at' key' => ?_
      rw [getElem?_put (Nat.le_of_lt inside)] at at'
      split_ifs at at'
      · cases at'
        cases key'
      · exact dirlookup_none.mp found j de' at' key'
    | some r =>
      obtain ⟨j, n⟩ := r
      obtain ⟨de', at', key', rfl⟩ := dirlookup_some found
      refine dirlookup_eq distinct' ?_ key'
      rw [getElem?_put (Nat.le_of_lt inside), if_neg, at']
      rintro rfl
      rw [at_] at at'
      cases at'
      exact same (Option.some.inj (key'.symm.trans key))

end Changes

end RandomRepo.Xv6

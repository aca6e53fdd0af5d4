import RandomRepo.Xv6.VolumeFile

/-!
# Truncating a file

`itrunc` frees the blocks of a file.  The entries of a block of block numbers stay where they
are while their blocks are freed: the inode in memory gives up all of them at once, and they
are loose until each is marked as free.
-/

namespace RandomRepo.Xv6.Volume

variable {sb : Superblock} {node : Nat → Inode} {s t : Vol} {ip ip' : Inode} {bp : Data}
  {inum ia i j n : Nat} {k : Fin 13}

/-- Nothing but the bitmap has changed. -/
def OnlyBitmap (sb : Superblock) (s t : Vol) : Prop :=
  ∀ x, x < sb.bmapstart ∨ sb.dataStart ≤ x → t.disk x = s.disk x

theorem OnlyBitmap.trans {u : Vol} (first : OnlyBitmap sb s t) (second : OnlyBitmap sb t u) :
    OnlyBitmap sb s u :=
  fun x outside => (second x outside).trans (first x outside)

theorem Vol.free_onlyBitmap {b : Nat} (below : b < sb.size) : OnlyBitmap sb s (s.free sb b) := by
  intro x outside
  have lower := bblock_lt_dataStart below
  have start := bmapstart_le_bblock sb b
  exact Vol.write_other _ _ (by omega)

/-! ## The direct blocks -/

/-- The block of a direct slot is freed, and the slot cleared. -/
theorem slot_freed (valid : sb.Valid) (owned : Owned sb s.disk (Function.update node inum ip) ∅)
    (number : inum < sb.ninodes) (direct : k ≠ indirect) (some_ : ip.addrs k ≠ 0) :
    bfree sb [] (ip.addrs k).toNat s = .ok ((), s.free sb (ip.addrs k).toNat) ∧
      Owned sb (s.free sb (ip.addrs k).toNat).disk (Function.update node inum (ip.setAddr k 0)) ∅ ∧
      OnlyBitmap sb s (s.free sb (ip.addrs k).toNat) := by
  have cell : cellOf k = k.val := if_neg direct
  have self : ∀ ip : Inode, Function.update node inum ip inum = ip := fun _ => Function.update_self ..
  have full : slot s.disk ip k.val = (ip.addrs k).toNat := by rw [← cell, slot_cellOf]
  have positive : (ip.addrs k).toNat ≠ 0 := fun zero => some_ (addrs_eq_zero_iff.mpr zero)
  have pulled := owned.pull (Function.update node inum (ip.setAddr k 0)) {(inum, k.val)}
    (by
      rintro n i here
      obtain ⟨rfl, rfl⟩ := Prod.mk.inj (Set.mem_singleton_iff.mp here)
      rw [self, ← cell, slot_cellOf, Inode.setAddr_same]
      rfl)
    (by
      intro n i _ outside
      by_cases same : n = inum
      · subst same
        rw [self, self]
        exact slot_setAddr_direct direct fun here => outside (by rw [here]; rfl)
      · rw [Function.update_of_ne same, Function.update_of_ne same])
  have loose : (∅ : Set Nat) ∪ {u | ∃ c ∈ ({(inum, k.val)} : Set (Nat × Nat)),
      held sb s.disk (Function.update node inum ip) c = some u} = {(ip.addrs k).toNat} := by
    ext u
    constructor
    · rintro (wrong | ⟨c, here, holds⟩)
      · exact absurd wrong (Set.notMem_empty _)
      · rw [Set.mem_singleton_iff.mp here] at holds
        have value := (held_eq_some.mp holds).2.1
        rw [self, full] at value
        exact value.symm
    · rintro rfl
      refine .inr ⟨_, rfl, held_eq_some.mpr ⟨number, ?_, positive⟩⟩
      rw [self, full]
  rw [loose] at pulled
  have below := (pulled.loose_used (Set.mem_singleton _)).2.1
  refine ⟨pulled.bfree_loose valid (Set.mem_singleton _) (fun _ wrong => nomatch wrong), ?_,
    Vol.free_onlyBitmap below⟩
  have freed := pulled.free (Set.mem_singleton _)
  rwa [Set.sdiff_self] at freed

theorem itruncDirect_run (valid : sb.Valid) (number : inum < sb.ninodes)
    (owned : Owned sb s.disk (Function.update node inum ip) ∅) (range : i + n ≤ ndirect) :
    ∃ ip' t, itruncDirect sb n i ip s = .ok (ip', t) ∧
      Owned sb t.disk (Function.update node inum ip') ∅ ∧ OnlyBitmap sb s t ∧
      (∀ k : Fin 13, ip'.addrs k = if i ≤ k.val ∧ k.val < i + n then 0 else ip.addrs k) ∧
      ip' = { ip with addrs := ip'.addrs } := by
  have near : ndirect = 12 := rfl
  induction n generalizing i ip s with
  | zero =>
    refine ⟨ip, s, rfl, owned, fun _ _ => rfl, fun k => ?_, rfl⟩
    rw [if_neg (by omega)]
  | succ n ih =>
    have index : (slotIndex i).val = i := Nat.mod_eq_of_lt (by omega)
    have direct : slotIndex i ≠ indirect := by
      intro same
      have value : (slotIndex i).val = 12 := congrArg Fin.val same
      omega
    by_cases empty : ip.addrs (slotIndex i) = 0
    · obtain ⟨ip', t, run, owned', frame, slots, fields⟩ := ih owned (show i + 1 + n ≤ ndirect by omega)
      refine ⟨ip', t, ?_, owned', frame, fun k => ?_, fields⟩
      · rw [itruncDirect, if_pos empty]
        exact run
      · rw [slots k]
        by_cases here : k = slotIndex i
        · rw [here, index, if_neg (by omega), if_pos (by omega)]
          exact empty
        · have other : k.val ≠ i := fun same => here (Fin.ext (same.trans index.symm))
          by_cases later : i + 1 ≤ k.val ∧ k.val < i + 1 + n
          · rw [if_pos later, if_pos (by omega)]
          · rw [if_neg later, if_neg (by omega)]
    · obtain ⟨free, owned₁, frame₁⟩ := slot_freed valid owned number direct empty
      obtain ⟨ip', t, run, owned', frame, slots, fields⟩ := ih owned₁ (show i + 1 + n ≤ ndirect by omega)
      refine ⟨ip', t, ?_, owned', frame₁.trans frame, fun k => ?_, fields⟩
      · rw [itruncDirect, if_neg empty]
        exact bind_run_iff.mpr ⟨_, _, free, run⟩
      · rw [slots k]
        by_cases here : k = slotIndex i
        · rw [here, index, if_neg (by omega), if_pos (by omega), Inode.setAddr_same]
          rfl
        · have other : k.val ≠ i := fun same => here (Fin.ext (same.trans index.symm))
          rw [Inode.setAddr_other _ _ here]
          by_cases later : i + 1 ≤ k.val ∧ k.val < i + 1 + n
          · rw [if_pos later, if_pos (by omega)]
          · rw [if_neg later, if_neg (by omega)]

/-! ## The blocks behind the block of block numbers -/

/-- The block of block numbers at `ia` and the blocks of its entries from `j` on. -/
def looseFrom (bp : Data) (ia j : Nat) : Set Nat :=
  {u | u = ia ∨ ∃ i, j ≤ i ∧ i < nindirect ∧ readWord bp (4 * i) = u ∧ u ≠ 0}

theorem looseFrom_end : looseFrom bp ia nindirect = {ia} := by
  ext u
  constructor
  · rintro (here | ⟨i, after, before, -⟩)
    · exact here
    · omega
  · exact .inl

theorem looseFrom_empty (none_ : readWord bp (4 * j) = 0) :
    looseFrom bp ia (j + 1) = looseFrom bp ia j := by
  ext u
  refine or_congr_right ⟨?_, ?_⟩
  · rintro ⟨i, after, rest⟩
    exact ⟨i, by omega, rest⟩
  · rintro ⟨i, after, before, entry, some_⟩
    refine ⟨i, ?_, before, entry, some_⟩
    by_contra early
    obtain rfl : i = j := by omega
    exact some_ (entry.symm.trans none_)

/-- The entries are different blocks, and none is the block of block numbers. -/
structure Entries (bp : Data) (ia : Nat) : Prop where
  distinct : ∀ a b, a < nindirect → b < nindirect → readWord bp (4 * a) = readWord bp (4 * b) →
    readWord bp (4 * a) ≠ 0 → a = b
  apart : ∀ a, a < nindirect → readWord bp (4 * a) ≠ 0 → readWord bp (4 * a) ≠ ia

theorem looseFrom_next (entries : Entries bp ia) (inside : j < nindirect)
    (some_ : readWord bp (4 * j) ≠ 0) :
    looseFrom bp ia j \ {readWord bp (4 * j)} = looseFrom bp ia (j + 1) := by
  ext u
  constructor
  · rintro ⟨here | ⟨i, after, before, entry, filled⟩, other⟩
    · exact .inl here
    · refine .inr ⟨i, ?_, before, entry, filled⟩
      by_contra early
      obtain rfl : i = j := by omega
      exact other entry.symm
  · rintro (rfl | ⟨i, after, before, entry, filled⟩)
    · exact ⟨.inl rfl, fun same => entries.apart j inside some_ same.symm⟩
    · refine ⟨.inr ⟨i, by omega, before, entry, filled⟩, fun same => ?_⟩
      have equal : readWord bp (4 * j) = readWord bp (4 * i) := by
        rw [entry]
        exact (Set.mem_singleton_iff.mp same).symm
      have index := entries.distinct j i inside before equal some_
      omega

theorem itruncIndirect_run (valid : sb.Valid) (entries : Entries bp ia)
    (owned : Owned sb s.disk node (looseFrom bp ia j)) (range : j + n = nindirect) :
    ∃ t, itruncIndirect sb ia bp n j s = .ok ((), t) ∧ Owned sb t.disk node {ia} ∧
      OnlyBitmap sb s t := by
  induction n generalizing j s with
  | zero =>
    obtain rfl : j = nindirect := by omega
    rw [looseFrom_end] at owned
    exact ⟨s, rfl, owned, fun _ _ => rfl⟩
  | succ n ih =>
    rw [itruncIndirect]
    by_cases empty : readWord bp (4 * j) = 0
    · rw [← looseFrom_empty empty] at owned
      obtain ⟨t, run, owned', frame⟩ := ih owned (by omega)
      refine ⟨t, ?_, owned', frame⟩
      rw [if_neg fun some_ => some_ empty]
      exact run
    · have inHand : readWord bp (4 * j) ∈ looseFrom bp ia j :=
        .inr ⟨j, Nat.le_refl _, by omega, rfl, empty⟩
      have table := (owned.loose_used (.inl rfl : ia ∈ looseFrom bp ia j)).1
      have below := (owned.loose_used inHand).2.1
      have freed := owned.free inHand
      rw [looseFrom_next entries (by omega) empty] at freed
      obtain ⟨t, run, owned', frame⟩ := ih freed (by omega)
      refine ⟨t, ?_, owned', (Vol.free_onlyBitmap below).trans frame⟩
      rw [if_pos empty]
      refine bind_run_iff.mpr ⟨_, _, owned.bfree_loose valid inHand fun x member => ?_, run⟩
      rw [List.mem_singleton.mp member]
      exact table

/-- The block of block numbers and all behind it are given up by the inode. -/
theorem table_pulled (owned : Owned sb s.disk (Function.update node inum ip) ∅)
    (number : inum < sb.ninodes) (some_ : ip.addrs indirect ≠ 0) :
    Owned sb s.disk (Function.update node inum (ip.setAddr indirect 0))
        (looseFrom (s.disk (ip.addrs indirect).toNat) (ip.addrs indirect).toNat 0) ∧
      Entries (s.disk (ip.addrs indirect).toNat) (ip.addrs indirect).toNat := by
  have near : ndirect = 12 := rfl
  have count : nindirect = 128 := rfl
  have size : maxfile = 140 := rfl
  have self : ∀ ip : Inode, Function.update node inum ip inum = ip := fun _ => Function.update_self ..
  have positive : (ip.addrs indirect).toNat ≠ 0 := fun zero => some_ (addrs_eq_zero_iff.mpr zero)
  have cleared : (ip.setAddr indirect 0).addrs indirect = 0 := Inode.setAddr_same ..
  have entry : ∀ i, i < nindirect → slot s.disk ip (ndirect + i) =
      readWord (s.disk (ip.addrs indirect).toNat) (4 * i) := by
    intro i inside
    rw [slot_entry (by omega) (by omega) some_, Nat.add_sub_cancel_left]
  have pulled := owned.pull (Function.update node inum (ip.setAddr indirect 0))
    {c | c.1 = inum ∧ ndirect ≤ c.2}
    (by
      rintro n i ⟨rfl, far⟩
      rw [self]
      by_cases inside : i < maxfile
      · exact slot_entry_none far inside cleared
      · by_cases last : i = maxfile
        · rw [last, slot_table, cleared]
          rfl
        · exact slot_beyond (by omega))
    (by
      intro n i _ outside
      by_cases same : n = inum
      · subst same
        have direct : i < ndirect := by
          by_contra far
          exact outside ⟨rfl, Nat.le_of_not_lt far⟩
        rw [self, self, slot_direct direct, slot_direct direct]
        refine congrArg UInt32.toNat (ip.setAddr_other 0 fun wrong => ?_)
        have value : i % 13 = 12 := congrArg Fin.val wrong
        omega
      · rw [Function.update_of_ne same, Function.update_of_ne same])
  have loose : (∅ : Set Nat) ∪ {u | ∃ c ∈ ({c | c.1 = inum ∧ ndirect ≤ c.2} : Set (Nat × Nat)),
      held sb s.disk (Function.update node inum ip) c = some u} =
        looseFrom (s.disk (ip.addrs indirect).toNat) (ip.addrs indirect).toNat 0 := by
    ext u
    constructor
    · rintro (wrong | ⟨⟨n, i⟩, ⟨rfl, far⟩, holds⟩)
      · exact absurd wrong (Set.notMem_empty _)
      · obtain ⟨-, value, filled⟩ := held_eq_some.mp holds
        dsimp only at far
        rw [self] at value
        by_cases inside : i < maxfile
        · refine .inr ⟨i - ndirect, Nat.zero_le _, by omega, ?_, filled⟩
          rw [← entry _ (by omega), Nat.add_sub_cancel' far]
          exact value
        · by_cases last : i = maxfile
          · rw [last, slot_table] at value
            exact .inl value.symm
          · rw [slot_beyond (by omega)] at value
            exact absurd value.symm filled
    · rintro (rfl | ⟨i, -, before, value, filled⟩)
      · refine .inr ⟨(inum, maxfile), ⟨rfl, show ndirect ≤ maxfile by decide⟩,
          held_eq_some.mpr ⟨number, ?_, positive⟩⟩
        rw [self, slot_table]
      · refine .inr ⟨(inum, ndirect + i), ⟨rfl, Nat.le_add_right ..⟩,
          held_eq_some.mpr ⟨number, ?_, filled⟩⟩
        rw [self, entry i before]
        exact value
  rw [loose] at pulled
  refine ⟨pulled, fun a b inA inB same filled => ?_, fun a inA filled same => ?_⟩
  · have cells := owned.once (n := inum) (j := ndirect + b) (m := inum) (i := ndirect + a) number number
      (by rw [self, entry b inB, ← same]; exact filled)
      (by rw [self, entry a inA, entry b inB]; exact same)
    omega
  · have cells := owned.once (n := inum) (j := maxfile) (m := inum) (i := ndirect + a) number number
      (by rw [self, slot_table]; exact positive)
      (by rw [self, entry a inA, slot_table]; exact same)
    omega

theorem itruncTable_run (valid : sb.Valid)
    (owned : Owned sb s.disk (Function.update node inum ip) ∅) (number : inum < sb.ninodes) :
    ∃ ip' t, itruncTable sb ip s = .ok (ip', t) ∧
      Owned sb t.disk (Function.update node inum ip') ∅ ∧ OnlyBitmap sb s t ∧
      (∀ k, ip'.addrs k = if k = indirect then 0 else ip.addrs k) ∧
      ip' = { ip with addrs := ip'.addrs } := by
  unfold itruncTable
  by_cases none_ : ip.addrs indirect = 0
  · rw [if_pos none_]
    refine ⟨ip, s, rfl, owned, fun _ _ => rfl, fun k => ?_, rfl⟩
    split_ifs with table
    · rw [table, none_]
    · rfl
  · rw [if_neg none_]
    obtain ⟨pulled, entries⟩ := table_pulled owned number none_
    obtain ⟨t₁, run, owned₁, frame⟩ := itruncIndirect_run valid entries pulled (Nat.zero_add _)
    have inHand := Set.mem_singleton (ip.addrs indirect).toNat
    have below := (owned₁.loose_used inHand).2.1
    have small := valid.small
    have freed := owned₁.free inHand
    rw [Set.sdiff_self] at freed
    refine ⟨ip.setAddr indirect 0, _, bind_run_iff.mpr ⟨_, _, bread_run List.not_mem_nil (by omega),
      bind_run_iff.mpr ⟨_, _, run, bind_run_iff.mpr ⟨_, _, owned₁.bfree_loose valid inHand
        (fun _ wrong => nomatch wrong), rfl⟩⟩⟩, freed, frame.trans (Vol.free_onlyBitmap below),
      fun k => ?_, rfl⟩
    split_ifs with table
    · rw [table, Inode.setAddr_same]
      rfl
    · exact ip.setAddr_other 0 table

/-- The inode after its blocks were freed. -/
def Inode.truncated (ip : Inode) : Inode := { ip with size := 0, addrs := fun _ => 0 }

/-- The disk is consistent, one inode is as given, and all others have kept their content. -/
structure Replaced (sb : Superblock) (inum : Nat) (ip : Inode) (s t : Vol) : Prop where
  consistent : Consistent sb t.disk
  inode : dinode sb t.disk inum = ip
  others : ∀ m, m < sb.ninodes → m ≠ inum → dinode sb t.disk m = dinode sb s.disk m ∧
    content t.disk (dinode sb t.disk m) = content s.disk (dinode sb s.disk m)

/-- An inode without blocks is written back after its blocks were freed. -/
theorem Owned.replaced (valid : sb.Valid) (consistent : Consistent sb s.disk)
    (number : inum < sb.ninodes) (zero : ∀ k, ip.addrs k = 0) (none_ : ip.fileSize = 0)
    (owned : Owned sb t.disk (Function.update (dinode sb s.disk) inum ip) ∅)
    (frame : OnlyBitmap sb s t) (logged : List Nat) :
    Replaced sb inum ip s ⟨setInode sb t.disk inum ip, logged⟩ := by
  have inodes : ∀ n, n < sb.ninodes → dinode sb t.disk n = dinode sb s.disk n :=
    fun n number' => dinode_congr (frame _ (.inl (valid.inodes n number')))
  have self : Function.update (dinode sb s.disk) inum ip inum = ip := Function.update_self ..
  have selfLen : Function.update (fun n => blocksOf (dinode sb s.disk n).fileSize) inum 0 inum = 0 :=
    Function.update_self ..
  have sound : Sound sb t.disk (Function.update (dinode sb s.disk) inum ip)
      (Function.update (fun n => blocksOf (dinode sb s.disk n).fileSize) inum 0) := by
    refine ⟨owned, fun n number' => ?_⟩
    by_cases same : n = inum
    · subst same
      rw [self, selfLen]
      refine ⟨Nat.zero_le _, fun j _ => ?_, ?_⟩
      · rw [slot_blank zero]
        exact ⟨fun wrong => absurd rfl wrong, fun wrong => absurd wrong (Nat.not_lt_zero j)⟩
      · rw [slot_blank zero]
        exact ⟨fun wrong => absurd rfl wrong, fun wrong => absurd wrong (by decide)⟩
    · rw [Function.update_of_ne same, Function.update_of_ne same]
      refine (consistent.shape n number').congr fun j => slot_congr fun some_ => ?_
      exact frame _ (.inr (consistent.owned.slot_used number' some_).1)
  obtain ⟨consistent', data⟩ := sound.setInode valid number ip
    (fun n number' other => by
      rw [Function.update_of_ne other, Function.update_of_ne other, inodes n number']
      exact ⟨rfl, rfl⟩)
    (by rw [self]) (by rw [selfLen, none_]; rfl)
  refine ⟨consistent', dinode_setInode, fun m number' other => ?_⟩
  have kept : dinode sb (setInode sb t.disk inum ip) m = dinode sb s.disk m := by
    rw [dinode_setInode_other other, inodes m number']
  refine ⟨kept, ?_⟩
  dsimp only
  rw [kept]
  refine content_congr fun p lower => ?_
  refine consistent.fileBytes_congr number' (fun x above => ?_) _ rfl (div_lt_blocksOf lower)
  rw [data x ((bmapstart_lt_dataStart sb).le.trans above), frame x (.inr above)]

/-- `itrunc` returns and leaves a consistent disk. -/
theorem itrunc_run (valid : sb.Valid) (consistent : Consistent sb s.disk)
    (number : inum < sb.ninodes) :
    ∃ t, itrunc sb inum (dinode sb s.disk inum) s = .ok ((dinode sb s.disk inum).truncated, t) ∧
      Replaced sb inum (dinode sb s.disk inum).truncated s t := by
  have owned : Owned sb s.disk
      (Function.update (dinode sb s.disk) inum (dinode sb s.disk inum)) ∅ := by
    rw [Function.update_eq_self]
    exact consistent.owned
  obtain ⟨ip₁, t₁, direct, owned₁, frame₁, slots₁, fields₁⟩ :=
    itruncDirect_run (i := 0) (n := ndirect) valid number owned (Nat.le_refl _)
  obtain ⟨ip₂, t₂, table, owned₂, frame₂, slots₂, fields₂⟩ := itruncTable_run valid owned₁ number
  have near : ndirect = 12 := rfl
  have zero : ∀ k, ip₂.addrs k = 0 := by
    intro k
    rw [slots₂ k, slots₁ k]
    split_ifs with last direct
    · rfl
    · rfl
    · have value : k.val ≠ 12 := fun same => last (Fin.ext same)
      have bound := k.isLt
      omega
  have done : { ip₂ with size := 0 } = (dinode sb s.disk inum).truncated := by
    rw [fields₂, fields₁]
    unfold Inode.truncated
    congr 1
    exact funext zero
  have size : (dinode sb s.disk inum).truncated.fileSize = 0 := by
    unfold Inode.fileSize
    split_ifs <;> rfl
  refine ⟨_, ?_, Owned.replaced (t := t₂) valid consistent number (fun _ => rfl) size
    (owned₂.congr valid (fun _ _ => rfl) fun n _ j => ?_) (frame₁.trans frame₂)
    (t₂.logged ++ [sb.iblock inum])⟩
  · refine bind_run_iff.mpr ⟨_, _, direct, bind_run_iff.mpr ⟨_, _, table, ?_⟩⟩
    rw [done]
    exact bind_run_iff.mpr ⟨_, _, iupdate_run (valid.inode_block number), rfl⟩
  · by_cases self : n = inum
    · rw [self, Function.update_self, Function.update_self, slot_blank zero, slot_blank fun _ => rfl]
    · rw [Function.update_of_ne self, Function.update_of_ne self]

end RandomRepo.Xv6.Volume

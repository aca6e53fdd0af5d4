import RandomRepo.Xv6.Setupkvm

/-!
# Writing into an address space

`copyout` and `loaduvm` write into pages of the directory they are given and
nowhere else: the first looks for `PTE_U`, the second is only called on a range
that `allocuvm` has just mapped.  `clearpteu` changes a flag.
-/

namespace RandomRepo.Xv6

variable {L : Layout} {pd pd' : Pgdir} {m m' : Kmem} {S : Multiset Nat} {p va : Nat} {ok : Bool}
  {null : Kmem → Except Halt Unit}

/-- Writing into one of the caller's pages. -/
theorem write_mem_moves (held : p ∈ S) (off : Nat) (bytes : List UInt8) :
    Moves L m S (m.write p off bytes) S := by
  obtain ⟨rest, split⟩ := Multiset.exists_cons_of_mem held
  have split' : S = {p} + rest := by rw [split, Multiset.singleton_add]
  exact ((write_moves off bytes).frame rest).congr split'.symm split'.symm

theorem copyout_moves {va : Nat} {m : Kmem} {buf : List UInt8} (hva : va < 4294967296)
    (h : copyoutWith null pd va buf m = .ok (ok, m')) : Moves L m pd.pages m' pd.pages := by
  rw [copyoutWith] at h
  by_cases some_ : 0 < buf.length
  · rw [if_pos some_] at h
    obtain ⟨r, walk, rest⟩ := bind_ok_iff.mp h
    cases r with
    | none => cases rest; exact .refl _ _ _
    | some ppn =>
      have down : pgrounddown va < 4294967296 := by
        simp only [pgrounddown, pgsize]
        omega
      have held : ppn ∈ pd.pages := by
        rw [uva2ka, walkpgdir_false] at walk
        cases table : (pd.pde (pdx (pgrounddown va))).isSome with
        | false =>
          rw [table] at walk
          dsimp only at walk
          cases read : null m with
          | error => rw [read] at walk; cases walk
          | ok => rw [read] at walk; cases walk
        | true =>
          rw [table] at walk
          dsimp only at walk
          rw [Pgdir.pte_eq_lookup _ down] at walk
          cases mapped : pd.lookup (vpn (pgrounddown va)) with
          | none => rw [mapped] at walk; cases walk
          | some e =>
            rw [mapped] at walk
            cases user : e.u with
            | false => simp [user] at walk
            | true =>
              simp only [user, if_true, Except.ok.injEq, Option.some.injEq] at walk
              rw [← walk]
              exact Pgdir.leaf_mem_pages (vpn_lt down) mapped (.inr user)
      exact (write_mem_moves held _ _).trans (copyout_moves (u32_lt _) rest)
  · rw [if_neg some_] at h
    cases h
    exact .refl _ _ _
  termination_by buf.length
  decreasing_by simp only [List.length_drop, pgrounddown, pgsize]; omega

/-- `loaduvm` over mapped pages. -/
theorem loadLoop_moves {pd : Pgdir} {i sz addr offset : Nat} {ip : List UInt8} {m : Kmem}
    (mapped : ∀ i, i < sz → ∃ e, pd.lookup (vpn (u32 (addr + i))) = some e ∧
      Owned (vpn (u32 (addr + i))) e)
    (h : loadLoop pd addr ip offset sz i m = .ok (ok, m')) :
    Moves L m pd.pages m' pd.pages := by
  rw [loadLoop] at h
  by_cases inside : i < sz
  · rw [if_pos inside, walkpgdir_false] at h
    obtain ⟨e, here, owned⟩ := mapped i inside
    have table := Pgdir.table_of_lookup here
    rw [← pdx_vpn (u32_lt _)] at table
    rw [table] at h
    dsimp only at h
    rw [Pgdir.pte_eq_lookup _ (u32_lt _), here] at h
    have held : e.ppn ∈ pd.pages := Pgdir.leaf_mem_pages (vpn_lt (u32_lt _)) here owned
    cases read : readi ip (u32 (offset + i)) (min (sz - i) pgsize) with
    | none => rw [read] at h; cases h; exact .refl _ _ _
    | some bytes =>
      rw [read] at h
      dsimp only at h
      split at h
      · cases h; exact write_mem_moves held _ _
      · exact (write_mem_moves held _ _).trans (loadLoop_moves mapped h)
  · rw [if_neg inside] at h
    cases h
    exact .refl _ _ _
  termination_by sz - i
  decreasing_by simp only [pgsize]; omega

/-- `clearpteu` anywhere but on a user page of the kernel half. -/
theorem clearpteu_spec (ha : va < 4294967296)
    (kernel : ∀ e, kernPage ≤ vpn va → pd.lookup (vpn va) = some e → e.u = false)
    (h : clearpteu pd va m = .ok (pd', m')) :
    pd'.pages = pd.pages ∧ m' = m ∧
      ∀ v, pd'.lookup v =
        if v = vpn va then (pd.lookup v).map fun e => { e with u := false } else pd.lookup v := by
  rw [clearpteu, walkpgdir_false] at h
  cases table : (pd.pde (pdx va)).isSome with
  | false => rw [table] at h; cases h
  | true =>
    rw [table] at h
    dsimp only at h
    rw [Pgdir.pte_eq_lookup _ ha] at h
    cases h
    have lookup : ∀ v, (pd.setPte va ((pd.lookup (vpn va)).map fun e =>
        { e with u := false })).lookup v = if v = vpn va then
          (pd.lookup (vpn va)).map fun e => { e with u := false } else pd.lookup v :=
      Pgdir.lookup_setPte ha table
    refine ⟨?_, rfl, fun v => ?_⟩
    · -- a user page stays a page of the directory without `PTE_U`
      have exchange := Pgdir.setPte_pages
        (x := (pd.lookup (vpn va)).map fun e => { e with u := false }) ha table
      have leaf : (pd.setPte va ((pd.lookup (vpn va)).map fun e => { e with u := false })).leafPage
          (vpn va) = pd.leafPage (vpn va) := by
        simp only [Pgdir.leafPage, lookup, if_pos]
        cases mapped : pd.lookup (vpn va) with
        | none => rfl
        | some e =>
          by_cases user : vpn va < kernPage
          · simp [Owned, user]
          · have already := kernel e (Nat.not_lt.mp user) mapped
            simp [Owned, already]
      rw [leaf] at exchange
      exact add_left_cancel exchange
    · rw [lookup]
      by_cases here : v = vpn va
      · rw [if_pos here, if_pos here, here]
      · rw [if_neg here, if_neg here]

end RandomRepo.Xv6

import RandomRepo.Xv6.Dealloc

/-!
# The skip in `deallocuvm`

Where a page table is absent, `deallocuvm` steps over all the addresses of that table
at once.  `plainDealloc` visits the pages one by one.  Below `kernbase` the two agree on
every page directory, panics included; if `kfree` accepts the pages of the range, these
pages are freed, once for each entry, and their entries are cleared.
-/

namespace RandomRepo.Xv6

variable {L : Layout} {pd pd' : Pgdir} {m m' : Kmem} {a oldsz newsz turns : Nat} {vs ws : List Nat}

/-- Free the pages of a list, one by one. -/
def plainLoop (L : Layout) : List Nat → Pgdir → Kmem → Except Halt (Pgdir × Kmem)
  | [], pd, m => .ok (pd, m)
  | v :: vs, pd, m =>
    match pd.lookup v with
    | none => plainLoop L vs pd m
    | some e =>
      if e.ppn = 0 then .error (.panic .kfree)
      else do
        let m ← kfree L e.ppn m
        plainLoop L vs (pd.setPte (v * pgsize) none) m

/-- The pages that start in the addresses from `newsz` up to `oldsz`. -/
def pagesBetween (newsz oldsz : Nat) : List Nat :=
  List.range' (npages newsz) (npages oldsz - npages newsz)

def plainDealloc (L : Layout) (pd : Pgdir) (oldsz newsz : Nat) (m : Kmem) :
    Except Halt (Nat × Pgdir × Kmem) :=
  if oldsz ≤ newsz then .ok (oldsz, pd, m)
  else do
    let (pd, m) ← plainLoop L (pagesBetween newsz oldsz) pd m
    .ok (newsz, pd, m)

theorem mem_pagesBetween {v : Nat} :
    v ∈ pagesBetween newsz oldsz ↔ newsz ≤ v * 4096 ∧ v * 4096 < oldsz := by
  have low : v < npages newsz ↔ v * 4096 < newsz := lt_npages
  have high : v < npages oldsz ↔ v * 4096 < oldsz := lt_npages
  rw [pagesBetween, List.mem_range'_1]
  omega

/-! ## The loops agree -/

theorem range'_sub_cons {v n : Nat} (less : v < n) :
    List.range' v (n - v) = v :: List.range' (v + 1) (n - (v + 1)) := by
  rw [show n - v = n - (v + 1) + 1 by omega, List.range'_succ]

/-- Pages without an entry are passed over. -/
theorem plainLoop_absent {lo hi n : Nat} (ordered : lo ≤ hi)
    (absent : ∀ v, lo ≤ v → v < hi → pd.lookup v = none) :
    plainLoop L (List.range' lo (n - lo)) pd m = plainLoop L (List.range' hi (n - hi)) pd m := by
  induction hi, ordered using Nat.le_induction with
  | base => rfl
  | succ hi ordered ih =>
    rw [ih fun v low high => absent v low (by omega)]
    by_cases less : hi < n
    · rw [range'_sub_cons less, plainLoop, absent hi ordered (Nat.lt_succ_self hi)]
    · rw [Nat.sub_eq_zero_of_le (by omega), Nat.sub_eq_zero_of_le (by omega)]
      rfl

/-- The addresses of an absent table can be stepped over. -/
theorem plainLoop_skip (ha : a < 4294967296) (absent : pd.pde (pdx a) = none) {n : Nat} :
    plainLoop L (List.range' (vpn a) (n - vpn a)) pd m =
      plainLoop L (List.range' (vpn ((a / 4194304 + 1) * 4194304))
        (n - vpn ((a / 4194304 + 1) * 4194304))) pd m := by
  have next : vpn ((a / 4194304 + 1) * 4194304) = (a / 4194304 + 1) * 1024 := by
    simp only [vpn, pgsize]
    omega
  rw [next]
  refine plainLoop_absent (by simp only [vpn, pgsize]; omega) fun v low high => ?_
  refine Pgdir.lookup_of_table_none absent ?_
  rw [pdx_vpn ha]
  simp only [vpn, pgsize] at *
  omega

theorem deallocLoop_plain (turns : Nat) (bound : oldsz ≤ kernbase) (aligned : a % 4096 = 0)
    (enough : oldsz + 4096 ≤ a + turns * 4096) (some_ : 0 < turns) :
    deallocLoop L oldsz turns a pd m =
      plainLoop L (List.range' (vpn a) (npages oldsz - vpn a)) pd m := by
  induction turns generalizing a pd m with
  | zero => omega
  | succ turns ih =>
    by_cases inside : a < oldsz
    · have ha : a < 4294967296 := by simp only [kernbase] at bound; omega
      cases table : pd.pde (pdx a) with
      | none =>
        rw [deallocLoop_skip bound inside table, plainLoop_skip ha table]
        exact ih (by omega) (by omega) (by omega)
      | some t =>
        have nextAligned : (a + pgsize) % 4096 = 0 := by simp only [pgsize]; omega
        have nextEnough : oldsz + 4096 ≤ a + pgsize + turns * 4096 := by
          simp only [pgsize]
          omega
        have address : vpn a * pgsize = a := by simp only [vpn, pgsize]; omega
        have split : List.range' (vpn a) (npages oldsz - vpn a) = vpn a ::
            List.range' (vpn (a + pgsize)) (npages oldsz - vpn (a + pgsize)) := by
          have after : vpn (a + pgsize) = vpn a + 1 := by simp only [vpn, pgsize]; omega
          rw [after]
          exact range'_sub_cons (lt_npages.mpr (by simp only [vpn, pgsize]; omega))
        have rest : ∀ pd m, deallocLoop L oldsz turns (a + pgsize) pd m = plainLoop L
            (List.range' (vpn (a + pgsize)) (npages oldsz - vpn (a + pgsize))) pd m :=
          fun pd m => ih nextAligned nextEnough (by omega)
        rw [deallocLoop_page bound inside (by rw [table]; rfl), split, plainLoop, address]
        cases pd.lookup (vpn a) with
        | none => exact rest pd m
        | some e =>
          dsimp only
          by_cases zero : e.ppn = 0
          · rw [if_pos zero, if_pos zero]
          · rw [if_neg zero, if_neg zero]
            exact bind_congr fun m₁ => rest (pd.setPte a none) m₁
    · rw [deallocLoop, if_neg inside]
      have none_ : npages oldsz - vpn a = 0 := by
        simp only [npages, vpn, pgsize]
        omega
      rw [none_]
      rfl

theorem deallocuvm_eq_plain (bound : oldsz ≤ kernbase) :
    deallocuvm L pd oldsz newsz m = plainDealloc L pd oldsz newsz m := by
  rw [deallocuvm, plainDealloc]
  by_cases smaller : oldsz ≤ newsz
  · rw [if_pos smaller, if_pos smaller]
  · have le : newsz ≤ 4294963200 := by simp only [kernbase] at bound; omega
    rw [if_neg smaller, if_neg smaller, deallocLoop_plain (vpages + 1) bound
      (pgroundup_aligned newsz) (by simp only [vpages_eq, kernbase] at *; omega) (Nat.succ_pos _),
      vpn_pgroundup le, pagesBetween]

/-! ## What is freed -/

/-- The frames of the pages of a list. -/
def Pgdir.frames (pd : Pgdir) (vs : List Nat) : List Nat :=
  vs.filterMap fun v => (pd.lookup v).map Pte.ppn

/-- `pd'` is `pd` without the entries of the pages `vs`, and `m'` is `m` with the frames of
these entries, each freed once for each entry. -/
structure Emptied (pd : Pgdir) (m : Kmem) (vs : List Nat) (pd' : Pgdir) (m' : Kmem) : Prop where
  page : pd'.page = pd.page
  tabPage : ∀ i, pd'.tabPage i = pd.tabPage i
  isSome : ∀ i, (pd'.pde i).isSome = (pd.pde i).isSome
  cleared : ∀ v ∈ vs, pd'.lookup v = none
  kept : ∀ v, v ∉ vs → pd'.lookup v = pd.lookup v
  freed : m'.freelist = (pd.frames vs).reverse ++ m.freelist
  junk : ∀ p ∈ pd.frames vs, ∀ i, m'.data p i = 1
  data : ∀ p, p ∉ pd.frames vs → m'.data p = m.data p

/-- Clearing the entry of a page. -/
theorem Pgdir.lookup_clear {v : Nat} {e : Pte} (small : v < vpages) (mapped : pd.lookup v = some e)
    (w : Nat) : (pd.setPte (v * pgsize) none).lookup w = if w = v then none else pd.lookup w := by
  have table := Pgdir.table_of_lookup mapped
  have address : v * pgsize < 4294967296 := by
    simp only [vpages_eq, pgsize] at *
    omega
  have number : vpn (v * pgsize) = v := Nat.mul_div_cancel v (by decide)
  rw [Pgdir.lookup_setPte address (by rw [pdx_vpn address, number]; exact table), number]

/-- The loop empties a list of different pages that `kfree` accepts. -/
theorem plainLoop_emptied (apart : vs.Nodup) (small : ∀ v ∈ vs, v < vpages)
    (ram : ∀ v ∈ vs, ∀ e, pd.lookup v = some e → L.InRam e.ppn) :
    ∃ pd' m', plainLoop L vs pd m = .ok (pd', m') ∧ Emptied pd m vs pd' m' := by
  induction vs generalizing pd m with
  | nil =>
    refine ⟨pd, m, rfl, rfl, fun _ => rfl, fun _ => rfl, ?_, fun _ _ => rfl, rfl, ?_,
      fun _ _ => rfl⟩
    · exact fun v none_ => absurd none_ List.not_mem_nil
    · exact fun p none_ => absurd none_ List.not_mem_nil
  | cons v vs ih =>
    obtain ⟨fresh, apart⟩ := List.nodup_cons.mp apart
    have later : ∀ w ∈ vs, w ∈ v :: vs := fun w => List.mem_cons_of_mem v
    rw [plainLoop]
    cases mapped : pd.lookup v with
    | none =>
      obtain ⟨pd', m', loop, emptied⟩ := ih (m := m) apart (fun w h => small w (later w h))
        (fun w h => ram w (later w h))
      have frames : pd.frames (v :: vs) = pd.frames vs := by
        rw [Pgdir.frames, List.filterMap_cons, mapped]
        rfl
      refine ⟨pd', m', loop, emptied.page, emptied.tabPage, emptied.isSome, ?_, ?_, ?_, ?_, ?_⟩
      · intro w member
        rcases List.mem_cons.mp member with rfl | member
        · rw [emptied.kept w fresh, mapped]
        · exact emptied.cleared w member
      · exact fun w outside => emptied.kept w fun member => outside (later w member)
      · rw [frames]
        exact emptied.freed
      · rw [frames]
        exact emptied.junk
      · rw [frames]
        exact emptied.data
    | some e =>
      have accepted : L.InRam e.ppn := ram v List.mem_cons_self e mapped
      have lookup := Pgdir.lookup_clear (small v List.mem_cons_self) mapped
      have others : ∀ w ∈ vs, (pd.setPte (v * pgsize) none).lookup w = pd.lookup w := by
        intro w member
        rw [lookup, if_neg]
        rintro rfl
        exact fresh member
      have same : (pd.setPte (v * pgsize) none).frames vs = pd.frames vs :=
        List.filterMap_congr fun w member => by rw [others w member]
      have frames : pd.frames (v :: vs) = e.ppn :: pd.frames vs := by
        rw [Pgdir.frames, List.filterMap_cons, mapped]
        rfl
      dsimp only
      rw [if_neg accepted.ne_zero, kfree_ok accepted, ok_bind]
      generalize after : (⟨e.ppn :: m.freelist, Function.update m.data e.ppn fun _ => 1, m.oom,
        m.twice || m.freelist.contains e.ppn⟩ : Kmem) = m₁
      obtain ⟨pd', m', loop, emptied⟩ := @ih (pd.setPte (v * pgsize) none) m₁ apart
        (fun w h => small w (later w h))
        (fun w h e' found => ram w (later w h) e' (by rw [← others w h]; exact found))
      have list : m₁.freelist = e.ppn :: m.freelist := by rw [← after]
      have data : m₁.data = Function.update m.data e.ppn fun _ => 1 := by rw [← after]
      refine ⟨pd', m', loop, emptied.page, fun i => ?_, fun i => ?_, ?_, ?_, ?_, ?_, ?_⟩
      · rw [emptied.tabPage, Pgdir.setPte_tabPage]
      · rw [emptied.isSome, Pgdir.setPte_isSome]
      · intro w member
        rcases List.mem_cons.mp member with rfl | member
        · rw [emptied.kept w fresh, lookup, if_pos rfl]
        · exact emptied.cleared w member
      · intro w outside
        rw [emptied.kept w fun member => outside (later w member), lookup, if_neg]
        rintro rfl
        exact outside List.mem_cons_self
      · rw [emptied.freed, same, frames, List.reverse_cons, List.append_assoc, list]
        rfl
      · intro p member i
        rw [frames] at member
        by_cases again : p ∈ pd.frames vs
        · exact emptied.junk p (by rw [same]; exact again) i
        · rcases List.mem_cons.mp member with rfl | member
          · rw [emptied.data _ (by rw [same]; exact again), data, Function.update_self]
          · exact absurd member again
      · intro p outside
        rw [frames, List.mem_cons, not_or] at outside
        rw [emptied.data p (by rw [same]; exact outside.2), data, Function.update_of_ne outside.1]

/-- A page that `kfree` does not accept. -/
theorem plainLoop_rejects (apart : vs.Nodup) (small : ∀ v ∈ vs, v < vpages) {v : Nat} {e : Pte}
    (member : v ∈ vs) (mapped : pd.lookup v = some e) (outside : ¬ L.InRam e.ppn) :
    plainLoop L vs pd m = .error (.panic .kfree) := by
  induction vs generalizing pd m with
  | nil => cases member
  | cons w vs ih =>
    obtain ⟨fresh, apart⟩ := List.nodup_cons.mp apart
    have smaller : ∀ w ∈ vs, w < vpages := fun x later => small x (List.mem_cons_of_mem w later)
    rw [plainLoop]
    by_cases here : w = v
    · subst here
      rw [mapped]
      dsimp only
      rw [kfree_error outside]
      by_cases zero : e.ppn = 0
      · rw [if_pos zero]
      · rw [if_neg zero]
        rfl
    · have later : v ∈ vs := (List.mem_cons.mp member).resolve_left (Ne.symm here)
      cases first : pd.lookup w with
      | none => exact ih apart smaller later mapped
      | some e' =>
        dsimp only
        by_cases accepted : L.InRam e'.ppn
        · rw [if_neg accepted.ne_zero, kfree_ok accepted, ok_bind]
          refine ih apart smaller later ?_
          rw [Pgdir.lookup_clear (small w List.mem_cons_self) first, if_neg (Ne.symm here)]
          exact mapped
        · rw [kfree_error accepted]
          by_cases zero : e'.ppn = 0
          · rw [if_pos zero]
          · rw [if_neg zero]
            rfl

theorem pagesBetween_nil (smaller : oldsz ≤ newsz) : pagesBetween newsz oldsz = [] := by
  rw [pagesBetween, List.range'_eq_nil_iff]
  simp only [npages]
  omega

theorem pagesBetween_small (bound : oldsz ≤ kernbase) :
    ∀ v ∈ pagesBetween newsz oldsz, v < vpages := by
  intro v member
  have := (mem_pagesBetween.mp member).2
  simp only [vpages_eq, kernbase] at *
  omega

/-- `deallocuvm` does what the loop over the single pages does.  If `kfree` accepts the frames
of all the pages of the range, then they are freed and the range is empty; otherwise it panics. -/
theorem deallocuvm_skips_soundly (L : Layout) (pd : Pgdir) (oldsz newsz : Nat) (m : Kmem)
    (bound : oldsz ≤ kernbase) :
    deallocuvm L pd oldsz newsz m = plainDealloc L pd oldsz newsz m ∧
    ((∀ v ∈ pagesBetween newsz oldsz, ∀ e, pd.lookup v = some e → L.InRam e.ppn) →
      ∃ pd' m', deallocuvm L pd oldsz newsz m =
          .ok (if oldsz ≤ newsz then oldsz else newsz, pd', m') ∧
        Emptied pd m (pagesBetween newsz oldsz) pd' m') ∧
    ((∃ v ∈ pagesBetween newsz oldsz, ∃ e, pd.lookup v = some e ∧ ¬ L.InRam e.ppn) →
      deallocuvm L pd oldsz newsz m = .error (.panic .kfree)) := by
  have apart : (pagesBetween newsz oldsz).Nodup := List.nodup_range'
  rw [deallocuvm_eq_plain bound]
  refine ⟨rfl, fun ram => ?_, ?_⟩
  · obtain ⟨pd', m', loop, emptied⟩ := plainLoop_emptied (m := m) apart
      (pagesBetween_small bound) ram
    refine ⟨pd', m', ?_, emptied⟩
    rw [plainDealloc]
    by_cases smaller : oldsz ≤ newsz
    · rw [pagesBetween_nil smaller] at loop
      cases loop
      rw [if_pos smaller, if_pos smaller]
    · rw [if_neg smaller, if_neg smaller, loop, ok_bind]
  · rintro ⟨v, member, e, mapped, outside⟩
    have smaller : ¬ oldsz ≤ newsz := by
      have := mem_pagesBetween.mp member
      omega
    rw [plainDealloc, if_neg smaller,
      plainLoop_rejects apart (pagesBetween_small bound) member mapped outside]
    rfl

/-- A page directory with one page table, for the second four megabytes, and one page in it. -/
def sparsePgdir : Pgdir :=
  ⟨0x1000, fun i => if i = 1 then some ⟨0x1001, fun j => if j = 5 then some ⟨0x1002, true, true⟩
    else none⟩ else none⟩

/-- The range starts in an absent table and ends in one. -/
theorem deallocuvm_skips_soundly_sparse : ∃ pd' m',
    deallocuvm kernelSym sparsePgdir 9437184 1048577 ⟨[], fun _ _ => 0, false, false⟩ =
      .ok (1048577, pd', m') ∧
    Emptied sparsePgdir ⟨[], fun _ _ => 0, false, false⟩ (pagesBetween 1048577 9437184) pd' m' := by
  refine (deallocuvm_skips_soundly kernelSym sparsePgdir 9437184 1048577 _ (by decide)).2.1 ?_
  intro v member e mapped
  simp only [sparsePgdir, Pgdir.lookup] at mapped
  split_ifs at mapped
  · simp only [Option.bind_some] at mapped
    split_ifs at mapped
    cases mapped
    exact ⟨by decide, by decide⟩
  · cases mapped

end RandomRepo.Xv6

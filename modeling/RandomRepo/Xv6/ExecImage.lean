import RandomRepo.Xv6.CopyUvm
import RandomRepo.Xv6.Exec
import RandomRepo.Xv6.UserMem

/-!
# The address space `exec` builds

Throughout `exec` the new directory is an `Image`: all pages below its size are
mapped, and above them there is nothing but the kernel.  So the segment loads
only touch pages of the directory, and the error exit gives every page back.
-/

namespace RandomRepo.Xv6

variable {L : Layout} {pd pd' : Pgdir} {m m' : Kmem} {n off sz newsz : Nat} {ip : List UInt8}
  {null : Kmem → Except Halt Unit}

structure Image (L : Layout) (pd : Pgdir) (sz : Nat) : Prop where
  bound : sz < kernbase
  user : ∀ v, v < npages sz → (pd.lookup v).isSome
  kernel : ∀ v, npages sz ≤ v → pd.lookup v = kernelEntry L v

theorem KernelHalf.image (half : KernelHalf L pd) : Image L pd 0 :=
  ⟨by decide, fun v hv => absurd hv (Nat.not_lt_zero v), fun v _ => half.lookup v⟩

theorem Image.npages_le (image : Image L pd sz) : npages sz ≤ kernPage :=
  npages_le_kernPage (Nat.le_of_lt image.bound)

theorem Image.stranded (image : Image L pd sz) : pd.stranded = 0 := by
  refine Pgdir.stranded_eq_zero fun v e high mapped => ?_
  rw [image.kernel v (image.npages_le.trans high)] at mapped
  exact kernelEntry_u mapped

/-- `allocuvm` leaves an image of some size, of the size it returns unless that is 0. -/
theorem Image.allocuvm {r : Nat} (image : Image L pd sz)
    (alloc : Allocuvm L pd sz newsz m r pd' m') :
    ∃ s, Image L pd' s ∧ (r ≠ 0 → s = r ∧ newsz ≤ r) := by
  have kern : kernbase = 2147483648 := rfl
  have kp : kernPage = 524288 := rfl
  cases alloc with
  | tooBig => exact ⟨sz, image, fun h => absurd rfl h⟩
  | smaller _ less => exact ⟨sz, image, fun _ => ⟨rfl, Nat.le_of_lt less⟩⟩
  | grown fits more pages _ _ =>
    have mono : npages sz ≤ npages newsz := Nat.div_le_div_right (by omega)
    refine ⟨newsz, ⟨fits, fun v hv => ?_, fun v hv => ?_⟩, fun _ => ⟨rfl, Nat.le_refl _⟩⟩
    · by_cases old : v < npages sz
      · rw [pages.other v (by omega)]
        exact image.user v old
      · obtain ⟨p, entry⟩ := pages.entry v (by omega) (lt_npages.mp hv)
        rw [entry]
        rfl
    · have outside : ¬ v * 4096 < newsz := fun h => absurd (lt_npages.mpr h) (by omega)
      rw [pages.other v (fun h => outside h.2)]
      exact image.kernel v (by omega)
  | outOfMemory fits _ undone =>
    refine ⟨sz, ⟨image.bound, fun v hv => ?_, fun v hv => ?_⟩, fun h => absurd rfl h⟩
    · rw [undone.lookup, if_neg (by omega)]
      exact image.user v hv
    · rw [undone.lookup]
      by_cases inside : npages sz ≤ v ∧ v * 4096 < newsz
      · rw [if_pos inside, kernelEntry_user (by omega)]
      · rw [if_neg inside]
        exact image.kernel v hv

theorem foldr_bytes_lt (bytes : List UInt8) :
    bytes.foldr (fun b acc => b.toNat + 256 * acc) 0 < 256 ^ bytes.length := by
  induction bytes with
  | nil => decide
  | cons b bytes ih =>
    have byte : b.toNat < 256 := b.toNat_lt
    rw [List.foldr_cons, List.length_cons, Nat.pow_succ]
    omega

theorem bytesToNat_lt (bytes : List UInt8) (i : Nat) : bytesToNat bytes i 4 < 4294967296 := by
  refine Nat.lt_of_lt_of_le (foldr_bytes_lt _) ?_
  exact Nat.pow_le_pow_right (by decide) (List.length_take_le 4 _)

theorem readProghdr_lt {ph : Proghdr} (h : readProghdr ip off = some ph) :
    ph.vaddr < 4294967296 ∧ ph.memsz < 4294967296 := by
  obtain ⟨b, -, rfl⟩ := Option.map_eq_some_iff.mp h
  exact ⟨bytesToNat_lt b 8, bytesToNat_lt b 20⟩

/-- A segment lies inside the image that was grown for it. -/
theorem Image.segment (image : Image L pd sz) {ph : Proghdr}
    (small : ph.vaddr < 4294967296 ∧ ph.memsz < 4294967296) (file : ¬ ph.memsz < ph.filesz)
    (wrap : ¬ u32 (ph.vaddr + ph.memsz) < ph.vaddr) (fits : u32 (ph.vaddr + ph.memsz) ≤ sz)
    (i : Nat) (hi : i < ph.filesz) :
    ∃ e, pd.lookup (vpn (u32 (ph.vaddr + i))) = some e ∧ Owned (vpn (u32 (ph.vaddr + i))) e := by
  have bound := image.bound
  simp only [kernbase] at bound
  simp only [u32] at wrap fits
  have here : vpn (u32 (ph.vaddr + i)) < npages sz := by
    rw [u32_of_lt (by omega)]
    simp only [vpn, pgsize, npages]
    omega
  obtain ⟨e, mapped⟩ := Option.isSome_iff_exists.mp (image.user _ here)
  exact ⟨e, mapped, .inl (Nat.lt_of_lt_of_le here image.npages_le)⟩

theorem loadSegments_spec {r : Option Nat} (image : Image L pd sz)
    (h : loadSegments L ip n off sz pd m = .ok (r, pd', m')) :
    Moves L m pd.pages m' pd'.pages ∧ ∃ s, Image L pd' s ∧ ∀ s', r = some s' → s' = s := by
  induction n generalizing off sz pd m with
  | zero => cases h; exact ⟨.refl _ _ _, sz, image, fun _ h => (Option.some.inj h).symm⟩
  | succ n ih =>
    have bad : ∀ {s}, Image L pd s → (none, pd, m) = (r, pd', m') →
        Moves L m pd.pages m' pd'.pages ∧ ∃ s, Image L pd' s ∧ ∀ s', r = some s' → s' = s := by
      intro s image h
      cases h
      exact ⟨.refl _ _ _, s, image, fun _ h => (by cases h)⟩
    rw [loadSegments] at h
    cases header : readProghdr ip off with
    | none => rw [header] at h; exact bad image (Except.ok.inj h)
    | some ph =>
      rw [header] at h
      dsimp only at h
      split at h
      · exact ih image h
      · split at h
        · exact bad image (Except.ok.inj h)
        · rename_i file
          split at h
          · exact bad image (Except.ok.inj h)
          · rename_i wrap
            obtain ⟨⟨sz₁, pd₁, m₁⟩, alloc, rest⟩ := bind_ok_iff.mp h
            have alloc := allocuvm_spec alloc
            obtain ⟨s, image₁, size⟩ := image.allocuvm alloc
            dsimp only at rest
            split at rest
            · cases rest
              exact ⟨alloc.moves, s, image₁, fun _ h => (by cases h)⟩
            · rename_i grown
              obtain ⟨rfl, fits⟩ := size grown
              split at rest
              · cases rest
                exact ⟨alloc.moves, s, image₁, fun _ h => (by cases h)⟩
              · rename_i aligned
                obtain ⟨⟨ok, m₂⟩, load, rest⟩ := bind_ok_iff.mp rest
                rw [loaduvm, if_neg aligned] at load
                have moves := alloc.moves.trans (loadLoop_moves
                  (image₁.segment (readProghdr_lt header) file wrap fits) load)
                cases ok with
                | false =>
                  cases rest
                  exact ⟨moves, s, image₁, fun _ h => (by cases h)⟩
                | true =>
                  obtain ⟨moves', final⟩ := ih image₁ rest
                  exact ⟨moves.trans moves', final⟩

/-! ## The stack -/

theorem pushArgs_moves {argv : List (List UInt8)} {argc sp : Nat} {ustack : List Nat}
    {r : Option (Nat × List Nat)} (h : pushArgs null pd argv argc sp ustack m = .ok (r, m')) :
    Moves L m pd.pages m' pd.pages := by
  induction argv generalizing argc sp ustack m with
  | nil => cases h; exact .refl _ _ _
  | cons arg argv ih =>
    rw [pushArgs] at h
    split at h
    · cases h; exact .refl _ _ _
    · obtain ⟨⟨ok, m₁⟩, out, rest⟩ := bind_ok_iff.mp h
      have low : usub sp (arg.length + 1) / 4 * 4 < 4294967296 :=
        Nat.lt_of_le_of_lt (Nat.div_mul_le_self _ _) (u32_lt _)
      have moves := copyout_moves (L := L) low out
      cases ok with
      | false => cases rest; exact moves
      | true => exact moves.trans (ih rest)

theorem pushStack_moves {argv : List (List UInt8)} {r : Option Nat}
    (h : pushStack null pd argv sz m = .ok (r, m')) : Moves L m pd.pages m' pd.pages := by
  obtain ⟨⟨pushed, m₁⟩, args, rest⟩ := bind_ok_iff.mp h
  have moves := pushArgs_moves (L := L) args
  cases pushed with
  | none => cases rest; exact moves
  | some pushed =>
    obtain ⟨⟨ok, m₂⟩, out, rest⟩ := bind_ok_iff.mp rest
    cases rest
    exact moves.trans (copyout_moves (u32_lt _) out)

/-- Clearing `PTE_U` on a page keeps an image an image. -/
theorem Image.clearpteu {va : Nat} (image : Image L pd sz) (hva : vpn va < npages sz)
    (lookup : ∀ v, pd'.lookup v =
      if v = vpn va then (pd.lookup v).map fun e => { e with u := false } else pd.lookup v) :
    Image L pd' sz := by
  refine ⟨image.bound, fun v hv => ?_, fun v hv => ?_⟩
  · rw [lookup]
    split_ifs
    · rw [Option.isSome_map]
      exact image.user v hv
    · exact image.user v hv
  · rw [lookup, if_neg (by rintro rfl; omega)]
    exact image.kernel v hv

theorem buildImage_spec {elf : Elfhdr} {argv : List (List UInt8)} {r : Option (Nat × Nat)}
    (half : KernelHalf L pd) (h : buildImage L null ip elf argv pd m = .ok (r, pd', m')) :
    Moves L m pd.pages m' pd'.pages ∧ ∃ s, Image L pd' s ∧ ∀ sz sp, r = some (sz, sp) → sz = s := by
  have kern : kernbase = 2147483648 := rfl
  obtain ⟨⟨loaded, pd₁, m₁⟩, segments, rest⟩ := bind_ok_iff.mp h
  obtain ⟨moves, s, image, size⟩ := loadSegments_spec half.image segments
  cases loaded with
  | none => cases rest; exact ⟨moves, s, image, fun _ _ h => (by cases h)⟩
  | some sz =>
    obtain rfl := size sz rfl
    obtain ⟨⟨sz₂, pd₂, m₂⟩, alloc, rest⟩ := bind_ok_iff.mp rest
    have up : pgroundup sz = npages sz * 4096 := pgroundup_eq (by have := image.bound; omega)
    have bound := image.npages_le
    have whole : npages (pgroundup sz) = npages sz := by
      rw [up]; unfold npages; omega
    -- rounding the size up adds no page
    have image₁ : Image L pd₁ (pgroundup sz) ∨ kernbase ≤ pgroundup sz := by
      by_cases fits : pgroundup sz < kernbase
      · exact .inl ⟨fits, fun v hv => image.user v (whole ▸ hv),
          fun v hv => image.kernel v (whole ▸ hv)⟩
      · exact .inr (by omega)
    have alloc := allocuvm_spec alloc
    have moves₂ := moves.trans alloc.moves
    dsimp only at rest
    rcases image₁ with image₁ | full
    · obtain ⟨s₂, image₂, size₂⟩ := image₁.allocuvm alloc
      split at rest
      · cases rest
        exact ⟨moves₂, s₂, image₂, fun _ _ h => (by cases h)⟩
      · rename_i grown
        obtain ⟨rfl, more⟩ := size₂ grown
        obtain ⟨⟨pd₃, m₃⟩, guard_, rest⟩ := bind_ok_iff.mp rest
        obtain ⟨⟨stack, m₄⟩, push, rest⟩ := bind_ok_iff.mp rest
        cases rest
        have bound₁ := image₁.bound
        have bound₂ := image₂.bound
        have two : u32 (pgroundup sz + 2 * pgsize) = pgroundup sz + 8192 := by
          simp only [u32, pgsize]
          omega
        rw [two] at more
        have guardPage : usub s₂ (2 * pgsize) = s₂ - 8192 := by
          simp only [usub, u32, pgsize]
          omega
        rw [guardPage] at guard_
        obtain ⟨pages, rfl, lookup⟩ := clearpteu_spec (by omega)
          (fun e high _ => absurd high (by simp only [vpn, pgsize, kernPage]; omega)) guard_
        have image₃ := image₂.clearpteu (by
          simp only [vpn, pgsize, npages]; omega) lookup
        have pushed := pushStack_moves (L := L) push
        rw [pages] at pushed
        refine ⟨(moves₂.trans pushed).congr rfl pages.symm, s₂, image₃, fun a b h => ?_⟩
        obtain ⟨sp, -, eq⟩ := Option.map_eq_some_iff.mp h
        exact (congrArg Prod.fst eq).symm
    · -- there is no room for the stack
      have none_ : sz₂ = 0 ∧ pd₂ = pd₁ := by
        have two : kernbase ≤ u32 (pgroundup sz + 2 * pgsize) := by
          have kp : kernPage = 524288 := rfl
          simp only [u32, pgsize]
          omega
        cases alloc with
        | tooBig => exact ⟨rfl, rfl⟩
        | smaller fits => omega
        | grown fits => omega
        | outOfMemory fits => omega
      rw [if_pos none_.1] at rest
      cases rest
      exact ⟨moves₂, sz, none_.2 ▸ image, fun _ _ h => (by cases h)⟩

/-! ## `exec` -/

theorem freevmPtr_eq_ok {pgdir : Option Pgdir} (h : freevmPtr L pgdir m = .ok m') :
    ∃ pd, pgdir = some pd ∧ freevm L pd m = .ok m' := by
  cases pgdir with
  | none => cases h
  | some pd => exact ⟨pd, rfl, h⟩

/-- The ways `exec` returns. -/
inductive Exec (L : Layout) (p : Proc) (m : Kmem) : Bool → Proc → Kmem → Prop
  | failed {m' : Kmem} (moves : Moves L m 0 m' 0) : Exec L p m false p m'
  | done {old pd : Pgdir} {sz : Nat} {tf : Trapframe} {name : List UInt8} {m' : Kmem}
      (had : p.pgdir = some old) (image : Image L pd sz)
      (moves : Moves L m old.pages m' (pd.pages + old.stranded)) :
      Exec L p m true { p with name := name, pgdir := some pd, sz := sz, tf := tf } m'

theorem exec_spec {file : Option (List UInt8)} {path : List UInt8} {argv : List (List UInt8)}
    {p p' : Proc} {ok : Bool} (h : exec L file path argv p m = .ok (ok, p', m')) :
    Exec L p m ok p' m' := by
  have failed : ∀ {m}, Except.ok (false, p, m) = Except.ok (ε := Halt) (ok, p', m') →
      ∀ {m₀}, Moves L m₀ 0 m 0 → Exec L p m₀ ok p' m' := by
    intro m h m₀ moves
    cases h
    exact .failed moves
  unfold exec at h
  cases file with
  | none => exact failed h (.refl _ _ _)
  | some ip =>
    dsimp only at h
    cases header : readElfhdr ip with
    | none => rw [header] at h; exact failed h (.refl _ _ _)
    | some elf =>
      rw [header] at h
      dsimp only at h
      split at h
      · exact failed h (.refl _ _ _)
      · obtain ⟨⟨pgdir, m₁⟩, setup, rest⟩ := bind_ok_iff.mp h
        cases pgdir with
        | none => exact failed rest (setupkvm_none setup).1
        | some pd =>
          obtain ⟨half, moves, -⟩ := setupkvm_some setup
          obtain ⟨⟨r, pd₁, m₂⟩, build, rest⟩ := bind_ok_iff.mp rest
          obtain ⟨moves₁, s, image, size⟩ := buildImage_spec half build
          have made := moves.trans moves₁
          cases r with
          | none =>
            obtain ⟨m₃, free, rest⟩ := bind_ok_iff.mp rest
            refine failed rest (made.trans ?_)
            exact (freevm_moves free).congr rfl image.stranded
          | some r =>
            obtain ⟨sz, sp⟩ := r
            obtain rfl := size sz sp rfl
            obtain ⟨-, -, rest⟩ := bind_ok_iff.mp rest
            obtain ⟨m₃, free, rest⟩ := bind_ok_iff.mp rest
            cases rest
            obtain ⟨old, had, free⟩ := freevmPtr_eq_ok free
            refine .done had image ?_
            have new := (made.frame old.pages).congr (zero_add _) rfl
            have drop := ((freevm_moves free).frame pd₁.pages).congr (add_comm _ _)
              (add_comm _ _)
            exact new.trans drop

end RandomRepo.Xv6

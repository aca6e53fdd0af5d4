import RandomRepo.Xv6.ExecBytes

/-!
# `exec` is all or nothing

Whatever the headers of the file say, `exec` returns.  On -1 the process is as it
was and the pages of the new image are free again.  On 0 the new image is what the
headers and the arguments say: the segments, the later ones over the earlier, then
the stack, and zeros everywhere else.
-/

namespace RandomRepo.Xv6

variable {L : Layout} {pd pd' : Pgdir} {m m' : Kmem} {T R : Multiset Nat} {f : Nat → UInt8}
  {sz newsz off va a : Nat} {ip buf : List UInt8} {ph : Proghdr} {hs : List Proghdr}
  {argv : List (List UInt8)} {null : Kmem → Except Halt Unit}

/-! ## What the headers say -/

/-- The headers of the segments to load, if the `n` headers from `off` on can be read. -/
def segments (ip : List UInt8) : Nat → Nat → Option (List Proghdr)
  | 0, _ => some []
  | n + 1, off =>
    match readProghdr ip off with
    | none => none
    | some ph =>
      if ph.type ≠ elfProgLoad then segments ip n (u32 (off + proghdrSize))
      else (segments ip n (u32 (off + proghdrSize))).map fun hs => ph :: hs

/-- A header that `exec` does not refuse. -/
structure Proghdr.Valid (ip : List UInt8) (ph : Proghdr) : Prop where
  file : ph.filesz ≤ ph.memsz
  user : ph.vaddr + ph.memsz < kernbase
  aligned : ph.vaddr % pgsize = 0
  content : 0 < ph.filesz → ph.off + ph.filesz ≤ ip.length

/-- The bytes of the segment in the file, at their address. -/
def Proghdr.window (ip : List UInt8) (ph : Proghdr) : Nat × List UInt8 :=
  (ph.vaddr, (ip.drop ph.off).take ph.filesz)

/-- The address lies in the part of the segment that the file has. -/
def Proghdr.Covers (ph : Proghdr) (a : Nat) : Prop := ph.vaddr ≤ a ∧ a < ph.vaddr + ph.filesz

/-- Where the segments end. -/
def segmentsEnd (sz : Nat) (hs : List Proghdr) : Nat :=
  hs.foldl (fun sz ph => max sz (ph.vaddr + ph.memsz)) sz

/-- The segments, the page that is not accessible and the stack. -/
def imageSize (hs : List Proghdr) : Nat := pgroundup (segmentsEnd 0 hs) + 2 * pgsize

theorem Proghdr.Valid.covers_iff (valid : ph.Valid ip) :
    RandomRepo.Covers (ph.window ip) a ↔ ph.Covers a := by
  have content := valid.content
  unfold RandomRepo.Covers Proghdr.Covers Proghdr.window
  dsimp only
  rw [List.length_take, List.length_drop]
  omega

theorem readProghdr_off_lt (h : readProghdr ip off = some ph) : ph.off < 4294967296 := by
  obtain ⟨b, -, rfl⟩ := Option.map_eq_some_iff.mp h
  exact bytesToNat_lt b 4

/-! ## Loading the segments -/

theorem Image.allocuvm_total (image : Image L pd sz) (owns : Owns L T m (pd.pages + R))
    (newsz : Nat) : ∃ r pd' m', Xv6.allocuvm L pd sz newsz m = .ok (r, pd', m') := by
  have kern : kernbase = 2147483648 := rfl
  have kp : kernPage = 524288 := rfl
  by_cases big : kernbase ≤ newsz
  · exact ⟨0, pd, m, by rw [Xv6.allocuvm, if_pos big]⟩
  · refine Xv6.allocuvm_total (fun v low high => ?_) owns
    rw [image.kernel v low]
    exact kernelEntry_user (by omega)

theorem Allocuvm.size {r : Nat} (alloc : Allocuvm L pd sz newsz m r pd' m') (success : r ≠ 0) :
    r = max sz newsz ∧ newsz < kernbase := by
  cases alloc with
  | tooBig => exact absurd rfl success
  | smaller fits less => exact ⟨by omega, fits⟩
  | grown fits more => exact ⟨by omega, fits⟩
  | outOfMemory => exact absurd rfl success

/-- What loading the headers from `off` on comes to. -/
def SegmentsLoaded (ip : List UInt8) (n off sz : Nat) (f : Nat → UInt8) (r : Option Nat)
    (pd : Pgdir) (m : Kmem) : Prop :=
  ∀ s, r = some s → ∃ hs, segments ip n off = some hs ∧ (∀ ph ∈ hs, ph.Valid ip) ∧
    s = segmentsEnd sz hs ∧ Shows pd m s (overlays f (hs.map (Proghdr.window ip)))

theorem loadSegments_returns (n off : Nat) (image : Image L pd sz) (owns : Owns L T m (pd.pages + R))
    (shows_ : Shows pd m sz f) : ∃ r pd' m', loadSegments L ip n off sz pd m = .ok (r, pd', m') ∧
      SegmentsLoaded ip n off sz f r pd' m' := by
  have kern : kernbase = 2147483648 := rfl
  induction n generalizing off sz pd m f with
  | zero =>
    refine ⟨some sz, pd, m, rfl, fun s same => ⟨[], rfl, ?_, ?_, ?_⟩⟩
    · exact fun ph none_ => absurd none_ List.not_mem_nil
    · exact (Option.some.inj same).symm
    · rw [← Option.some.inj same]
      exact shows_
  | succ n ih =>
    have bad : ∀ {pd m}, SegmentsLoaded ip (n + 1) off sz f none pd m :=
      fun s impossible => by cases impossible
    rw [loadSegments]
    cases header : readProghdr ip off with
    | none => exact ⟨none, pd, m, rfl, bad⟩
    | some ph =>
      dsimp only
      by_cases load : ph.type ≠ elfProgLoad
      · obtain ⟨r, pd', m', run, loaded⟩ := ih (u32 (off + proghdrSize)) image owns shows_
        rw [if_pos load]
        refine ⟨r, pd', m', run, fun s same => ?_⟩
        obtain ⟨hs, read, rest⟩ := loaded s same
        exact ⟨hs, by rw [segments, header]; dsimp only; rw [if_pos load, read], rest⟩
      rw [if_neg load]
      by_cases file : ph.memsz < ph.filesz
      · exact ⟨none, pd, m, by rw [if_pos file], bad⟩
      rw [if_neg file]
      by_cases wrap : u32 (ph.vaddr + ph.memsz) < ph.vaddr
      · exact ⟨none, pd, m, by rw [if_pos wrap], bad⟩
      rw [if_neg wrap]
      have small := readProghdr_lt header
      have sum : u32 (ph.vaddr + ph.memsz) = ph.vaddr + ph.memsz := by
        simp only [u32] at wrap ⊢
        omega
      obtain ⟨r₁, pd₁, m₁, alloc⟩ :=
        image.allocuvm_total owns (u32 (ph.vaddr + ph.memsz))
      rw [alloc, ok_bind]
      dsimp only
      have spec := allocuvm_spec alloc
      by_cases failed : r₁ = 0
      · exact ⟨none, pd₁, m₁, by rw [if_pos failed], bad⟩
      rw [if_neg failed]
      by_cases aligned : ph.vaddr % pgsize ≠ 0
      · exact ⟨none, pd₁, m₁, by rw [if_pos aligned], bad⟩
      rw [if_neg aligned, loaduvm, if_neg aligned]
      have aligned : ph.vaddr % pgsize = 0 := not_not.mp aligned
      obtain ⟨s, image₁, grown⟩ := image.allocuvm spec
      obtain ⟨rfl, fits⟩ := grown failed
      obtain ⟨size, user⟩ := spec.size failed
      have owns₁ := spec.moves.owns owns
      have shows₁ := shows_.allocuvm image.bound owns spec failed
      have inside : ph.vaddr + ph.filesz ≤ s := by omega
      obtain ⟨ok, m₂, loop, content⟩ := loadLoop_spec (i := 0) ip ph.off image₁.bound owns₁.nodup
        shows₁ inside aligned fun _ => readProghdr_off_lt header
      rw [loop, ok_bind]
      cases ok with
      | false => exact ⟨none, pd₁, m₂, rfl, bad⟩
      | true =>
        obtain ⟨shows₂, length⟩ := content rfl
        have owns₂ := (loadLoop_moves (L := L)
          (image₁.segment small file wrap fits) loop).owns owns₁
        obtain ⟨r, pd', m', run, loaded⟩ :=
          ih (u32 (off + proghdrSize)) image₁ owns₂ shows₂
        refine ⟨r, pd', m', run, fun s' same => ?_⟩
        obtain ⟨hs, read, valid, end_, final⟩ := loaded s' same
        refine ⟨ph :: hs, ?_, ?_, ?_, final⟩
        · rw [segments, header]
          dsimp only
          rw [if_neg load, read]
          rfl
        · intro other member
          rcases List.mem_cons.mp member with rfl | later
          · exact ⟨by omega, by omega, aligned, length⟩
          · exact valid other later
        · rw [end_, segmentsEnd, segmentsEnd, List.foldl_cons, size, sum]

/-! ## Pushing the arguments -/

/-- The strings on the stack below `sp`. -/
def argWindows : Nat → List (List UInt8) → List (Nat × List UInt8)
  | _, [] => []
  | sp, arg :: args =>
    let sp := (sp - (arg.length + 1)) / 4 * 4
    (sp, arg ++ [0]) :: argWindows sp args

/-- Where the strings end. -/
def argTop : Nat → List (List UInt8) → Nat
  | sp, [] => sp
  | sp, arg :: args => argTop ((sp - (arg.length + 1)) / 4 * 4) args

def argPointers (sp : Nat) (argv : List (List UInt8)) : List Nat := (argWindows sp argv).map Prod.fst

/-- The stack pointer of the new image. -/
def stackTop (sz : Nat) (argv : List (List UInt8)) : Nat := argTop sz argv - (argv.length + 4) * 4

/-- The fake return address, `argc`, `argv` and the pointers. -/
def stackWords (sz : Nat) (argv : List (List UInt8)) : List Nat :=
  [0xFFFFFFFF, argv.length, argTop sz argv - (argv.length + 1) * 4] ++ argPointers sz argv ++ [0]

def stackWindows (sz : Nat) (argv : List (List UInt8)) : List (Nat × List UInt8) :=
  argWindows sz argv ++ [(stackTop sz argv, (stackWords sz argv).flatMap wordBytes)]

theorem argTop_le (sp : Nat) (argv : List (List UInt8)) : argTop sp argv ≤ sp := by
  induction argv generalizing sp with
  | nil => exact Nat.le_refl _
  | cons arg args ih =>
    rw [argTop]
    have := ih ((sp - (arg.length + 1)) / 4 * 4)
    omega

theorem argTop_le_window {sp : Nat} {w : Nat × List UInt8} (member : w ∈ argWindows sp argv) :
    argTop sp argv ≤ w.1 := by
  induction argv generalizing sp with
  | nil => exact absurd member List.not_mem_nil
  | cons arg args ih =>
    rcases List.mem_cons.mp member with rfl | later
    · exact argTop_le _ args
    · exact ih later

theorem argPointers_length (sp : Nat) (argv : List (List UInt8)) :
    (argPointers sp argv).length = argv.length := by
  rw [argPointers, List.length_map]
  induction argv generalizing sp with
  | nil => rfl
  | cons arg args ih => rw [argWindows, List.length_cons, List.length_cons, ih]

theorem stackTop_le_window {w : Nat × List UInt8} (member : w ∈ stackWindows sz argv) :
    stackTop sz argv ≤ w.1 := by
  rcases List.mem_append.mp member with early | last
  · exact Nat.le_trans (Nat.sub_le _ _) (argTop_le_window early)
  · rw [List.mem_singleton.mp last]

theorem length_flatMap_wordBytes (ws : List Nat) : (ws.flatMap wordBytes).length = 4 * ws.length := by
  induction ws with
  | nil => rfl
  | cons w ws ih =>
    rw [List.flatMap_cons, List.length_append, ih, List.length_cons, wordBytes]
    simp only [List.length_cons, List.length_nil]
    omega

/-- Between the memory that the kernel maps and the devices there are no page tables. -/
def Gap (va : Nat) : Prop := 0x8E000000 ≤ va ∧ va < 0xFE000000

theorem kernelEntry_isSome (L : Layout) (high : kernbase ≤ va) (word : va < 4294967296)
    (outside : ¬ Gap va) : (kernelEntry L (vpn va)).isSome := by
  have kern : kernbase = 2147483648 := rfl
  have kp : kernPage = 524288 := rfl
  have page : vpn va = va / 4096 := rfl
  unfold Gap at outside
  rw [kernelEntry]
  by_cases ram : kernPage ≤ vpn va ∧ vpn va < 581632
  · rw [if_pos ram]
    split
    · rfl
    · rfl
  · rw [if_neg ram, if_pos (by omega)]
    rfl

/-- There are no page tables between the kernel's memory and the devices. -/
def Pgdir.Holed (pd : Pgdir) : Prop := ∀ i, 568 ≤ i → i < 1016 → ¬(pd.pde i).isSome

theorem Pgdir.Holed.not_tabled (holed : pd.Holed) (gap : Gap va) : ¬ pd.Tabled va := by
  unfold Gap at gap
  rw [Pgdir.Tabled, pdx_vpn (by omega)]
  refine holed _ ?_ ?_
  · simp only [vpn, pgsize]
    omega
  · simp only [vpn, pgsize]
    omega

theorem KernelHalf.holed (half : KernelHalf L pd) : pd.Holed := by
  intro i low high table
  have kern := (half.isSome_iff i).mp table
  unfold KernTable at kern
  omega

theorem allocLoop_holed {oldsz r a : Nat} {pd : Pgdir} {m : Kmem} (holed : pd.Holed)
    (aligned : a % 4096 = 0) (bound : newsz ≤ kernbase) (success : r ≠ 0)
    (h : allocLoop L oldsz newsz a pd m = .ok (r, pd', m')) : pd'.Holed := by
  have kern : kernbase = 2147483648 := rfl
  rcases allocLoop_cases h with
    ⟨-, -, rfl, -⟩ | ⟨-, failed, -⟩ | ⟨-, failed, -⟩ | ⟨inside, p, m₁, pd₁, m₂, -, turn, rest⟩
  · exact holed
  · exact absurd failed success
  · exact absurd failed success
  · rw [mappages_one (by omega) aligned] at turn
    refine allocLoop_holed (fun i low high table => ?_) ?_ bound success rest
    · rcases (mapPage_isSome (by omega) turn i).mp table with old | ⟨-, new⟩
      · exact holed i low high old
      · rw [pdx_vpn (by omega)] at new
        simp only [vpn, pgsize] at new
        omega
    · simp only [pgsize]
      omega
  termination_by newsz - a
  decreasing_by simp only [pgsize]; omega

theorem allocuvm_holed {oldsz r : Nat} (holed : pd.Holed) (success : r ≠ 0)
    (h : allocuvm L pd oldsz newsz m = .ok (r, pd', m')) : pd'.Holed := by
  rw [allocuvm] at h
  by_cases big : kernbase ≤ newsz
  · rw [if_pos big] at h
    cases h
    exact absurd rfl success
  · rw [if_neg big] at h
    by_cases less : newsz < oldsz
    · rw [if_pos less] at h
      cases h
      exact holed
    · rw [if_neg less] at h
      exact allocLoop_holed holed (pgroundup_aligned oldsz) (by omega) success h

theorem clearpteu_holed (holed : pd.Holed) (h : clearpteu pd va m = .ok (pd', m')) : pd'.Holed := by
  rw [clearpteu, walkpgdir_false] at h
  intro i low high table
  cases there : (pd.pde (pdx va)).isSome with
  | false =>
    rw [there] at h
    cases h
  | true =>
    rw [there] at h
    cases h
    rw [Pgdir.setPte_isSome] at table
    exact holed i low high table

/-- The first string that does not fit below `sp` into the stack page is not meant for the gap. -/
def ArgsPlaced (sz : Nat) : Nat → List (List UInt8) → Prop
  | _, [] => True
  | sp, arg :: args =>
    let va := usub sp (arg.length + 1) / 4 * 4
    if sz ≤ va + pgsize ∧ va < sz then ArgsPlaced sz va args else ¬ Gap va

/-- A string goes below the stack pointer, or around the end of the address space to the kernel. -/
theorem nextArg_cases {sp len : Nat} (bound : sz < kernbase) (top : sp ≤ sz) (short : len < 2147483648) :
    (len + 1 ≤ sp ∧ usub sp (len + 1) / 4 * 4 = (sp - (len + 1)) / 4 * 4) ∨
      kernbase ≤ usub sp (len + 1) / 4 * 4 ∧ usub sp (len + 1) / 4 * 4 < 4294967296 := by
  have kern : kernbase = 2147483648 := rfl
  simp only [usub, u32]
  omega

/-- Strings that are shorter than the image wrap by a page at most. -/
theorem argsPlaced_of_short {sp : Nat} (bound : sz < kernbase)
    (low : sz - 4096 ≤ sp) (top : sp ≤ sz) (short : ∀ arg ∈ argv, arg.length < sz) :
    ArgsPlaced sz sp argv := by
  have kern : kernbase = 2147483648 := rfl
  induction argv generalizing sp with
  | nil => trivial
  | cons arg args ih =>
    have here := short arg List.mem_cons_self
    have page : pgsize = 4096 := rfl
    unfold ArgsPlaced
    dsimp only
    by_cases fits : sz ≤ usub sp (arg.length + 1) / 4 * 4 + pgsize ∧
        usub sp (arg.length + 1) / 4 * 4 < sz
    · rw [if_pos fits]
      exact ih (by omega) (Nat.le_of_lt fits.2) fun other later =>
        short other (List.mem_cons_of_mem _ later)
    · rw [if_neg fits]
      simp only [Gap, usub, u32]
      omega

/-- An image whose last but one page is not accessible. -/
structure Stacked (L : Layout) (pd : Pgdir) (sz : Nat) : Prop where
  image : Image L pd sz
  nodup : pd.pages.Nodup
  two : 8192 ≤ sz
  whole : sz % 4096 = 0
  guarded : ∀ a, sz - 8192 ≤ a → a < sz - 4096 → ¬ pd.Accessible a

namespace Stacked

variable (stacked : Stacked L pd sz)

include stacked

/-- The whole image and what the kernel maps have page tables. -/
theorem walkable
    (inside : va + buf.length ≤ sz ∨ kernbase ≤ va ∧ va < 4294967296 ∧ ¬ Gap va) :
    Walkable pd va buf.length := by
  have kern : kernbase = 2147483648 := rfl
  have bound := stacked.image.bound
  intro i hi before
  rcases inside with inside | ⟨high, low, outside⟩
  · have page : vpn (va + i) < npages sz := by
      simp only [vpn, pgsize, npages]
      omega
    obtain ⟨e, mapped⟩ := Option.isSome_iff_exists.mp (stacked.image.user _ page)
    rw [u32_of_lt (by omega), Pgdir.Tabled, pdx_vpn (by omega)]
    exact Pgdir.table_of_lookup mapped
  · -- the first byte belongs to the kernel and is not accessible
    have kernel : pd.lookup (vpn va) = kernelEntry L (vpn va) :=
      stacked.image.kernel _ (by simp only [vpn, pgsize, npages]; omega)
    obtain ⟨e, entry⟩ := Option.isSome_iff_exists.mp (kernelEntry_isSome L high low outside)
    rw [entry] at kernel
    by_cases first : i = 0
    · rw [first, Nat.add_zero, u32_of_lt low, Pgdir.Tabled, pdx_vpn low]
      exact Pgdir.table_of_lookup kernel
    · obtain ⟨e', mapped, user⟩ := before 0 (by omega)
      rw [Nat.add_zero, u32_of_lt low, kernel] at mapped
      cases mapped
      rw [kernelEntry_u entry] at user
      cases user

/-- No byte above the image is accessible. -/
theorem not_accessible_high (high : sz ≤ a) : ¬ pd.Accessible a := by
  rintro ⟨e, mapped, user⟩
  have whole := stacked.whole
  rw [stacked.image.kernel _ (by simp only [vpn, pgsize, npages]; omega)] at mapped
  rw [kernelEntry_u mapped] at user
  cases user

/-- Bytes that end at most four bytes below the stack pointer and are all accessible lie in the
stack page. -/
theorem above_guard {len : Nat} (some_ : 0 < len) (end_ : sz - 4096 < va + len + 4)
    (accessible : ∀ i, i < len → pd.Accessible (va + i)) : sz - 4096 ≤ va := by
  have two := stacked.two
  by_contra below
  by_cases through : sz - 4096 < va + len
  · have below_stack : sz - 4097 < sz - 4096 := Nat.sub_lt_sub_left (by omega) (by decide)
    refine stacked.guarded (sz - 4097) (by omega) below_stack ?_
    have last := accessible (sz - 4097 - va) (by omega)
    rw [Nat.add_sub_cancel' (by omega)] at last
    exact last
  · exact stacked.guarded (va + (len - 1)) (by omega) (by omega) (accessible _ (by omega))

/-- `copyout` to the stack. -/
theorem copyout_returns (va : Nat) (buf : List UInt8) (shows_ : Shows pd m sz f) (some_ : 0 < buf.length)
    (len : buf.length < 4294967296)
    (inside : va + buf.length ≤ sz ∨ kernbase ≤ va ∧ va < 4294967296)
    (placed : ¬ Gap va ∨ ∀ m, null m = .ok ())
    (end_ : va + buf.length ≤ sz → sz - 4096 < va + buf.length + 4) :
    ∃ ok m', copyoutWith null pd va buf m = .ok (ok, m') ∧
      (ok = true → va + buf.length ≤ sz ∧ sz - 4096 ≤ va ∧
        Shows pd m' sz (overlay f va buf)) := by
  have kern : kernbase = 2147483648 := rfl
  have bound := stacked.image.bound
  have hva : va < 4294967296 := by omega
  obtain ⟨⟨ok, m'⟩, run⟩ := copyout_total (m := m) hva
    (placed.imp_left fun outside => stacked.walkable (inside.imp_right fun ⟨high, low⟩ =>
      ⟨high, low, outside⟩))
  refine ⟨ok, m', run, fun success => ?_⟩
  obtain ⟨k, copied⟩ := copyout_spec (.of_nodup stacked.nodup) hva len run
  have all := copied.whole success
  subst all
  have first := copied.accessible 0 some_
  rw [Nat.add_zero, u32_of_lt hva] at first
  rcases inside with inside | ⟨high, -⟩
  · have accessible : ∀ i, i < buf.length → pd.Accessible (va + i) := by
      intro i hi
      have here := copied.accessible i hi
      rwa [u32_of_lt (by omega)] at here
    refine ⟨inside, stacked.above_guard some_ (end_ inside) accessible, ?_⟩
    refine shows_.written bound stacked.nodup ?_ copied.written
    simp only [npages]
    omega
  · exact absurd first (stacked.not_accessible_high (by omega))

theorem pushArgs_returns (argv : List (List UInt8)) (argc sp : Nat) (ustack : List Nat)
    (short : ∀ arg ∈ argv, arg.length < 2147483648)
    (placed : ArgsPlaced sz sp argv ∨ ∀ m, null m = .ok ()) (few : argc ≤ maxarg)
    (low : sz - 4096 ≤ sp) (top : sp ≤ sz) (shows_ : Shows pd m sz f) :
    ∃ r m', pushArgs null pd argv argc sp ustack m = .ok (r, m') ∧ ∀ sp' words, r = some (sp', words) →
      words = ustack ++ argPointers sp argv ∧ sp' = argTop sp argv ∧ sz - 4096 ≤ sp' ∧
      argc + argv.length ≤ maxarg ∧ Shows pd m' sz (overlays f (argWindows sp argv)) := by
  have kern : kernbase = 2147483648 := rfl
  have bound := stacked.image.bound
  have two := stacked.two
  induction argv generalizing argc sp ustack m f with
  | nil =>
    refine ⟨some (sp, ustack), m, rfl, fun sp' words same => ?_⟩
    cases same
    exact ⟨(List.append_nil _).symm, rfl, low, few, shows_⟩
  | cons arg args ih =>
    rw [pushArgs]
    by_cases many : maxarg ≤ argc
    · rw [if_pos many]
      exact ⟨none, m, rfl, fun _ _ impossible => by cases impossible⟩
    rw [if_neg many]
    dsimp only
    simp only [maxarg] at many
    have length : (arg ++ [(0 : UInt8)]).length = arg.length + 1 := List.length_append
    have next := nextArg_cases bound top (short arg List.mem_cons_self)
    unfold ArgsPlaced at placed
    dsimp only at placed
    have inside : usub sp (arg.length + 1) / 4 * 4 + (arg ++ [(0 : UInt8)]).length ≤ sz ∨
        kernbase ≤ usub sp (arg.length + 1) / 4 * 4 ∧
          usub sp (arg.length + 1) / 4 * 4 < 4294967296 :=
      next.imp_left fun fits => by rw [length]; omega
    have outside : ¬ Gap (usub sp (arg.length + 1) / 4 * 4) ∨ ∀ m, null m = .ok () := by
      refine placed.imp_left fun placed gap => ?_
      unfold Gap at gap
      rw [if_neg (by omega)] at placed
      exact placed gap
    have small := short arg List.mem_cons_self
    obtain ⟨ok, m₁, out, pushed⟩ := stacked.copyout_returns (usub sp (arg.length + 1) / 4 * 4)
      (arg ++ [0]) shows_ (by rw [length]; omega) (by rw [length]; omega) inside outside
      (by rw [length]; omega)
    rw [out, ok_bind]
    cases ok with
    | false => exact ⟨none, m₁, rfl, fun _ _ impossible => by cases impossible⟩
    | true =>
      obtain ⟨inside, page, shows₁⟩ := pushed rfl
      rw [length] at inside
      obtain ⟨-, same⟩ | ⟨high, -⟩ := next
      · have size : pgsize = 4096 := rfl
        have placed := placed.imp_left fun placed => by
          rwa [if_pos ⟨by omega, by omega⟩, same] at placed
        rw [same] at page shows₁ ⊢
        obtain ⟨r, m', run, rest⟩ := ih (argc + 1) ((sp - (arg.length + 1)) / 4 * 4)
          (ustack ++ [(sp - (arg.length + 1)) / 4 * 4])
          (fun other later => short other (List.mem_cons_of_mem _ later)) placed
          (by simp only [maxarg]; omega) page (by omega) shows₁
        refine ⟨r, m', run, fun sp' words result => ?_⟩
        obtain ⟨rfl, top', low', count, final⟩ := rest sp' words result
        refine ⟨?_, top', low', ?_, final⟩
        · rw [List.append_assoc]
          rfl
        · rw [List.length_cons]
          omega
      · omega

theorem pushStack_returns (short : ∀ arg ∈ argv, arg.length < 2147483648)
    (placed : ArgsPlaced sz sz argv ∨ ∀ m, null m = .ok ()) (shows_ : Shows pd m sz f) :
    ∃ r m', pushStack null pd argv sz m = .ok (r, m') ∧ ∀ sp, r = some sp →
      sp = stackTop sz argv ∧ sz - 4096 ≤ sp ∧ sp < sz ∧
      Shows pd m' sz (overlays f (stackWindows sz argv)) := by
  have kern : kernbase = 2147483648 := rfl
  have bound := stacked.image.bound
  have two := stacked.two
  obtain ⟨pushed, m₁, push, result⟩ := stacked.pushArgs_returns argv 0 sz [] short placed
    (Nat.zero_le _) (Nat.sub_le _ _) (Nat.le_refl _) shows_
  rw [pushStack, push, ok_bind]
  cases pushed with
  | none => exact ⟨none, m₁, rfl, fun _ impossible => by cases impossible⟩
  | some pushed =>
    obtain ⟨sp, words⟩ := pushed
    obtain ⟨rfl, rfl, low, count, shows₁⟩ := result sp words rfl
    have top := argTop_le sz argv
    simp only [maxarg] at count
    dsimp only
    rw [List.nil_append, argPointers_length]
    have three : usub (argTop sz argv) ((argv.length + 1) * 4) =
        argTop sz argv - (argv.length + 1) * 4 := by
      simp only [usub, u32]
      omega
    have down : usub (argTop sz argv) ((3 + argv.length + 1) * 4) = stackTop sz argv := by
      simp only [usub, u32, stackTop]
      omega
    have frame : stackTop sz argv + (argv.length + 4) * 4 = argTop sz argv := by
      simp only [stackTop]
      omega
    have length : ((stackWords sz argv).flatMap wordBytes).length = (argv.length + 4) * 4 := by
      rw [length_flatMap_wordBytes, stackWords, List.length_append, List.length_append,
        argPointers_length]
      simp only [List.length_cons, List.length_nil]
      omega
    rw [three, down]
    obtain ⟨ok, m₂, out, written⟩ := stacked.copyout_returns (stackTop sz argv)
      ((stackWords sz argv).flatMap wordBytes) shows₁
      (by rw [length]; omega) (by rw [length]; omega) (by rw [length]; omega)
      (.inl (by unfold Gap; omega)) (by rw [length]; omega)
    change copyoutWith null pd (stackTop sz argv) (([0xFFFFFFFF, argv.length,
      argTop sz argv - (argv.length + 1) * 4] ++ argPointers sz argv ++ [0]).flatMap wordBytes) m₁ =
        .ok (ok, m₂) at out
    rw [out, ok_bind]
    refine ⟨if ok then some (stackTop sz argv) else none, m₂, rfl, fun sp same => ?_⟩
    cases ok with
    | false => cases same
    | true =>
      cases same
      obtain ⟨-, page, shows₂⟩ := written rfl
      refine ⟨rfl, page, by omega, ?_⟩
      rw [stackWindows, overlays_append]
      exact shows₂

end Stacked

/-! ## The image -/

/-- The new image is what the headers and the arguments say. -/
structure NewImage (ip : List UInt8) (hs : List Proghdr) (argv : List (List UInt8)) (pd : Pgdir)
    (m : Kmem) (sz sp : Nat) : Prop where
  size : sz = imageSize hs
  mapped : ∀ v, v < npages sz → (pd.lookup v).isSome
  stack : sz - pgsize ≤ sp ∧ sp < sz
  bytes : ∀ a, a < sz → pd.byteAt m a =
    some (overlays (fun _ => 0) (hs.map (Proghdr.window ip) ++ stackWindows sz argv) a)
  segment : ∀ a, a < sp → ∀ before ph after, hs = before ++ ph :: after → ph.Covers a →
    (∀ other ∈ after, ¬ other.Covers a) →
      pd.byteAt m a = some (ip.getD (ph.off + (a - ph.vaddr)) 0)
  zero : ∀ a, a < sp → (∀ ph ∈ hs, ¬ ph.Covers a) → pd.byteAt m a = some 0

theorem NewImage.of_bytes {sp : Nat} (valid : ∀ ph ∈ hs, ph.Valid ip) (size : sz = imageSize hs)
    (mapped : ∀ v, v < npages sz → (pd.lookup v).isSome) (top : sp = stackTop sz argv)
    (stack : sz - pgsize ≤ sp ∧ sp < sz)
    (bytes : ∀ a, a < sz → pd.byteAt m a =
      some (overlays (fun _ => 0) (hs.map (Proghdr.window ip) ++ stackWindows sz argv) a)) :
    NewImage ip hs argv pd m sz sp := by
  -- below the stack pointer only the segments are laid over the zeros
  have low : ∀ a, a < sp → pd.byteAt m a =
      some (overlays (fun _ => 0) (hs.map (Proghdr.window ip)) a) := by
    intro a below
    rw [bytes a (by omega), overlays_append, overlays_none]
    intro w member covers
    have above := stackTop_le_window member
    have start := covers.1
    omega
  refine ⟨size, mapped, stack, bytes, fun a below before ph after split covers last => ?_,
    fun a below none_ => ?_⟩
  · have member : ph ∈ hs := by
      rw [split]
      exact List.mem_append_right before List.mem_cons_self
    have content := (valid ph member).content
    have length := covers
    unfold Proghdr.Covers at length
    rw [low a below, split, List.map_append, List.map_cons,
      overlays_last 0 ((valid ph member).covers_iff.mpr covers)]
    · simp only [Proghdr.window, List.getD_eq_getElem?_getD, List.getElem?_take, List.getElem?_drop]
      rw [if_pos (by omega)]
    · intro w later
      obtain ⟨other, among, rfl⟩ := List.mem_map.mp later
      have member : other ∈ hs := by
        rw [split]
        exact List.mem_append_right before (List.mem_cons_of_mem ph among)
      exact (valid other member).covers_iff.not.mpr (last other among)
  · rw [low a below, overlays_none]
    intro w member
    obtain ⟨ph, among, rfl⟩ := List.mem_map.mp member
    exact (valid ph among).covers_iff.not.mpr (none_ ph among)

theorem NewImage.congr {sp : Nat} (image : NewImage ip hs argv pd m sz sp) (bound : sz < kernbase)
    (data : ∀ q ∈ pd.pages, m'.data q = m.data q) : NewImage ip hs argv pd m' sz sp := by
  have kern : kernbase = 2147483648 := rfl
  have kp : kernPage = 524288 := rfl
  have same : ∀ a, a < sz → pd.byteAt m' a = pd.byteAt m a := by
    intro a below
    have page : vpn a < kernPage := by
      simp only [vpn, pgsize]
      omega
    unfold Pgdir.byteAt
    cases mapped : pd.lookup (vpn a) with
    | none => rfl
    | some e =>
      have held := Pgdir.leaf_mem_pages (by rw [vpages_eq]; omega) mapped (.inl page)
      rw [Option.map_some, Option.map_some, data _ held]
  have top := image.stack.2
  refine ⟨image.size, image.mapped, image.stack, fun a below => ?_,
    fun a below before ph after split covers last => ?_, fun a below none_ => ?_⟩
  · rw [same a below]
    exact image.bytes a below
  · rw [same a (by omega)]
    exact image.segment a below before ph after split covers last
  · rw [same a (by omega)]
    exact image.zero a below none_

/-- The arguments are together shorter than the image, if there is to be one. -/
def ArgvFits (ip : List UInt8) (elf : Elfhdr) (argv : List (List UInt8)) : Prop :=
  ∀ hs, segments ip elf.phnum elf.phoff = some hs → (∀ ph ∈ hs, ph.Valid ip) →
    (argv.map List.length).sum < imageSize hs

theorem clearpteu_returns (ha : va < 4294967296) (m : Kmem) (there : (pd.lookup (vpn va)).isSome) :
    ∃ pd', clearpteu pd va m = .ok (pd', m) := by
  obtain ⟨e, mapped⟩ := Option.isSome_iff_exists.mp there
  have table := Pgdir.table_of_lookup mapped
  rw [← pdx_vpn ha] at table
  rw [clearpteu, walkpgdir_false, table]
  exact ⟨_, rfl⟩

/-- The two pages of the stack, the lower one made inaccessible. -/
theorem Image.stacked (image : Image L pd sz) (nodup : pd.pages.Nodup) (two : 8192 ≤ sz)
    (whole : sz % 4096 = 0) (shows_ : Shows pd m sz f) :
    ∃ pd', Xv6.clearpteu pd (usub sz (2 * pgsize)) m = .ok (pd', m) ∧ pd'.pages = pd.pages ∧
      Stacked L pd' sz ∧ Shows pd' m sz f := by
  have kern : kernbase = 2147483648 := rfl
  have kp : kernPage = 524288 := rfl
  have bound := image.bound
  have page : usub sz (2 * pgsize) = sz - 8192 := by
    simp only [usub, u32, pgsize]
    omega
  have low : vpn (sz - 8192) < npages sz := by
    simp only [vpn, pgsize, npages]
    omega
  rw [page]
  obtain ⟨pd', clear⟩ := clearpteu_returns (by omega) m (image.user _ low)
  have user : vpn (sz - 8192) < kernPage := Nat.lt_of_lt_of_le low image.npages_le
  obtain ⟨pages, -, lookup⟩ := clearpteu_spec (by omega)
    (fun e high _ => absurd user (Nat.not_lt.mpr high)) clear
  refine ⟨pd', clear, pages, ⟨image.clearpteu low lookup, by rwa [pages], two, whole, ?_⟩,
    shows_.congr image.npages_le (fun v _ => ?_) fun _ _ _ _ _ => rfl⟩
  · rintro a above below ⟨e, mapped, allowed⟩
    have here : vpn a = vpn (sz - 8192) := by
      simp only [vpn, pgsize]
      omega
    rw [lookup, if_pos here] at mapped
    obtain ⟨e', -, rfl⟩ := Option.map_eq_some_iff.mp mapped
    cases allowed
  · rw [lookup]
    split_ifs
    · rw [Option.map_map]
      rfl
    · rfl

/-- The image with its stack, before the arguments are pushed. -/
def stackImage (L : Layout) (ip : List UInt8) (elf : Elfhdr) (pd : Pgdir) (m : Kmem) :
    Except Halt (Option Nat × Pgdir × Kmem) := do
  let (loaded, pd, m) ← loadSegments L ip elf.phnum elf.phoff 0 pd m
  match loaded with
  | none => .ok (none, pd, m)
  | some sz => do
    let sz := pgroundup sz
    let (sz, pd, m) ← allocuvm L pd sz (u32 (sz + 2 * pgsize)) m
    if sz = 0 then .ok (none, pd, m)
    else do
      let (pd, m) ← clearpteu pd (usub sz (2 * pgsize)) m
      .ok (some sz, pd, m)

/-- What becomes of the image when the arguments are pushed. -/
def withArgs (null : Kmem → Except Halt Unit) (argv : List (List UInt8))
    (r : Option Nat × Pgdir × Kmem) :
    Except Halt (Option (Nat × Nat) × Pgdir × Kmem) :=
  match r.1 with
  | none => .ok (none, r.2.1, r.2.2)
  | some sz => do
    let (stack, m) ← pushStack null r.2.1 argv sz r.2.2
    .ok (stack.map fun sp => (sz, sp), r.2.1, m)

theorem buildImage_eq (L : Layout) (ip : List UInt8) (elf : Elfhdr) (argv : List (List UInt8))
    (pd : Pgdir) (m : Kmem) :
    buildImage L null ip elf argv pd m = stackImage L ip elf pd m >>= withArgs null argv := by
  unfold buildImage stackImage
  rw [bind_assoc]
  refine bind_congr fun loaded => ?_
  obtain ⟨_ | sz, pd₁, m₁⟩ := loaded
  · rfl
  · dsimp only
    rw [bind_assoc]
    refine bind_congr fun grown => ?_
    obtain ⟨sz', pd₂, m₂⟩ := grown
    dsimp only
    by_cases failed : sz' = 0
    · rw [if_pos failed, if_pos failed]
      rfl
    · rw [if_neg failed, if_neg failed, bind_assoc]
      rfl

/-- The image with its stack and nothing on it. -/
structure Prepared (L : Layout) (ip : List UInt8) (elf : Elfhdr) (hs : List Proghdr) (pd : Pgdir)
    (m : Kmem) (sz : Nat) : Prop where
  read : segments ip elf.phnum elf.phoff = some hs
  valid : ∀ ph ∈ hs, ph.Valid ip
  size : sz = imageSize hs
  stacked : Stacked L pd sz
  shows_ : Shows pd m sz (overlays (fun _ => 0) (hs.map (Proghdr.window ip)))

theorem stackImage_returns (ip : List UInt8) (elf : Elfhdr) (half : KernelHalf L pd)
    (owns : Owns L T m (pd.pages + R)) :
    ∃ r pd' m', stackImage L ip elf pd m = .ok (r, pd', m') ∧
      ∀ sz, r = some sz → ∃ hs, Prepared L ip elf hs pd' m' sz := by
  have kern : kernbase = 2147483648 := rfl
  have bad : ∀ {P : Nat → Prop} sz, (none : Option Nat) = some sz → P sz :=
    fun _ impossible => by cases impossible
  obtain ⟨loaded, pd₁, m₁, load, content⟩ :=
    loadSegments_returns elf.phnum elf.phoff half.image owns .start
  obtain ⟨moves₁, s, image₁, size⟩ := loadSegments_spec half.image load
  have owns₁ := moves₁.owns owns
  rw [stackImage, load, ok_bind]
  cases loaded with
  | none => exact ⟨none, pd₁, m₁, rfl, bad⟩
  | some sz =>
    obtain rfl := size sz rfl
    obtain ⟨hs, read, valid, end_, shows₁⟩ := content sz rfl
    dsimp only
    have bound := image₁.bound
    have up : pgroundup sz = npages sz * 4096 := pgroundup_eq (by omega)
    have whole : npages (pgroundup sz) = npages sz := by
      rw [up]
      unfold npages
      omega
    have sum : u32 (pgroundup sz + 2 * pgsize) = pgroundup sz + 8192 := by
      rw [up]
      simp only [u32, pgsize, npages]
      omega
    rw [sum]
    by_cases full : kernbase ≤ pgroundup sz + 8192
    · rw [allocuvm, if_pos full]
      exact ⟨none, pd₁, m₁, rfl, bad⟩
    have image₂ : Image L pd₁ (pgroundup sz) := ⟨by omega, fun v hv => image₁.user v (whole ▸ hv),
      fun v hv => image₁.kernel v (whole ▸ hv)⟩
    obtain ⟨r, pd₂, m₂, alloc⟩ := image₂.allocuvm_total owns₁ (pgroundup sz + 8192)
    rw [alloc, ok_bind]
    dsimp only
    by_cases failed : r = 0
    · rw [if_pos failed]
      exact ⟨none, pd₂, m₂, rfl, bad⟩
    rw [if_neg failed]
    have spec := allocuvm_spec alloc
    obtain ⟨s, image₃, grown⟩ := image₂.allocuvm spec
    obtain ⟨rfl, -⟩ := grown failed
    obtain ⟨rsize, -⟩ := spec.size failed
    have total : s = imageSize hs := by
      rw [imageSize, ← end_]
      simp only [pgsize]
      omega
    have owns₂ := spec.moves.owns owns₁
    have shows₂ := (shows₁.congr_size whole).allocuvm image₂.bound owns₁ spec failed
    have aligned := pgroundup_aligned sz
    obtain ⟨pd₃, clear, pages, stacked, shows₃⟩ :=
      image₃.stacked owns₂.nodup (by omega) (by omega) shows₂
    rw [clear, ok_bind]
    refine ⟨some s, pd₃, m₂, rfl, fun s' same => ⟨hs, ?_⟩⟩
    cases same
    exact ⟨read, valid, total, stacked, shows₃⟩

theorem buildImage_returns {elf : Elfhdr} (half : KernelHalf L pd)
    (owns : Owns L T m (pd.pages + R))
    (placed : ∀ sz pd' m', stackImage L ip elf pd m = .ok (some sz, pd', m') →
      (∀ arg ∈ argv, arg.length < 2147483648) ∧
        (ArgsPlaced sz sz argv ∨ ∀ m, null m = .ok ())) :
    ∃ r pd' m', buildImage L null ip elf argv pd m = .ok (r, pd', m') ∧ ∀ sz sp, r = some (sz, sp) →
      ∃ hs, segments ip elf.phnum elf.phoff = some hs ∧ NewImage ip hs argv pd' m' sz sp ∧
        sp = stackTop sz argv := by
  have kern : kernbase = 2147483648 := rfl
  obtain ⟨r, pd₁, m₁, prepare, prepared⟩ := stackImage_returns ip elf half owns
  rw [buildImage_eq, prepare, ok_bind, withArgs]
  cases r with
  | none => exact ⟨none, pd₁, m₁, rfl, fun _ _ impossible => by cases impossible⟩
  | some s =>
    obtain ⟨hs, done⟩ := prepared s rfl
    dsimp only
    obtain ⟨short, placed⟩ := placed s pd₁ m₁ prepare
    obtain ⟨stack, m₂, push, pushed⟩ := done.stacked.pushStack_returns short placed done.shows_
    rw [push, ok_bind]
    refine ⟨stack.map fun sp => (s, sp), pd₁, m₂, rfl, fun s' sp same => ?_⟩
    obtain ⟨sp', found, pair⟩ := Option.map_eq_some_iff.mp same
    cases pair
    obtain ⟨top, low, below, final⟩ := pushed sp found
    refine ⟨hs, done.read,
      .of_bytes done.valid done.size done.stacked.image.user top ⟨low, below⟩ fun a ha => ?_, top⟩
    rw [overlays_append]
    refine final.bytes a ?_
    simp only [vpn, pgsize, npages]
    omega

theorem ArgvFits.placed {elf : Elfhdr} (fits : ArgvFits ip elf argv) (half : KernelHalf L pd)
    (owns : Owns L T m (pd.pages + R))
    (prepare : stackImage L ip elf pd m = .ok (some sz, pd', m')) :
    (∀ arg ∈ argv, arg.length < 2147483648) ∧ ArgsPlaced sz sz argv := by
  have kern : kernbase = 2147483648 := rfl
  obtain ⟨r, pd₁, m₁, prepare₁, prepared⟩ := stackImage_returns ip elf half owns
  rw [prepare] at prepare₁
  cases prepare₁
  obtain ⟨hs, done⟩ := prepared sz rfl
  have bound := done.stacked.image.bound
  have room := fits hs done.read done.valid
  rw [← done.size] at room
  have short : ∀ arg ∈ argv, arg.length < sz := fun arg member =>
    Nat.lt_of_le_of_lt (List.le_sum_of_mem (List.mem_map_of_mem member)) room
  refine ⟨fun arg member => ?_, argsPlaced_of_short bound (Nat.sub_le _ _) (Nat.le_refl _) short⟩
  have := short arg member
  omega

/-! ## The law -/

/-- Nothing has happened to the process, and the pages of the new image are free again. -/
structure NothingDone (p p' : Proc) (m m' : Kmem) (held : Multiset Nat) : Prop where
  proc : p' = p
  free : m'.freelist.Perm m.freelist
  data : ∀ q ∈ held, m'.data q = m.data q

/-- The process has the new image, under its new name and with its new stack and entry. -/
def ImageLoaded (ip path : List UInt8) (argv : List (List UInt8)) (p p' : Proc) (m' : Kmem) :
    Prop :=
  ∃ elf hs pd sz sp, readElfhdr ip = some elf ∧ segments ip elf.phnum elf.phoff = some hs ∧
    p' = { p with name := (lastElem path).take 15, pgdir := some pd, sz := sz,
                  tf := { p.tf with eip := elf.entry, esp := sp } } ∧
    NewImage ip hs argv pd m' sz sp

theorem Owns.free_perm {S : Multiset Nat} (before : Owns L T m S) (after : Owns L T m' S) :
    m'.freelist.Perm m.freelist := by
  rw [← Multiset.coe_eq_coe]
  exact add_right_cancel (after.ledger.balance.trans before.ledger.balance.symm)

theorem NothingDone.of_moves {p : Proc} (moves : Moves L m 0 m' 0) (owns : Owns L T m R) :
    NothingDone p p m m' R := by
  have owns₀ := owns.congr (zero_add R).symm
  have after := (moves.owns owns₀).congr (zero_add R)
  exact ⟨rfl, owns.free_perm after, fun q held => moves.same owns₀ held⟩

section Ends

variable {elf : Elfhdr} {p : Proc} {path : List UInt8} {m₁ m₂ m₃ : Kmem} {pd₁ : Pgdir}
  (header : readElfhdr ip = some elf) (magic : ¬ elf.magic ≠ elfMagic)

include header magic

theorem exec_no_dir (setup : setupkvm L m = .ok (none, m₁)) :
    exec L (some ip) path argv p m = .ok (false, p, m₁) := by
  rw [exec]
  dsimp only
  rw [header]
  dsimp only
  rw [if_neg magic, setup, ok_bind]

theorem exec_no_image (setup : setupkvm L m = .ok (some pd, m₁))
    (build : buildImage L (nullEntry L p m) ip elf argv pd m₁ = .ok (none, pd₁, m₂))
    (free : freevm L pd₁ m₂ = .ok m₃) :
    exec L (some ip) path argv p m = .ok (false, p, m₃) := by
  rw [exec]
  dsimp only
  rw [header]
  dsimp only
  rw [if_neg magic, setup, ok_bind]
  dsimp only
  rw [build, ok_bind]
  dsimp only
  rw [free, ok_bind]

theorem exec_image {old : Pgdir} {sp : Nat} (whole : p.Whole) (had : p.pgdir = some old)
    (setup : setupkvm L m = .ok (some pd, m₁))
    (build : buildImage L (nullEntry L p m) ip elf argv pd m₁ = .ok (some (sz, sp), pd₁, m₂))
    (free : freevm L old m₂ = .ok m₃) :
    exec L (some ip) path argv p m = .ok (true,
      { p with name := (lastElem path).take 15, pgdir := some pd₁, sz := sz,
               tf := { p.tf with eip := elf.entry, esp := sp } }, m₃) := by
  have stays : Proc.Whole { p with
      name := (lastElem path).take 15, pgdir := some pd₁, sz := sz,
      tf := { p.tf with eip := elf.entry, esp := sp } } := ⟨whole.1, rfl⟩
  rw [exec]
  dsimp only
  rw [header]
  dsimp only
  rw [if_neg magic, setup, ok_bind]
  dsimp only
  rw [build, ok_bind]
  dsimp only
  rw [switchuvm_ok stays, ok_bind, had, freevmPtr, free, ok_bind]

end Ends

/-- `exec` returns if the strings are not meant for the gap, should it come to pushing them, or if it
takes the first word of the process for an entry that is not for user code. -/
theorem exec_returns {p : Proc} {old : Pgdir} (ip path : List UInt8) (argv : List (List UInt8))
    (whole : p.Whole) (had : p.pgdir = some old) (owns : Owns L T m (old.pages + R))
    (placed : ∀ elf pd m₁ sz pd₁ m₂, readElfhdr ip = some elf → elf.magic = elfMagic →
      setupkvm L m = .ok (some pd, m₁) → stackImage L ip elf pd m₁ = .ok (some sz, pd₁, m₂) →
        (∀ arg ∈ argv, arg.length < 2147483648) ∧
          (ArgsPlaced sz sz argv ∨ ∀ m', nullEntry L p m m' = .ok ())) :
    ∃ ok p' m', exec L (some ip) path argv p m = .ok (ok, p', m') ∧
      (ok = false → NothingDone p p' m m' (old.pages + R)) ∧
      (ok = true → ImageLoaded ip path argv p p' m' ∧ p'.tf.esp = stackTop p'.sz argv) := by
  have failed : ∀ {m'}, Moves L m 0 m' 0 → exec L (some ip) path argv p m = .ok (false, p, m') →
      ∃ ok p' m', exec L (some ip) path argv p m = .ok (ok, p', m') ∧
        (ok = false → NothingDone p p' m m' (old.pages + R)) ∧
        (ok = true → ImageLoaded ip path argv p p' m' ∧ p'.tf.esp = stackTop p'.sz argv) := by
    intro m' moves run
    refine ⟨false, p, m', run, fun _ => .of_moves moves owns, fun impossible => ?_⟩
    exact absurd impossible Bool.false_ne_true
  cases header : readElfhdr ip with
  | none => exact failed (.refl _ _ _) (by rw [exec]; dsimp only; rw [header])
  | some elf =>
    by_cases magic : elf.magic ≠ elfMagic
    · exact failed (.refl _ _ _)
        (by rw [exec]; dsimp only; rw [header]; dsimp only; rw [if_pos magic])
    obtain ⟨r, m₁, setup⟩ := setupkvm_total owns
    cases r with
    | none => exact failed (setupkvm_none setup).1 (exec_no_dir header magic setup)
    | some pd =>
      obtain ⟨half, moves, -⟩ := setupkvm_some setup
      have owns₁ : Owns L T m₁ (pd.pages + (old.pages + R)) :=
        moves.owns (owns.congr (zero_add _).symm)
      obtain ⟨image, pd₁, m₂, build, result⟩ := buildImage_returns half owns₁
        fun sz pd₁ m₂ prepare => placed elf pd m₁ sz pd₁ m₂ header (not_not.mp magic) setup prepare
      obtain ⟨moves₁, s, made, size⟩ := buildImage_spec half build
      have owns₂ := moves₁.owns owns₁
      cases image with
      | none =>
        obtain ⟨m₃, free⟩ := freevm_total owns₂
        have freed := (freevm_moves free).congr rfl made.stranded
        exact failed ((moves.trans moves₁).trans freed)
          (exec_no_image header magic setup build free)
      | some image =>
        obtain ⟨sz, sp⟩ := image
        obtain ⟨hs, read, new, top⟩ := result sz sp rfl
        have owns₃ : Owns L T m₂ (old.pages + (pd₁.pages + R)) :=
          owns₂.congr (add_left_comm _ _ _)
        obtain ⟨m₃, free⟩ := freevm_total owns₃
        refine ⟨true, _, m₃, exec_image header magic whole had setup build free,
          fun impossible => absurd impossible.symm Bool.false_ne_true, fun _ =>
          ⟨⟨elf, hs, pd₁, sz, sp, header, read, rfl, new.congr ?_ fun q held => ?_⟩, top⟩⟩
        · rw [size sz sp rfl]
          exact made.bound
        · exact (freevm_moves free).same owns₃ (Multiset.mem_add.mpr (.inl held))

/-- **All or nothing.**  For every content of the file, every free memory and all arguments that are
shorter than the image: `exec` returns; if it fails nothing has happened, and otherwise the process
has the image that the file describes. -/
theorem exec_all_or_nothing {p : Proc} {old : Pgdir} (ip path : List UInt8)
    (argv : List (List UInt8)) (whole : p.Whole) (had : p.pgdir = some old)
    (owns : Owns L T m (old.pages + R)) (fits : ∀ elf, readElfhdr ip = some elf → ArgvFits ip elf argv) :
    ∃ ok p' m', exec L (some ip) path argv p m = .ok (ok, p', m') ∧
      (ok = false → NothingDone p p' m m' (old.pages + R)) ∧
      (ok = true → ImageLoaded ip path argv p p' m') := by
  obtain ⟨ok, p', m', run, nothing, loaded⟩ := exec_returns ip path argv whole had owns
    fun elf pd m₁ sz pd₁ m₂ header _ setup prepare => by
      obtain ⟨half, moves, -⟩ := setupkvm_some setup
      have owns₁ : Owns L T m₁ (pd.pages + (old.pages + R)) :=
        moves.owns (owns.congr (zero_add _).symm)
      exact ((fits elf header).placed half owns₁ prepare).imp_right .inl
  exact ⟨ok, p', m', run, nothing, fun success => (loaded success).1⟩

theorem two_pages_le_imageSize (hs : List Proghdr) : 8192 ≤ imageSize hs := by
  simp only [imageSize, pgsize]
  omega

/-! ## An executable with one segment -/

theorem Image.grows (image : Image L pd sz) (newsz : Nat) (owns : Owns L T m (pd.pages + R))
    (fine : m.oom = false) (fits : newsz < kernbase) (more : sz < newsz)
    (room : 2 * (npages newsz - npages sz) ≤ m.freelist.length) :
    ∃ pd' m', Xv6.allocuvm L pd sz newsz m = .ok (newsz, pd', m') ∧ Image L pd' newsz ∧
      NewPages pd (npages sz) newsz pd' ∧ Owns L T m' (pd'.pages + R) ∧ m'.oom = false ∧
      m.freelist.length ≤ m'.freelist.length + 2 * (npages newsz - npages sz) := by
  have kern : kernbase = 2147483648 := rfl
  have kp : kernPage = 524288 := rfl
  obtain ⟨pd', m', alloc, pages, owns', fine', left⟩ := allocuvm_grows (fun v low high => by
    rw [image.kernel v low]
    exact kernelEntry_user (by omega)) owns fine fits (Nat.le_of_lt more) room
  obtain ⟨s, image', size⟩ := image.allocuvm (allocuvm_spec alloc)
  obtain ⟨rfl, -⟩ := size (by omega)
  exact ⟨pd', m', alloc, image', pages, owns', fine', left⟩

/-- `copyout` to memory that user code may touch. -/
theorem copyout_accessible (null : Kmem → Except Halt Unit) (va : Nat) (buf : List UInt8)
    (m : Kmem) (nodup : pd.pages.Nodup) (word : va + buf.length < 4294967296)
    (accessible : ∀ i, i < buf.length → pd.Accessible (va + i)) :
    ∃ m', copyoutWith null pd va buf m = .ok (true, m') := by
  have start : va < 4294967296 := by omega
  have reached : ∀ i, i < buf.length → pd.Accessible (u32 (va + i)) := by
    intro i inside
    rw [u32_of_lt (by omega)]
    exact accessible i inside
  obtain ⟨⟨ok, m'⟩, run⟩ := copyout_total (m := m) start
    (.inl fun i inside _ => (reached i inside).tabled (u32_lt _))
  obtain ⟨k, copied⟩ := copyout_spec (.of_nodup nodup) start (by omega) run
  cases ok with
  | true => exact ⟨m', run⟩
  | false =>
    obtain ⟨short, -, closed⟩ := copied.stops rfl
    exact absurd (reached k short) closed

/-- Four bytes of code in a segment of eight bytes. -/
def smallElf : List UInt8 :=
  [0x7F, 0x45, 0x4C, 0x46] ++ List.replicate 24 0 ++ [52] ++ List.replicate 15 0 ++ [1] ++
    List.replicate 7 0 ++ [1, 0, 0, 0, 84] ++ List.replicate 11 0 ++ [4, 0, 0, 0, 8] ++
    List.replicate 11 0 ++ [0x90, 0x90, 0xEB, 0xFE]

def smallHeader : Elfhdr := ⟨elfMagic, 0, 52, 1⟩

theorem smallElf_header : readElfhdr smallElf = some smallHeader := rfl

theorem smallElf_segment : readProghdr smallElf 52 = some ⟨1, 84, 0, 4, 8⟩ := rfl

/-- The segment is loaded. -/
theorem smallElf_loaded {pd₁ : Pgdir} {m₁ : Kmem} {e : Pte}
    (alloc : allocuvm L pd 0 8 m = .ok (8, pd₁, m₁)) (mapped : pd₁.lookup 0 = some e) :
    loadSegments L smallElf 1 52 0 pd m =
      .ok (some 8, pd₁, m₁.write e.ppn 0 [0x90, 0x90, 0xEB, 0xFE]) := by
  have load : loaduvm pd₁ 0 smallElf 84 4 m₁ =
      .ok (true, m₁.write e.ppn 0 [0x90, 0x90, 0xEB, 0xFE]) := by
    rw [loaduvm, if_neg (by decide), loadLoop_turn (by decide) (by decide) mapped]
    show loadLoop pd₁ 0 smallElf 84 4 4096 _ = _
    rw [loadLoop, if_neg (by decide)]
    rfl
  rw [loadSegments, smallElf_segment]
  dsimp only
  rw [if_neg (by decide), if_neg (by decide), if_neg (by decide), show u32 (0 + 8) = 8 from rfl,
    alloc, ok_bind]
  dsimp only
  rw [if_neg (by decide), if_neg (by decide), load, ok_bind]
  rfl

theorem smallElf_prepared (owns : Owns L T m (pd.pages + R)) (half : KernelHalf L pd)
    (fine : m.oom = false) (room : 7 ≤ m.freelist.length) :
    ∃ pd' m', stackImage L smallElf smallHeader pd m = .ok (some 12288, pd', m') ∧
      (∀ a, 8192 ≤ a → a < 12288 → pd'.Accessible a) ∧ pd'.Holed ∧ pd'.pages.Nodup ∧
      m'.freelist ≠ [] := by
  obtain ⟨pd₁, m₁, alloc₁, image₁, -, owns₁, fine₁, left₁⟩ := half.image.grows 8 owns fine (by decide)
    (by decide) (Nat.le_trans (by decide) room)
  obtain ⟨e, mapped⟩ := Option.isSome_iff_exists.mp (image₁.user 0 (by decide))
  have image₂ : Image L pd₁ 4096 := ⟨by decide, image₁.user, image₁.kernel⟩
  have held : e.ppn ∈ pd₁.pages :=
    Pgdir.leaf_mem_pages (by rw [vpages_eq]; decide) mapped (.inl (by decide))
  obtain ⟨pd₂, m₂, alloc₂, image₃, pages, owns₂, -, left₂⟩ := image₂.grows 12288
    ((write_mem_moves held 0 [0x90, 0x90, 0xEB, 0xFE]).owns owns₁) fine₁ (by decide) (by decide)
    (show 4 ≤ m₁.freelist.length by have : 2 * (npages 8 - npages 0) = 2 := rfl; omega)
  obtain ⟨pd₃, clear⟩ := clearpteu_returns
    (show usub 12288 (2 * pgsize) < 4294967296 by decide) m₂ (image₃.user _ (by decide))
  obtain ⟨same, -, lookup⟩ := clearpteu_spec (by decide)
    (fun e above _ => absurd above (by decide)) clear
  refine ⟨pd₃, m₂, ?_, fun a low high => ?_, ?_, ?_, ?_⟩
  · rw [stackImage]
    dsimp only [smallHeader]
    rw [smallElf_loaded alloc₁ mapped, ok_bind]
    dsimp only
    rw [show u32 (pgroundup 8 + 2 * pgsize) = 12288 from rfl, show pgroundup 8 = 4096 from rfl,
      alloc₂, ok_bind]
    dsimp only
    rw [if_neg (by decide), clear]
    rfl
  · obtain ⟨p, entry⟩ := pages.entry (vpn a)
      (by simp only [vpn, pgsize, npages] at *; omega) (by simp only [vpn, pgsize]; omega)
    refine ⟨permUser.entry p, ?_, rfl⟩
    rw [lookup, if_neg (by simp only [vpn, pgsize, usub, u32]; omega), entry]
  · exact clearpteu_holed (allocuvm_holed (allocuvm_holed half.holed (by decide) alloc₁) (by decide)
      alloc₂) clear
  · rw [same]
    exact owns₂.nodup
  · intro empty
    have four : 2 * (npages 12288 - npages 4096) = 4 := rfl
    have two : 2 * (npages 8 - npages 0) = 2 := rfl
    have list : (m₁.write e.ppn 0 [0x90, 0x90, 0xEB, 0xFE]).freelist = m₁.freelist := rfl
    rw [list, empty, List.length_nil] at left₂
    omega

theorem smallElf_pushed (null : Kmem → Except Halt Unit) (m : Kmem) (nodup : pd.pages.Nodup)
    (stack : ∀ a, 8192 ≤ a → a < 12288 → pd.Accessible a) :
    ∃ m', pushStack null pd [[0x61]] 12288 m = .ok (some 12264, m') := by
  obtain ⟨m₁, first⟩ := copyout_accessible null 12284 [0x61, 0] m nodup (by decide)
    fun i inside => stack _ (by omega) (by rw [List.length_cons, List.length_singleton] at inside; omega)
  obtain ⟨m₂, second⟩ := copyout_accessible null 12264
    (([0xFFFFFFFF, 1, 12276, 12284, 0] : List Nat).flatMap wordBytes) m₁ nodup (by decide)
    fun i inside => stack _ (by omega) (by rw [length_flatMap_wordBytes] at inside; simp at inside; omega)
  refine ⟨m₂, ?_⟩
  have args : pushArgs null pd [[0x61]] 0 12288 [] m = .ok (some (12284, [12284]), m₁) := by
    rw [pushArgs, if_neg (by decide)]
    dsimp only
    rw [show usub 12288 (List.length [(0x61 : UInt8)] + 1) / 4 * 4 = 12284 from rfl]
    show copyoutWith null pd 12284 [0x61, 0] m >>= _ = _
    rw [first]
    rfl
  rw [pushStack, args]
  show copyoutWith null pd 12264
    (([0xFFFFFFFF, 1, 12276, 12284, 0] : List Nat).flatMap wordBytes) m₁ >>= _ = _
  rw [second]
  rfl

/-- The first process runs it with one argument. -/
theorem exec_all_or_nothing_first : ∃ k p' m', boot kernelSym blankMachine = .ok k ∧
    exec kernelSym (some smallElf) [0x61] [[0x61]] (k.proc 0) k.mem = .ok (true, p', m') ∧
    ImageLoaded smallElf [0x61] [[0x61]] (k.proc 0) p' m' := by
  obtain ⟨k, start, booted⟩ := boot_spec kernelSym blankMachine
  obtain ⟨pd, q, had, -⟩ := booted.dir
  obtain ⟨R, owns⟩ := booted.accounted.dir booted.alive_first had
  have fits : ∀ elf, readElfhdr smallElf = some elf → ArgvFits smallElf elf [[0x61]] :=
    fun elf _ hs _ _ => Nat.lt_of_lt_of_le (by decide) (two_pages_le_imageSize hs)
  obtain ⟨ok, p', m', run, -, loaded⟩ := exec_all_or_nothing smallElf [0x61] [[0x61]]
    (booted.whole 0 booted.alive_first) had owns fits
  have room := booted.room
  obtain ⟨d, m₁, setup, half, owns₁, left, oom⟩ := setupkvm_room owns (by omega)
  obtain ⟨d', m₂, prepare, stack, -, nodup, -⟩ := smallElf_prepared owns₁ half
    (oom.trans booted.oom) (by omega)
  obtain ⟨m₃, push⟩ := smallElf_pushed (nullEntry kernelSym (k.proc 0) k.mem) m₂ nodup stack
  have build : buildImage kernelSym (nullEntry kernelSym (k.proc 0) k.mem) smallElf smallHeader
      [[0x61]] d m₁ = .ok (some (12288, 12264), d', m₃) := by
    rw [buildImage_eq, prepare, ok_bind, withArgs]
    dsimp only
    rw [push]
    rfl
  obtain ⟨moves, s, image, -⟩ := buildImage_spec half build
  have owns₂ : Owns kernelSym (bootPages kernelSym) m₃ (pd.pages + (d'.pages + R)) :=
    (moves.owns owns₁).congr (add_left_comm _ _ _)
  obtain ⟨m₄, free⟩ := freevm_total owns₂
  have done := run
  rw [exec_image smallElf_header (not_not.mpr rfl) (booted.whole 0 booted.alive_first) had setup
    build free] at done
  cases done
  exact ⟨k, _, _, start, run, loaded rfl⟩

end RandomRepo.Xv6

import RandomRepo.Xv6.ExecSafe

/-!
# The arguments of `exec`

The strings go to the top of the new stack, each below the one before it, and below
them the words that `main` finds there.  The page under the stack is there to stop
what does not fit.  A string that is longer than all the memory below the stack goes
around the end of the address space, and in the upper half there are addresses that
have no page table.  There `uva2ka` takes the first word of the process for the entry.
-/

namespace RandomRepo.Xv6

variable {L : Layout} {pd pd' : Pgdir} {m m' : Kmem} {T R : Multiset Nat} {f : Nat → UInt8}
  {sz newsz off va a sp : Nat} {ip buf : List UInt8} {argv : List (List UInt8)}

/-! ## The stack that `main` finds -/

/-- The bytes stand in memory from `a` on. -/
def Pgdir.Reads (pd : Pgdir) (m : Kmem) (a : Nat) (bs : List UInt8) : Prop :=
  ∀ j, j < bs.length → pd.byteAt m (a + j) = bs[j]?

/-- The words at `esp` and the strings, as start and length. -/
def stackRegions (esp : Nat) (ptrs : List Nat) (argv : List (List UInt8)) : List (Nat × Nat) :=
  (esp, 4 * (argv.length + 4)) :: List.zipWith (fun q arg => (q, arg.length + 1)) ptrs argv

/-- **The arguments are on the stack**: the words that `main` expects at `esp`, pointers to the
strings, and the strings, all of them apart from each other and in the page of the stack. -/
structure Passed (pd : Pgdir) (m : Kmem) (sz esp : Nat) (argv : List (List UInt8))
    (ptrs : List Nat) : Prop where
  aligned : esp % 4 = 0
  fakePc : pd.Reads m esp (wordBytes 0xFFFFFFFF)
  argc : pd.Reads m (esp + 4) (wordBytes argv.length)
  vector : pd.Reads m (esp + 8) (wordBytes (esp + 12))
  count : ptrs.length = argv.length
  pointers : ∀ (i : Nat) q, ptrs[i]? = some q → pd.Reads m (esp + 12 + 4 * i) (wordBytes q)
  zero : pd.Reads m (esp + 12 + 4 * argv.length) (wordBytes 0)
  strings : ∀ (i : Nat) q arg, ptrs[i]? = some q → argv[i]? = some arg → pd.Reads m q (arg ++ [0])
  apart : (stackRegions esp ptrs argv).Pairwise fun r s => r.1 + r.2 ≤ s.1 ∨ s.1 + s.2 ≤ r.1
  inside : ∀ r ∈ stackRegions esp ptrs argv, sz ≤ r.1 + pgsize ∧ r.1 + r.2 ≤ sz

/-- The room that the strings take, each of them a whole number of words. -/
def argBytes (argv : List (List UInt8)) : Nat :=
  (argv.map fun arg => (arg.length + 4) / 4 * 4).sum

/-- The room that all of it takes. -/
def stackBytes (argv : List (List UInt8)) : Nat := argBytes argv + 4 * (argv.length + 4)

theorem argBytes_cons (arg : List UInt8) (args : List (List UInt8)) :
    argBytes (arg :: args) = (arg.length + 4) / 4 * 4 + argBytes args := by
  unfold argBytes
  rw [List.map_cons, List.sum_cons]

theorem argBytes_aligned (argv : List (List UInt8)) : argBytes argv % 4 = 0 := by
  induction argv with
  | nil => rfl
  | cons arg args ih =>
    rw [argBytes_cons]
    omega

theorem argTop_eq (aligned : sp % 4 = 0) : argTop sp argv = sp - argBytes argv := by
  induction argv generalizing sp with
  | nil => rfl
  | cons arg args ih =>
    rw [argTop, ih (by omega), argBytes_cons]
    omega

/-- Each string lies below the one before it. -/
theorem argWindows_below (aligned : sp % 4 = 0) (room : argBytes argv ≤ sp) :
    (∀ w ∈ argWindows sp argv, w.1 + w.2.length ≤ sp) ∧
      (argWindows sp argv).Pairwise fun v w => w.1 + w.2.length ≤ v.1 := by
  induction argv generalizing sp with
  | nil => exact ⟨fun w none_ => absurd none_ List.not_mem_nil, .nil⟩
  | cons arg args ih =>
    rw [argBytes_cons] at room
    obtain ⟨below, sorted⟩ := @ih ((sp - (arg.length + 1)) / 4 * 4) (by omega) (by omega)
    rw [argWindows]
    refine ⟨fun w member => ?_, List.pairwise_cons.mpr ⟨below, sorted⟩⟩
    rcases List.mem_cons.mp member with rfl | later
    · rw [List.length_append, List.length_singleton]
      omega
    · have := below w later
      omega

theorem argWindows_eq (sp : Nat) (argv : List (List UInt8)) :
    argWindows sp argv =
      List.zipWith (fun q arg => (q, arg ++ [0])) (argPointers sp argv) argv := by
  unfold argPointers
  induction argv generalizing sp with
  | nil => rfl
  | cons arg args ih =>
    rw [argWindows, List.map_cons, List.zipWith_cons_cons, ← ih]

theorem stackRegions_eq (esp sp : Nat) (argv : List (List UInt8)) :
    stackRegions esp (argPointers sp argv) argv =
      (esp, 4 * (argv.length + 4)) :: (argWindows sp argv).map fun w => (w.1, w.2.length) := by
  rw [stackRegions, argWindows_eq, List.map_zipWith]
  congr 2
  funext q arg
  rw [List.length_append, List.length_singleton]

theorem getElem?_flatMap_wordBytes (ws : List Nat) (k : Nat) {j : Nat} (inside : j < 4) :
    (ws.flatMap wordBytes)[4 * k + j]? = ws[k]?.bind fun w => (wordBytes w)[j]? := by
  induction ws generalizing k with
  | nil => rfl
  | cons w ws ih =>
    have length : (wordBytes w).length = 4 := rfl
    rw [List.flatMap_cons]
    cases k with
    | zero => rw [List.getElem?_append_left (by omega), Nat.mul_zero, Nat.zero_add]; rfl
    | succ k =>
      rw [List.getElem?_append_right (by omega), List.getElem?_cons_succ, ← ih, length]
      congr 1
      omega

theorem stackWords_length (sz : Nat) (argv : List (List UInt8)) :
    ((stackWords sz argv).flatMap wordBytes).length = 4 * (argv.length + 4) := by
  rw [length_flatMap_wordBytes, stackWords, List.length_append, List.length_append,
    argPointers_length, List.length_cons, List.length_cons, List.length_cons, List.length_nil,
    List.length_singleton]
  omega

namespace NewImage

variable {hs : List Proghdr} (image : NewImage ip hs argv pd m sz (stackTop sz argv))

include image

theorem pages : 8192 ≤ sz ∧ sz % 4 = 0 := by
  have aligned := pgroundup_aligned (segmentsEnd 0 hs)
  rw [image.size]
  unfold imageSize pgsize
  omega

/-- What is on the stack fits into its page. -/
theorem fits : stackBytes argv ≤ pgsize := by
  have size : pgsize = 4096 := rfl
  obtain ⟨two, aligned⟩ := image.pages
  have low := image.stack.1
  rw [stackTop, argTop_eq aligned] at low
  unfold stackBytes
  omega

theorem top_eq : stackTop sz argv + 4 * (argv.length + 4) = sz - argBytes argv := by
  have size : pgsize = 4096 := rfl
  obtain ⟨two, aligned⟩ := image.pages
  have fits := image.fits
  unfold stackBytes at fits
  rw [stackTop, argTop_eq aligned]
  omega

/-- The strings lie between the words and the end of the memory, each below the one before it. -/
theorem windows : (∀ w ∈ argWindows sz argv, stackTop sz argv + 4 * (argv.length + 4) ≤ w.1 ∧
      w.1 + w.2.length ≤ sz) ∧
    (argWindows sz argv).Pairwise fun v w => w.1 + w.2.length ≤ v.1 := by
  have size : pgsize = 4096 := rfl
  obtain ⟨two, aligned⟩ := image.pages
  have fits := image.fits
  unfold stackBytes at fits
  have room : argBytes argv ≤ sz := by omega
  obtain ⟨below, sorted⟩ := argWindows_below aligned room
  refine ⟨fun w member => ⟨?_, below w member⟩, sorted⟩
  have above := argTop_le_window member
  rw [argTop_eq aligned] at above
  rw [image.top_eq]
  exact above

theorem reads {w : Nat × List UInt8} (member : w ∈ stackWindows sz argv) : pd.Reads m w.1 w.2 := by
  obtain ⟨strings, sorted⟩ := image.windows
  have length := stackWords_length sz argv
  have end_ := image.top_eq
  have apart : (stackWindows sz argv).Pairwise fun v w => ∀ a, ¬(Covers v a ∧ Covers w a) := by
    unfold stackWindows Covers
    refine List.pairwise_append.mpr ⟨sorted.imp fun order a both => by omega,
      List.pairwise_singleton _ _, fun v string w last a both => ?_⟩
    have above := (strings v string).1
    rw [List.mem_singleton.mp last, length] at both
    omega
  have inside : w.1 + w.2.length ≤ sz := by
    rcases List.mem_append.mp member with string | last
    · exact (strings w string).2
    · rw [List.mem_singleton.mp last, length]
      omega
  intro j below
  rw [image.bytes (w.1 + j) (by omega), overlays_append,
    overlays_of_mem 0 apart member ⟨Nat.le_add_right _ _, by omega⟩, Nat.add_sub_cancel_left,
    List.getD_eq_getElem?_getD, List.getElem?_eq_getElem below, Option.getD_some]

theorem readsWord {k w : Nat} (found : (stackWords sz argv)[k]? = some w) :
    pd.Reads m (stackTop sz argv + 4 * k) (wordBytes w) := by
  have reads := image.reads (List.mem_append_right _ (List.mem_singleton_self _))
  intro j inside
  have four : j < 4 := inside
  have entry := getElem?_flatMap_wordBytes (stackWords sz argv) k four
  rw [found, Option.bind_some] at entry
  have below : 4 * k + j < ((stackWords sz argv).flatMap wordBytes).length := by
    by_contra beyond
    rw [List.getElem?_eq_none (by omega)] at entry
    rw [List.getElem?_eq_getElem inside] at entry
    cases entry
  rw [Nat.add_assoc, reads _ below, entry]

theorem passed : Passed pd m sz (stackTop sz argv) argv (argPointers sz argv) := by
  have size : pgsize = 4096 := rfl
  obtain ⟨two, aligned⟩ := image.pages
  obtain ⟨strings, sorted⟩ := image.windows
  have end_ := image.top_eq
  have fits := image.fits
  have count := argPointers_length sz argv
  have rounded := argBytes_aligned argv
  have top : stackTop sz argv = argTop sz argv - (argv.length + 4) * 4 := rfl
  rw [argTop_eq aligned] at top
  unfold stackBytes at fits
  refine ⟨by omega, image.readsWord (k := 0) rfl, image.readsWord (k := 1) rfl, ?_, count,
    fun i q found => ?_, ?_, fun i q arg pointer string => ?_, ?_, ?_⟩
  · have third : argTop sz argv - (argv.length + 1) * 4 = stackTop sz argv + 12 := by
      rw [argTop_eq aligned]
      omega
    rw [← third]
    exact image.readsWord (k := 2) rfl
  · rw [Nat.add_assoc, ← Nat.mul_add 4 3 i]
    refine image.readsWord ?_
    have inside : i < (argPointers sz argv).length := (List.getElem?_eq_some_iff.mp found).1
    rw [stackWords, List.append_assoc, Nat.add_comm 3 i]
    show (argPointers sz argv ++ [0])[i]? = some q
    rw [List.getElem?_append_left inside, found]
  · rw [Nat.add_assoc, ← Nat.mul_add 4 3 argv.length]
    refine image.readsWord ?_
    rw [stackWords, List.append_assoc, Nat.add_comm 3]
    show (argPointers sz argv ++ [0])[argv.length]? = some 0
    rw [← count, List.getElem?_append_right (Nat.le_refl _), Nat.sub_self]
    rfl
  · have member : (q, arg ++ [0]) ∈ argWindows sz argv := by
      rw [argWindows_eq]
      refine List.mem_iff_getElem?.mpr ⟨i, ?_⟩
      rw [List.getElem?_zipWith, pointer, string]
    exact image.reads (List.mem_append_left _ member)
  · rw [stackRegions_eq, List.pairwise_cons, List.pairwise_map]
    refine ⟨fun r string => ?_, sorted.imp .inr⟩
    obtain ⟨w, member, rfl⟩ := List.mem_map.mp string
    exact .inl (strings w member).1
  · rw [stackRegions_eq]
    intro r member
    rcases List.mem_cons.mp member with rfl | string
    · dsimp only
      omega
    · obtain ⟨w, among, rfl⟩ := List.mem_map.mp string
      have bounds := strings w among
      dsimp only
      omega

end NewImage

/-! ## The law -/

/-- `exec` returns; on 0 the arguments are on the new stack, and if they do not fit into a page
it is -1. -/
def ArgsPassed (L : Layout) (ip path : List UInt8) (argv : List (List UInt8)) (p : Proc)
    (m : Kmem) : Prop :=
  ∃ ok p' m', exec L (some ip) path argv p m = .ok (ok, p', m') ∧
    (ok = true → ∃ pd ptrs, p'.pgdir = some pd ∧ Passed pd m' p'.sz p'.tf.esp argv ptrs) ∧
    (pgsize < stackBytes argv → ok = false)

/-- Should `exec` come to push the strings, the first one that does not fit is not meant for
the gap. -/
def ArgvPlaced (L : Layout) (ip : List UInt8) (argv : List (List UInt8)) (m : Kmem) : Prop :=
  ∀ elf pd m₁ sz pd₁ m₂, readElfhdr ip = some elf → elf.magic = elfMagic →
    setupkvm L m = .ok (some pd, m₁) → stackImage L ip elf pd m₁ = .ok (some sz, pd₁, m₂) →
      ArgsPlaced sz sz argv

/-- An entry for user code is not what `uva2ka` finds at address 0 of the process. -/
def Proc.NullRefused (p : Proc) (m : Kmem) : Prop :=
  ∃ w, p.firstWord m = some w ∧ (w % 2 = 0 ∨ w / 4 % 2 = 0)

theorem Proc.NullRefused.harmless {p : Proc} (refused : p.NullRefused m) (had : p.pgdir = some pd) :
    nullEntry L p m m' = .ok () := by
  obtain ⟨w, word, bits⟩ := refused
  rw [nullEntry, had, word]
  exact if_pos bits

/-- **Passing arguments.**  For every process and file, and for all strings that are each shorter than
half of the address space: `exec` passes them on if the first word of the process lacks `PTE_P` or
`PTE_U`, and also if the first string that does not fit, if there is one, is not meant for addresses
that have no page table. -/
theorem exec_passes {p : Proc} {old : Pgdir} (ip path : List UInt8) (argv : List (List UInt8))
    (whole : p.Whole) (had : p.pgdir = some old) (owns : Owns L T m (old.pages + R))
    (short : ∀ arg ∈ argv, arg.length < 2147483648)
    (placed : p.NullRefused m ∨ ArgvPlaced L ip argv m) : ArgsPassed L ip path argv p m := by
  obtain ⟨ok, p', m', run, -, loaded⟩ := exec_returns ip path argv whole had owns
    fun elf pd m₁ sz pd₁ m₂ header magic setup prepare => ⟨short, placed.symm.imp
      (fun placed => placed elf pd m₁ sz pd₁ m₂ header magic setup prepare)
      fun refused m' => refused.harmless had⟩
  refine ⟨ok, p', m', run, fun success => ?_, fun large => ?_⟩
  · obtain ⟨⟨elf, hs, pd, sz, sp, -, -, rfl, new⟩, top⟩ := loaded success
    dsimp only at top
    subst top
    exact ⟨pd, argPointers sz argv, rfl, new.passed⟩
  · cases ok with
    | false => rfl
    | true =>
      obtain ⟨⟨elf, hs, pd, sz, sp, -, -, rfl, new⟩, top⟩ := loaded rfl
      dsimp only at top
      subst top
      exact absurd new.fits (Nat.not_le.mpr large)

/-! ## A string for the gap -/

/-- A string of 64 MB. -/
def longArg : List UInt8 := List.replicate 67108864 0x61

theorem longArg_length : longArg.length = 67108864 := List.length_replicate

/-- The string is meant for the gap, and what the null pointer leads to is what `exec` does. -/
theorem exec_longArg {p : Proc} {path : List UInt8} {h : Halt} {m₁ m₂ : Kmem}
    (setup : setupkvm L m = .ok (some pd, m₁))
    (prepare : stackImage L smallElf smallHeader pd m₁ = .ok (some 12288, pd', m₂))
    (holed : pd'.Holed) (read : nullEntry L p m m₂ = .error h) :
    exec L (some smallElf) path [longArg] p m = .error h := by
  have va : usub 12288 (longArg.length + 1) / 4 * 4 = 0xFC002FFC := by rw [longArg_length]; decide
  have closed : ¬ pd'.Tabled 0xFC002FFC := holed.not_tabled (by unfold Gap; decide)
  have push : pushStack (nullEntry L p m) pd' [longArg] 12288 m₂ = .error h := by
    rw [pushStack, pushArgs, if_neg (by decide)]
    dsimp only
    rw [va]
    rcases @copyout_turn 0xFC002FFC (longArg ++ [0]) (nullEntry L p m) pd' m₂ (by decide)
      (by rw [List.length_append, List.length_singleton]; omega) with
      ⟨-, stop⟩ | ⟨table, -⟩ | ⟨e, mapped, user, -⟩
    · rw [stop, read]
      rfl
    · exact absurd table closed
    · exact absurd (Pgdir.Accessible.tabled ⟨e, mapped, user⟩ (by decide)) closed
  have build : buildImage L (nullEntry L p m) smallElf smallHeader [longArg] pd m₁ = .error h := by
    rw [buildImage_eq, prepare, ok_bind, withArgs]
    dsimp only
    rw [push]
    rfl
  rw [exec]
  dsimp only
  rw [smallElf_header]
  dsimp only
  rw [if_neg (by decide), setup, ok_bind]
  dsimp only
  rw [build]
  rfl

/-- A store to a page that is there. -/
theorem Kernel.Reaches.store {k₀ k : Kernel} {p : Proc} {e : Pte}
    (run : Kernel.Reaches L OwnFaults k₀ k) (here : k.proc 0 = p) (ready : p.state = .runnable)
    (live : p.killed = false) (had : p.pgdir = some pd) (ha : a < 4294967296)
    (found : pd.userPte a true = some e) (b : UInt8) :
    Kernel.Reaches L OwnFaults k₀ { k with mem := k.mem.write e.ppn (a % pgsize) [b] } := by
  subst here
  have done : access L (.store b) a (k.proc 0) k.mem =
      .ok (.value b, k.proc 0, k.mem.write e.ppn (a % pgsize) [b]) := by
    rw [access, Proc.dir, had, ok_bind]
    dsimp only [Access.write]
    rw [found]
  have step := Kernel.step_mem (by decide) ready live (access_done ha done)
  have same : Kernel.setProc { k with mem := k.mem.write e.ppn (a % pgsize) [b] } 0 (k.proc 0) =
      { k with mem := k.mem.write e.ppn (a % pgsize) [b] } := by
    unfold Kernel.setProc
    rw [Function.update_eq_self]
  rw [same] at step
  refine run.tail (fun op other => ?_) step
  cases other
  refine ⟨fun _ other => (by cases other), fun acc va pd' same had' trapped => ?_⟩
  cases same
  rw [had] at had'
  cases had'
  rw [u32_of_lt ha] at trapped
  cases found.symm.trans trapped

/-- A process that has written four bytes to address 0 and has enough memory for the string. -/
structure FirstWord (L : Layout) (k₀ : Kernel) (w : Nat) (pd : Pgdir) (k : Kernel) : Prop where
  reached : Kernel.Reaches L OwnFaults k₀ k
  alive : k.Alive 0
  dir : (k.proc 0).pgdir = some pd
  kernel : ∀ v, kernPage ≤ v → pd.lookup v = kernelEntry L v
  size : longArg.length < (k.proc 0).sz
  room : 50000 ≤ k.mem.freelist.length
  fine : k.mem.oom = false
  word : (k.proc 0).firstWord k.mem = some w

theorem Booted.firstWord {k₀ : Kernel} (booted : Booted L k₀) (b₀ b₁ b₂ b₃ : UInt8) :
    ∃ pd k, FirstWord L k₀ (bytesToNat [b₀, b₁, b₂, b₃] 0 4) pd k := by
  obtain ⟨pd, q, had, lookup⟩ := booted.dir
  obtain ⟨run, alive, here⟩ := booted.maps ⟨0x5000000, by constructor <;> decide⟩ (by decide)
    (by decide)
  have store : ∀ {k} a b, a < 4096 → Kernel.Reaches L OwnFaults k₀ k →
      k.proc 0 = { k₀.proc 0 with sz := 0x5001000 } →
      Kernel.Reaches L OwnFaults k₀ { k with mem := k.mem.write q a [b] } := by
    intro k a b low run here
    have found : pd.userPte a true = some (permUser.entry q) := by
      rw [Pgdir.userPte, Pgdir.pte_eq_lookup _ (by omega), lookup,
        if_pos (show vpn a = 0 by simp only [vpn, pgsize]; omega)]
      rfl
    have stored := run.store here booted.state booted.killed had (by omega) found b
    rwa [Nat.mod_eq_of_lt (show a < pgsize from low)] at stored
  obtain ⟨k, run, proc, mem⟩ : ∃ k, Kernel.Reaches L OwnFaults k₀ k ∧
      k.proc 0 = { k₀.proc 0 with sz := 0x5001000 } ∧ k.mem =
        (((k₀.mem.write q 0 [b₀]).write q 1 [b₁]).write q 2 [b₂]).write q 3 [b₃] :=
    ⟨_, store 3 b₃ (by decide) (store 2 b₂ (by decide) (store 1 b₁ (by decide)
      (store 0 b₀ (by decide) run here) here) here) here, here, rfl⟩
  have dir : (k.proc 0).pgdir = some pd := by rw [proc]; exact had
  have bytes : (List.range 4).map (k.mem.data q) = [b₀, b₁, b₂, b₃] := by
    rw [mem]
    simp [Kmem.write, List.range_succ]
  refine ⟨pd, k, run, ⟨by decide, by rw [proc]; exact booted.alive_first.2⟩, dir, fun v high => ?_,
    ?_, by rw [mem]; exact booted.room, by rw [mem]; exact booted.oom, ?_⟩
  · rw [lookup, if_neg (by rintro rfl; exact absurd high (by decide))]
  · rw [longArg_length, proc]
    show 67108864 < 0x5001000
    decide
  · rw [Proc.firstWord, dir, Option.bind_some, Pgdir.pte_eq_lookup _ (by decide), lookup,
      if_pos (by decide), Option.map_some]
    exact congrArg (fun bs => some (bytesToNat bs 0 4)) bytes

/-- With zeros at address 0, two arguments are passed on and the string for the gap is refused. -/
theorem exec_passes_first : ∃ k₀ k, boot kernelSym blankMachine = .ok k₀ ∧
    Kernel.Reaches kernelSym OwnFaults k₀ k ∧
    ArgsPassed kernelSym smallElf [0x61] [[0x61], [0x62, 0x63]] (k.proc 0) k.mem ∧
    longArg.length < (k.proc 0).sz ∧ ∃ p' m',
      exec kernelSym (some smallElf) [0x61] [longArg] (k.proc 0) k.mem = .ok (false, p', m') := by
  obtain ⟨k₀, start, booted⟩ := boot_spec kernelSym blankMachine
  obtain ⟨pd, k, here⟩ := booted.firstWord 0 0 0 0
  obtain ⟨T, -, accounted⟩ := here.reached.fits.accounted booted
  obtain ⟨R, owns⟩ := accounted.dir here.alive here.dir
  have whole := here.reached.whole booted 0 here.alive
  have refused : (k.proc 0).NullRefused k.mem := ⟨_, here.word, .inl (by decide)⟩
  obtain ⟨ok, p', m', run, -, large⟩ := exec_passes smallElf [0x61] [longArg] whole here.dir owns
    (fun arg member => by
      rw [List.mem_singleton.mp member, longArg_length]
      decide) (.inl refused)
  obtain rfl : ok = false := large (by
    rw [stackBytes, argBytes_cons, longArg_length]
    decide)
  exact ⟨k₀, k, start, here.reached, exec_passes smallElf [0x61] _ whole here.dir owns (by decide)
    (.inl refused), here.size, p', m', run⟩

/-- With the number of a page of the kernel's code, `PTE_P` and `PTE_U` at address 0 the word is
taken for an entry.  `copyout` writes to the code, and the page fault stops the machine. -/
theorem exec_argument_remap : ∃ k₀ k, boot kernelSym blankMachine = .ok k₀ ∧
    Kernel.Reaches kernelSym OwnFaults k₀ k ∧ longArg.length < (k.proc 0).sz ∧
    (k.proc 0).firstWord k.mem = some 0x00100007 ∧
    exec kernelSym (some smallElf) [0x61] [longArg] (k.proc 0) k.mem = .error (.panic .remap) := by
  obtain ⟨k₀, start, booted⟩ := boot_spec kernelSym blankMachine
  obtain ⟨pd, k, here⟩ := booted.firstWord 7 0 0x10 0
  have word : (k.proc 0).firstWord k.mem = some 0x00100007 := here.word
  have room := here.room
  obtain ⟨T, -, accounted⟩ := here.reached.fits.accounted booted
  obtain ⟨R, owns⟩ := accounted.dir here.alive here.dir
  obtain ⟨d, m₁, setup, half, owns₁, left, oom⟩ := setupkvm_room owns (by omega)
  obtain ⟨d', m₂, prepare, -, holed, -, some_⟩ := smallElf_prepared owns₁ half
    (oom.trans here.fine) (by omega)
  have text : pd.lookup 524544 = some ⟨256, false, false⟩ := by
    rw [here.kernel _ (by decide)]
    decide
  refine ⟨k₀, k, start, here.reached, here.size, word, exec_longArg setup prepare holed ?_⟩
  rw [nullEntry, here.dir, word]
  dsimp only
  rw [if_neg (by decide), show p2v (0x00100007 / pgsize * pgsize) = 0x80100000 from rfl,
    Pgdir.pte_eq_lookup _ (by decide), show vpn 0x80100000 = 524544 from rfl, text]
  dsimp only
  rw [pageFaultHandler_remap (by decide) (by decide) text some_]
  rfl

end RandomRepo.Xv6

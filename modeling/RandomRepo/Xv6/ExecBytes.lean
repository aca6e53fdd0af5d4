import RandomRepo.Lib.Overlay
import RandomRepo.Xv6.AddrSpace
import RandomRepo.Xv6.Copyout

/-!
# The bytes of a new image

What an address space shows at each address, and how the steps of `exec` change
it: pages that come in are zero, `loaduvm` and `copyout` lay bytes over what is
there.
-/

namespace RandomRepo.Xv6

variable {L : Layout} {pd pd' : Pgdir} {m m' : Kmem} {T R : Multiset Nat} {f : Nat → UInt8}
  {sz newsz va a : Nat} {ip buf : List UInt8}

/-- The byte at an address of the address space. -/
def Pgdir.byteAt (pd : Pgdir) (m : Kmem) (a : Nat) : Option UInt8 :=
  (pd.lookup (vpn a)).map fun e => m.data e.ppn (a % pgsize)

/-- The pages below `sz` show `f`, which is zero above them. -/
structure Shows (pd : Pgdir) (m : Kmem) (sz : Nat) (f : Nat → UInt8) : Prop where
  bytes : ∀ a, vpn a < npages sz → pd.byteAt m a = some (f a)
  above : ∀ a, npages sz ≤ vpn a → f a = 0

theorem Shows.congr_size (shows_ : Shows pd m sz f) (same : npages newsz = npages sz) :
    Shows pd m newsz f :=
  ⟨fun a ha => shows_.bytes a (same ▸ ha), fun a ha => shows_.above a (same ▸ ha)⟩

theorem Shows.start : Shows pd m 0 fun _ => 0 :=
  ⟨fun _ none_ => absurd none_ (Nat.not_lt_zero _), fun _ _ => rfl⟩

/-- The pages of the user half stay as they are. -/
theorem Shows.congr (shows_ : Shows pd m sz f) (small : npages sz ≤ kernPage)
    (lookup : ∀ v, v < npages sz → (pd'.lookup v).map Pte.ppn = (pd.lookup v).map Pte.ppn)
    (data : ∀ v e, v < npages sz → v < kernPage → pd.lookup v = some e →
      m'.data e.ppn = m.data e.ppn) : Shows pd' m' sz f := by
  refine ⟨fun a ha => ?_, shows_.above⟩
  obtain ⟨e, mapped, byte⟩ := Option.map_eq_some_iff.mp (shows_.bytes a ha)
  have ppn := lookup _ ha
  rw [mapped, Option.map_some] at ppn
  obtain ⟨e', mapped', same⟩ := Option.map_eq_some_iff.mp ppn
  rw [Pgdir.byteAt, mapped', Option.map_some, same, data _ e ha (by omega) mapped, byte]

/-- `allocuvm` brings in zeros. -/
theorem Shows.allocuvm {r : Nat} (shows_ : Shows pd m sz f) (bound : sz < kernbase)
    (owns : Owns L T m (pd.pages + R)) (alloc : Allocuvm L pd sz newsz m r pd' m') (success : r ≠ 0) :
    Shows pd' m' r f := by
  have small := npages_le_kernPage (Nat.le_of_lt bound)
  cases alloc with
  | tooBig => exact absurd rfl success
  | smaller => exact shows_
  | outOfMemory => exact absurd rfl success
  | grown fits more pages gains zeroed =>
    have mono : npages sz ≤ npages newsz := Nat.div_le_div_right (by omega)
    refine ⟨fun a ha => ?_, fun a ha => shows_.above a (Nat.le_trans mono ha)⟩
    by_cases old : vpn a < npages sz
    · obtain ⟨fresh, gains⟩ := gains
      obtain ⟨e, mapped, byte⟩ := Option.map_eq_some_iff.mp (shows_.bytes a old)
      rw [Pgdir.byteAt, pages.other _ (by omega), mapped, Option.map_some,
        gains.same owns (by omega) mapped, byte]
    · have low : npages sz ≤ vpn a := Nat.le_of_not_lt old
      obtain ⟨q, mapped⟩ := pages.entry _ low (lt_npages.mp ha)
      have zero := zeroed T R owns _ _ low (lt_npages.mp ha) mapped
      rw [Pgdir.byteAt, mapped, Option.map_some, zero, shows_.above a low]

/-- Bytes written into the image. -/
theorem Shows.written (shows_ : Shows pd m sz f) (bound : sz < kernbase) (nodup : pd.pages.Nodup)
    (inside : va + buf.length ≤ npages sz * 4096) (written : Written pd va buf m m' buf.length) :
    Shows pd m' sz (overlay f va buf) := by
  have kp : kernPage = 524288 := rfl
  have small := npages_le_kernPage (Nat.le_of_lt bound)
  have small_page : ∀ {v}, v < npages sz → v < vpages := fun hv => by rw [vpages_eq]; omega
  refine ⟨fun a ha => ?_, fun a ha => ?_⟩
  · obtain ⟨e, mapped, byte⟩ := Option.map_eq_some_iff.mp (shows_.bytes a ha)
    have here : pd.place a = some (e.ppn, a % pgsize) := by
      rw [Pgdir.place, mapped]
      rfl
    rw [Pgdir.byteAt, mapped, Option.map_some]
    by_cases covered : va ≤ a ∧ a < va + buf.length
    · have address : u32 (va + (a - va)) = a := by
        rw [Nat.add_sub_cancel' covered.1, u32_of_lt (by omega)]
      rw [overlay_inside 0 covered.1 covered.2,
        written.bytes (a - va) (by omega) _ _ (by rw [address]; exact here)]
    · rw [overlay_outside covered, ← byte, written.frame]
      intro i hi again
      rw [u32_of_lt (by omega)] at again
      obtain ⟨e', mapped', same⟩ := Option.map_eq_some_iff.mp again
      have page : vpn (va + i) < npages sz := by
        simp only [vpn, pgsize]
        omega
      rw [Prod.mk.injEq] at same
      have equal := Pgdir.leaf_inj nodup (small_page page) (small_page ha) mapped' mapped
        (.inl (by omega)) (.inl (by omega)) same.1
      have offset := same.2
      simp only [vpn, pgsize] at equal offset
      omega
  · rw [overlay_outside, shows_.above a ha]
    intro covered
    simp only [vpn, pgsize] at ha
    omega

/-! ## `loaduvm` -/

/-- A read that has given all it was asked for. -/
theorem readi_full {off n : Nat} {bytes : List UInt8} (hoff : off < 4294967296) (small : n ≤ pgsize)
    (read : readi ip off n = some bytes) (full : bytes.length = n) (some_ : 0 < n) :
    bytes = (ip.drop off).take n ∧ off + n ≤ ip.length ∧ off + n < 4294967296 := by
  unfold readi at read
  simp only [pgsize] at small
  split_ifs at read with refused
  · cases read
    rw [List.length_take, List.length_drop] at full
    simp only [u32] at refused
    exact ⟨rfl, by omega, by omega⟩

/-- The bytes that a loop from `i` on still has to load. -/
def segmentRest (ip : List UInt8) (offset sz i : Nat) : List UInt8 :=
  (ip.drop (offset + i)).take (sz - i)

theorem segmentRest_turn {offset i : Nat} (inside : i < sz) :
    (ip.drop (offset + i)).take (min (sz - i) pgsize) ++ segmentRest ip offset sz (i + pgsize) =
      segmentRest ip offset sz i := by
  unfold segmentRest
  by_cases last : sz - i ≤ pgsize
  · have none_ : sz - (i + pgsize) = 0 := by omega
    rw [Nat.min_eq_left last, none_, List.take_zero, List.append_nil]
  · have more : sz - i = pgsize + (sz - (i + pgsize)) := by omega
    rw [Nat.min_eq_right (by omega)]
    conv_rhs => rw [more, List.take_add, List.drop_drop]
    rw [Nat.add_assoc]

/-- One turn of the loop over a page that is there. -/
theorem loadLoop_turn {addr offset i : Nat} {e : Pte} (inside : i < sz) (low : addr + i < 4294967296)
    (mapped : pd.lookup (vpn (addr + i)) = some e) :
    loadLoop pd addr ip offset sz i m =
      match readi ip (u32 (offset + i)) (min (sz - i) pgsize) with
      | none => .ok (false, m)
      | some bytes =>
        if bytes.length ≠ min (sz - i) pgsize then .ok (false, m.write e.ppn 0 bytes)
        else loadLoop pd addr ip offset sz (i + pgsize) (m.write e.ppn 0 bytes) := by
  have table := Pgdir.table_of_lookup mapped
  rw [← pdx_vpn low] at table
  rw [loadLoop, if_pos inside, u32_of_lt low, walkpgdir_false, table]
  dsimp only
  rw [Pgdir.pte_eq_lookup _ low, mapped]
  rfl

/-- Over pages that are there the loop returns, and if it does not fail the segment is loaded. -/
theorem loadLoop_spec (ip : List UInt8) (offset : Nat) {size addr i : Nat} {f : Nat → UInt8}
    {m : Kmem} (bound : size < kernbase) (nodup : pd.pages.Nodup) (shows_ : Shows pd m size f)
    (fits : addr + sz ≤ size) (aligned : (addr + i) % 4096 = 0)
    (hoff : i < sz → offset + i < 4294967296) :
    ∃ ok m', loadLoop pd addr ip offset sz i m = .ok (ok, m') ∧
      (ok = true → Shows pd m' size (overlay f (addr + i) (segmentRest ip offset sz i)) ∧
        (i < sz → offset + sz ≤ ip.length)) := by
  have kern : kernbase = 2147483648 := rfl
  by_cases inside : i < sz
  · have page : vpn (addr + i) < npages size := by
      simp only [vpn, pgsize, npages]
      omega
    obtain ⟨e, mapped, -⟩ := Option.map_eq_some_iff.mp (shows_.bytes _ page)
    rw [loadLoop_turn inside (by omega) mapped, u32_of_lt (hoff inside)]
    cases read : readi ip (offset + i) (min (sz - i) pgsize) with
    | none => exact ⟨false, m, rfl, fun impossible => absurd impossible Bool.false_ne_true⟩
    | some bytes =>
      dsimp only
      by_cases full : bytes.length = min (sz - i) pgsize
      · rw [if_neg (fun short => short full)]
        have progress : 0 < min (sz - i) pgsize := by simp only [pgsize]; omega
        obtain ⟨content, inFile, noWrap⟩ :=
          readi_full (hoff inside) (Nat.min_le_right _ _) read full progress
        have whole : chunk (addr + i) bytes.length = bytes.length := by
          rw [chunk, sub_pgrounddown, full]
          simp only [pgsize]
          omega
        have low : addr + i < 4294967296 := by omega
        have written := Written.chunk m bytes low mapped
        rw [whole, List.take_length] at written
        have start : (addr + i) % pgsize = 0 := aligned
        rw [start] at written
        have shows₁ := shows_.written bound nodup
          (by rw [full]; simp only [pgsize, npages]; omega) written
        have next : (addr + (i + pgsize)) % 4096 = 0 := by simp only [pgsize]; omega
        have hoff₁ : i + pgsize < sz → offset + (i + pgsize) < 4294967296 := by
          intro more
          have whole_ : min (sz - i) pgsize = pgsize := Nat.min_eq_right (by omega)
          rw [whole_, Nat.add_assoc] at noWrap
          exact noWrap
        obtain ⟨ok, m', rest, loaded⟩ := loadLoop_spec ip offset bound nodup shows₁ fits next hoff₁
        refine ⟨ok, m', rest, fun success => ?_⟩
        obtain ⟨final, length⟩ := loaded success
        refine ⟨?_, fun _ => ?_⟩
        · rw [← segmentRest_turn inside, ← content, ← overlay_append]
          by_cases more : i + pgsize < sz
          · have behind : addr + (i + pgsize) = addr + i + bytes.length := by
              rw [full]
              simp only [pgsize] at more ⊢
              omega
            rwa [behind] at final
          · have none_ : segmentRest ip offset sz (i + pgsize) = [] := by
              rw [segmentRest, Nat.sub_eq_zero_of_le (by omega), List.take_zero]
            rw [none_, overlay_nil] at final ⊢
            exact final
        · by_cases more : i + pgsize < sz
          · exact length more
          · simp only [pgsize] at more inFile
            omega
      · rw [if_pos full]
        exact ⟨false, _, rfl, fun impossible => absurd impossible Bool.false_ne_true⟩
  · have none_ : segmentRest ip offset sz i = [] := by
      rw [segmentRest, Nat.sub_eq_zero_of_le (by omega), List.take_zero]
    refine ⟨true, m, by rw [loadLoop, if_neg inside], fun _ => ⟨?_, fun more => absurd more inside⟩⟩
    rw [none_, overlay_nil]
    exact shows_
  termination_by sz - i
  decreasing_by simp only [pgsize]; omega

end RandomRepo.Xv6

import CodalMicrobit.MicroBitFlash

/-!
# Writing the internal flash

A write burns the words it meets, either over the page as it is, when no bit has to be set, or over the erased page with a
copy of it in the scratch page to fill in the rest. One lemma says what the loop over the words does in both cases.
-/

namespace CodalMicrobit

open Nor

namespace MicroBitFlash

variable {m : Memory} {fromBuffer : List UInt8} {pgAddr offset writeFrom : Nat}

/-- Byte `i` of the page as `flash_write` puts it together. -/
def newByte (m : Memory) (fromBuffer : List UInt8) (offset writeFrom i : Nat) : UInt8 :=
  if offset ≤ i ∧ i < offset + fromBuffer.length then fromBuffer.getD (i - offset) 0 else m (writeFrom + i)

/-- What burning one word does to each byte. -/
theorem burnWord_apply (m : Memory) (fromBuffer : List UInt8) (pgAddr offset writeFrom w x : Nat) :
    burnWord fromBuffer pgAddr offset writeFrom m w x =
      if pgAddr + 4 * w ≤ x ∧ x < pgAddr + 4 * w + 4 then m x &&& newByte m fromBuffer offset writeFrom (x - pgAddr)
      else m x := by
  unfold burnWord flashBurn program newByte
  by_cases h : pgAddr + 4 * w ≤ x ∧ x < pgAddr + 4 * w + 4
  · have hi : 4 * w + (x - (pgAddr + 4 * w)) = x - pgAddr := by omega
    rw [if_pos h, if_pos h]
    dsimp only
    rw [hi]
  · rw [if_neg h, if_neg h]

/-- The loop over the words from `start` on. The bytes it copies are those that were there before it, since they lie in
words it has not come to yet, or outside the words it burns. -/
theorem burnWords_apply (start n : Nat)
    (hfrom : writeFrom = pgAddr ∨ writeFrom + 4 * (start + n) ≤ pgAddr ∨ pgAddr + 4 * (start + n) ≤ writeFrom) (x : Nat) :
    (List.range' start n).foldl (burnWord fromBuffer pgAddr offset writeFrom) m x =
      if pgAddr + 4 * start ≤ x ∧ x < pgAddr + 4 * (start + n) then
        m x &&& newByte m fromBuffer offset writeFrom (x - pgAddr)
      else m x := by
  induction n generalizing x with
  | zero =>
    rw [if_neg (by omega)]
    rfl
  | succ n ih =>
    have ih := ih (by omega)
    rw [List.range'_1_concat, List.foldl_append, List.foldl_cons, List.foldl_nil, burnWord_apply]
    by_cases hw : pgAddr + 4 * (start + n) ≤ x ∧ x < pgAddr + 4 * (start + n) + 4
    · have hsame : (List.range' start n).foldl (burnWord fromBuffer pgAddr offset writeFrom) m (writeFrom + (x - pgAddr)) =
          m (writeFrom + (x - pgAddr)) := by
        rw [ih, if_neg (by omega)]
      rw [if_pos hw, if_pos (by omega), ih, if_neg (by omega), newByte, newByte, hsame]
    · rw [if_neg hw, ih]
      by_cases hin : pgAddr + 4 * start ≤ x ∧ x < pgAddr + 4 * (start + n)
      · rw [if_pos hin, if_pos (by omega)]
      · rw [if_neg hin, if_neg (by omega)]

/-- `need_erase` is false exactly when every byte can be written over the flash as it is. -/
theorem needErase_eq_false (source : List UInt8) (m : Memory) (a : Nat) :
    needErase source m a = false ↔ ∀ k (h : k < source.length), Legal (m (a + k)) source[k] := by
  have hbyte : ∀ old new : UInt8, ~~~old &&& new = 0 ↔ Legal old new := by
    intro old new
    unfold Legal
    rw [← UInt8.toBitVec_inj, ← UInt8.toBitVec_inj]
    simp only [UInt8.toBitVec_and, UInt8.toBitVec_not, UInt8.toBitVec_ofNat]
    constructor
    · intro h
      ext i hi
      have hb := congrArg (fun v : BitVec 8 => v[i]) h
      simp only [BitVec.getElem_and, BitVec.getElem_not] at hb ⊢
      cases hx : old.toBitVec[i] <;> cases hy : new.toBitVec[i] <;> simp_all
    · intro h
      ext i hi
      have hb := congrArg (fun v : BitVec 8 => v[i]) h
      simp only [BitVec.getElem_and, BitVec.getElem_not] at hb ⊢
      cases hx : old.toBitVec[i] <;> cases hy : new.toBitVec[i] <;> simp_all
  unfold needErase
  rw [List.any_eq_false]
  constructor
  · intro h k hk
    have := h k (List.mem_range.mpr hk)
    rwa [List.getD_eq_getElem _ _ hk, Bool.not_eq_true, bne_eq_false_iff_eq, hbyte] at this
  · intro h k hk
    have hk := List.mem_range.mp hk
    rw [List.getD_eq_getElem _ _ hk, Bool.not_eq_true, bne_eq_false_iff_eq, hbyte]
    exact h k hk

/-- In place: only the bytes of the buffer change. The words before and after them are written over themselves, the one
after the last of them included. -/
theorem flashWrite_in_place {address scratchAddr : Nat} (hs : scratchAddr % MICROBIT_CODEPAGESIZE = 0)
    (he : needErase fromBuffer m address = false) :
    flashWrite m address fromBuffer scratchAddr = (.DEVICE_OK, put m address fromBuffer) := by
  unfold flashWrite
  rw [if_neg (by omega), he]
  simp only [Bool.false_eq_true, if_false]
  congr 1
  funext x
  have hadd : address / MICROBIT_CODEPAGESIZE * MICROBIT_CODEPAGESIZE + address % MICROBIT_CODEPAGESIZE = address := by
    rw [Nat.mul_comm]
    exact Nat.div_add_mod _ _
  generalize address / MICROBIT_CODEPAGESIZE * MICROBIT_CODEPAGESIZE = pgAddr at hadd ⊢
  generalize address % MICROBIT_CODEPAGESIZE = offset at hadd ⊢
  rw [burnWords_apply _ _ (Or.inl rfl)]
  by_cases hx : address ≤ x ∧ x < address + fromBuffer.length
  · have hk : x - pgAddr - offset = x - address := by omega
    have hleg := (needErase_eq_false _ _ _).mp he (x - address) (by omega)
    rw [show address + (x - address) = x by omega] at hleg
    rw [if_pos (by omega), newByte, if_pos (by omega), put_of_mem m _ hx.1 (by omega), hk,
      List.getD_eq_getElem _ _ (by omega)]
    exact hleg
  · rw [put_of_not_mem m _ hx]
    split
    · rw [newByte, if_neg (by omega), show pgAddr + (x - pgAddr) = x by omega]
      exact UInt8.and_self
    · rfl

/-- What erasing a page does to each byte. -/
theorem erasePage_apply (m : Memory) (pgAddr x : Nat) :
    erasePage m pgAddr x = if pgAddr ≤ x ∧ x < pgAddr + 4096 then blank else m x := rfl

/-- What burning a buffer does to each byte. -/
theorem flashBurn_apply (m : Memory) (addr : Nat) (buffer : Nat → UInt8) (size x : Nat) :
    flashBurn m addr buffer size x = if addr ≤ x ∧ x < addr + 4 * size then m x &&& buffer (x - addr) else m x := rfl

/-- The flash when the loop starts: the page is erased, and the scratch page holds what it held. -/
def prepared (m : Memory) (scratchAddr pgAddr : Nat) : Memory :=
  erasePage (flashBurn (erasePage m scratchAddr) scratchAddr (fun k => erasePage m scratchAddr (pgAddr + k)) 1024) pgAddr

/-- Each byte after the page was saved in the scratch page and erased. -/
theorem prepared_apply {scratchAddr : Nat} (hdisj : scratchAddr + 4096 ≤ pgAddr ∨ pgAddr + 4096 ≤ scratchAddr) (x : Nat) :
    prepared m scratchAddr pgAddr x =
      if pgAddr ≤ x ∧ x < pgAddr + 4096 then blank
      else if scratchAddr ≤ x ∧ x < scratchAddr + 4096 then m (pgAddr + (x - scratchAddr)) else m x := by
  rw [prepared, erasePage_apply]
  by_cases hp : pgAddr ≤ x ∧ x < pgAddr + 4096
  · rw [if_pos hp, if_pos hp]
  · rw [if_neg hp, if_neg hp, flashBurn_apply, erasePage_apply, erasePage_apply]
    by_cases hs : scratchAddr ≤ x ∧ x < scratchAddr + 4096
    · rw [if_pos (by omega), if_pos hs, if_pos hs, if_neg (by omega), blank_and]
    · rw [if_neg (by omega), if_neg hs, if_neg hs]

/-- With an erase: the page is put together from the buffer and from the scratch page, which holds what it held. -/
theorem flashWrite_erasing {address scratchAddr x : Nat} (hs : scratchAddr % MICROBIT_CODEPAGESIZE = 0)
    (h0 : scratchAddr ≠ 0) (hpage : address % MICROBIT_CODEPAGESIZE + fromBuffer.length ≤ MICROBIT_CODEPAGESIZE)
    (hne : scratchAddr / MICROBIT_CODEPAGESIZE ≠ address / MICROBIT_CODEPAGESIZE)
    (he : needErase fromBuffer m address = true)
    (hx : ¬(scratchAddr ≤ x ∧ x < scratchAddr + MICROBIT_CODEPAGESIZE)) :
    (flashWrite m address fromBuffer scratchAddr).1 = .DEVICE_OK ∧
      (flashWrite m address fromBuffer scratchAddr).2 x = put m address fromBuffer x := by
  unfold flashWrite
  rw [if_neg (by omega), he]
  simp only [if_true, if_neg h0]
  refine ⟨trivial, ?_⟩
  have hadd : address / MICROBIT_CODEPAGESIZE * MICROBIT_CODEPAGESIZE + address % MICROBIT_CODEPAGESIZE = address := by
    rw [Nat.mul_comm]
    exact Nat.div_add_mod _ _
  have hdisj : scratchAddr + MICROBIT_CODEPAGESIZE ≤ address / MICROBIT_CODEPAGESIZE * MICROBIT_CODEPAGESIZE ∨
      address / MICROBIT_CODEPAGESIZE * MICROBIT_CODEPAGESIZE + MICROBIT_CODEPAGESIZE ≤ scratchAddr := by
    unfold MICROBIT_CODEPAGESIZE at *
    omega
  generalize address / MICROBIT_CODEPAGESIZE * MICROBIT_CODEPAGESIZE = pgAddr at hadd hdisj ⊢
  generalize address % MICROBIT_CODEPAGESIZE = offset at hadd hpage ⊢
  change offset + fromBuffer.length ≤ 4096 at hpage
  change scratchAddr + 4096 ≤ pgAddr ∨ pgAddr + 4096 ≤ scratchAddr at hdisj
  change ¬(scratchAddr ≤ x ∧ x < scratchAddr + 4096) at hx
  change ((List.range 1024).foldl (burnWord fromBuffer pgAddr offset scratchAddr) (prepared m scratchAddr pgAddr)) x = _
  rw [List.range_eq_range', burnWords_apply _ _ (by omega)]
  by_cases hin : pgAddr ≤ x ∧ x < pgAddr + 4096
  · rw [if_pos (by omega), prepared_apply hdisj, if_pos hin, blank_and, newByte]
    by_cases ht : address ≤ x ∧ x < address + fromBuffer.length
    · rw [if_pos (by omega), put_of_mem m _ ht.1 (by omega), show x - pgAddr - offset = x - address by omega,
        List.getD_eq_getElem _ _ (by omega)]
    · rw [if_neg (by omega), put_of_not_mem m _ ht, prepared_apply hdisj, if_neg (by omega), if_pos (by omega)]
      congr 1
      omega
  · rw [if_neg (by omega), put_of_not_mem m _ (by omega), prepared_apply hdisj, if_neg hin, if_neg hx]

/-- `flash_write`. A scratch address that is not that of a page is rejected and the flash is as it was. Else, where the
write stays in one page and the scratch page is another one, it succeeds, the flash holds the buffer where it was written,
and every other byte outside the scratch page is as it was. -/
theorem flash_write_exact (bootloaderAddress : Nat) (m : Memory) (address : Nat) (fromBuffer : List UInt8)
    (scratchAddr : Nat) :
    (scratchPage bootloaderAddress scratchAddr % MICROBIT_CODEPAGESIZE ≠ 0 →
      flashWriteOrDefault bootloaderAddress m address fromBuffer scratchAddr = (.DEVICE_INVALID_PARAMETER, m)) ∧
    (scratchPage bootloaderAddress scratchAddr % MICROBIT_CODEPAGESIZE = 0 →
      scratchPage bootloaderAddress scratchAddr ≠ 0 →
      scratchPage bootloaderAddress scratchAddr / MICROBIT_CODEPAGESIZE ≠ address / MICROBIT_CODEPAGESIZE →
      address % MICROBIT_CODEPAGESIZE + fromBuffer.length ≤ MICROBIT_CODEPAGESIZE →
      (flashWriteOrDefault bootloaderAddress m address fromBuffer scratchAddr).1 = .DEVICE_OK ∧
      slice (flashWriteOrDefault bootloaderAddress m address fromBuffer scratchAddr).2 address fromBuffer.length =
        fromBuffer ∧
      ∀ x, ¬(address ≤ x ∧ x < address + fromBuffer.length) →
        ¬(scratchPage bootloaderAddress scratchAddr ≤ x ∧
          x < scratchPage bootloaderAddress scratchAddr + MICROBIT_CODEPAGESIZE) →
        (flashWriteOrDefault bootloaderAddress m address fromBuffer scratchAddr).2 x = m x) := by
  unfold flashWriteOrDefault
  generalize scratchPage bootloaderAddress scratchAddr = scratch
  refine ⟨fun hs => ?_, fun hs h0 hne hpage => ?_⟩
  · unfold flashWrite
    rw [if_pos hs]
  have hput : (flashWrite m address fromBuffer scratch).1 = .DEVICE_OK ∧
      ∀ x, ¬(scratch ≤ x ∧ x < scratch + MICROBIT_CODEPAGESIZE) →
        (flashWrite m address fromBuffer scratch).2 x = put m address fromBuffer x := by
    cases he : needErase fromBuffer m address with
    | false =>
      rw [flashWrite_in_place hs he]
      exact ⟨rfl, fun _ _ => rfl⟩
    | true =>
      have hout : ¬(scratch ≤ scratch + MICROBIT_CODEPAGESIZE ∧
          scratch + MICROBIT_CODEPAGESIZE < scratch + MICROBIT_CODEPAGESIZE) := by omega
      exact ⟨(flashWrite_erasing hs h0 hpage hne he hout).1, fun x hx => (flashWrite_erasing hs h0 hpage hne he hx).2⟩
  refine ⟨hput.1, ?_, fun x hx hxs => ?_⟩
  · rw [slice_eq_iff]
    refine ⟨rfl, fun k hk => ?_⟩
    have hxs : ¬(scratch ≤ address + k ∧ address + k < scratch + MICROBIT_CODEPAGESIZE) := by
      unfold MICROBIT_CODEPAGESIZE at *
      omega
    rw [hput.2 _ hxs, put_add m address k fromBuffer hk]
  · rw [hput.2 x hxs, put_of_not_mem m fromBuffer hx]

/-- `flash_write_exact` for a byte that needs an erase, with the default scratch page. -/
theorem flash_write_exact_one_byte :
    (flashWriteOrDefault 0x77000 (fun _ => 0) 0x38001 [0xA5] 0).1 = .DEVICE_OK :=
  ((flash_write_exact 0x77000 (fun _ => 0) 0x38001 [0xA5] 0).2 (by decide) (by decide) (by decide) (by decide)).1

end MicroBitFlash

end CodalMicrobit

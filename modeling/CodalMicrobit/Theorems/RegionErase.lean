import CodalMicrobit.Lemmas.EraseRegion

/-!
# Erasing a region

An erase of a region leaves 0xFF in the region and everything else as it was, wherever the region starts and ends. The chip
is assumed to do what its protocol says, for transactions that succeed: to return the bytes that are read, to program the
bytes that are written, and to erase the block it is told to.
-/

namespace CodalMicrobit

open Nor Attempts

namespace USBFlashManager

variable {State : Type}

/-- The chip carries out requests on word boundaries inside its storage: `mem` is what it stores. -/
structure Works (chip : InterfaceChip State) (g : Geometry) (mem : State → Memory) : Prop where
  read : ∀ s a n, 4 ∣ a → 4 ∣ n → 0 < n → a + n ≤ g.getFlashEnd →
    ∃ h s', h.length = 8 ∧ mem s' = mem s ∧
      chip.transact s (header MICROBIT_USB_FLASH_READ_CMD a n) (n + 8) = (h ++ slice (mem s) a n, s')
  write : ∀ s a data, 4 ∣ a → 4 ∣ data.length → 0 < data.length → data.length ≤ KL27_FLASH_MAX_WRITE_LENGTH →
    a + data.length ≤ g.getFlashEnd →
    ∃ r s', r ≠ [] ∧ mem s' = program (mem s) a data.length (fun k => data.getD k 0) ∧
      chip.transact s (header MICROBIT_USB_FLASH_WRITE_CMD a data.length ++ data) 9 = (r, s')
  erase : ∀ s page, g.blockSize ∣ page → page + g.blockSize ≤ g.getFlashEnd →
    ∃ r s', r ≠ [] ∧ mem s' = Nor.erase (mem s) page g.blockSize ∧
      chip.transact s (header MICROBIT_USB_FLASH_ERASE_CMD page page) 1 = (r, s')

variable {chip : InterfaceChip State} {g : Geometry} {mem : State → Memory}

/-- Such a chip carries out and answers everything. -/
theorem Works.follows (hw : Works chip g mem) : Follows chip g mem (fun _ _ => .done) where
  refused _ _ _ h := nomatch h
  read s a n ha hn hpos hin _ := by
    obtain ⟨h, s', hh, hm, hs'⟩ := hw.read s a n ha hn hpos hin
    exact ⟨h, s', hh, rfl, hm, hs'⟩
  write s a data ha h4 hpos hmax hin _ := by
    obtain ⟨r, s', hr, hm, hs'⟩ := hw.write s a data ha h4 hpos hmax hin
    exact ⟨r, s', iff_of_false hr (fun h => h rfl), rfl, hm, hs'⟩
  erase s page hd hin _ := by
    obtain ⟨r, s', hr, hm, hs'⟩ := hw.erase s page hd hin
    exact ⟨r, s', iff_of_false hr (fun h => h rfl), rfl, hm, hs'⟩

/-- On a chip that works, `write` programs its bytes. -/
theorem write_program (hw : Works chip g mem) (s : State) {data : List UInt8} {a : Nat} (ha : 4 ∣ a)
    (h4 : 4 ∣ data.length) (hin : a + data.length ≤ g.getFlashEnd) :
    ∃ s', write chip s data a = (.DEVICE_OK, s') ∧
      mem s' = program (mem s) a data.length (fun k => data.getD k 0) := by
  have hall : ∀ n, answered (fun _ => Reply.done) n = true := answered_of_done fun _ => rfl
  obtain ⟨s', hs', -, hm⟩ := hw.follows.writeBuffer s ha h4 hin
  rw [hall] at hs'
  rw [written_of_answered (hall _)] at hm
  exact ⟨s', hs', hm⟩

/-- What `erase` does, on either of its paths. -/
theorem erase_region (hw : Works chip g mem) (h4 : 4 ∣ g.blockSize) (s : State) {address length : Nat} (ha : 4 ∣ address)
    (hl : 1 ≤ length) (hin : address + length * 4 ≤ g.getFlashEnd) :
    ∃ s', erase chip g s address length = some (.DEVICE_OK, s') ∧ mem s' = Nor.erase (mem s) address (length * 4) := by
  have hall : ∀ n, answered (fun _ => Reply.done) n = true := answered_of_done fun _ => rfl
  obtain ⟨hb, hr⟩ := region_of_inside (show 0 < address + length * 4 by omega) (Nat.le_add_right address _) hin
  have hstart := hr.start
  have hstop := hr.stop
  obtain ⟨s', hs', hm⟩ := erase_spec hw.follows h4 s ha rfl (by omega) hin
  have herased : erased g address (address + length * 4) (fun _ => Reply.done) = true := hall _
  have hblock : address / g.blockSize * g.blockSize + blocks g address (address + length * 4) * g.blockSize =
      (lastBlock g (address + length * 4) + 1) * g.blockSize := by
    rw [← Nat.add_mul, blocks, Nat.add_sub_cancel' hr.le]
  have hfront : written (frontWrites g address (address + length * 4) (fun _ => Reply.done))
      (savedFront g address (fun _ => Reply.done)) = front g address := written_of_answered (hall _)
  have hback : written (backWrites g address (address + length * 4) (fun _ => Reply.done))
      (savedBack g address (address + length * 4) (fun _ => Reply.done)) = back g (address + length * 4) :=
    written_of_answered (hall _)
  rw [herased] at hs'
  rw [herased, if_pos rfl, hfront, hback] at hm
  refine ⟨s', hs', ?_⟩
  funext x
  rw [hm, restored_at _ (by omega) (by omega), Nor.erase]
  by_cases hx : address ≤ x ∧ x < address + length * 4
  · rw [if_pos (by omega), if_pos hx]
  · rw [if_neg (by omega), if_neg hx]

/-- An erase of a region, whatever it shares blocks with: exactly the bytes of the region become 0xFF. -/
theorem erase_exact (hw : Works chip g mem) (h4 : 4 ∣ g.blockSize) (s : State) (address length : Nat) (ha : 4 ∣ address)
    (hl : 1 ≤ length) (hin : address + 4 * length ≤ g.getFlashEnd) :
    ∃ s', erase chip g s address length = some (.DEVICE_OK, s') ∧
      ∀ x, mem s' x = if address ≤ x ∧ x < address + 4 * length then 0xFF else mem s x := by
  obtain ⟨s', hs', hmem⟩ := erase_region hw h4 s ha hl (by omega)
  rw [Nat.mul_comm 4 length]
  exact ⟨s', hs', fun x => congrFun hmem x⟩

/-! ## A chip -/

/-- A chip that keeps its storage in `m` and never fails. -/
def workingChip (g : Geometry) : InterfaceChip Memory where
  transact m request _ :=
    let cmd := ntoh (request.take 1)
    let address := ntoh ((request.drop 1).take 3)
    let n := ntoh ((request.drop 4).take 4)
    if cmd = MICROBIT_USB_FLASH_READ_CMD then (request.take 8 ++ slice m address n, m)
    else if cmd = MICROBIT_USB_FLASH_WRITE_CMD then
      (request.take 1, program m address n fun k => (request.drop 8).getD k 0)
    else (request.take 1, Nor.erase m address g.blockSize)

/-- The chip that does what it is asked works. -/
theorem workingChip_works (g : Geometry) : Works (workingChip g) g id where
  read s a n _ _ _ hin := by
    have := g.getFlashEnd_lt
    obtain ⟨hc, ha, hn, -, -⟩ := header_fields MICROBIT_USB_FLASH_READ_CMD a n []
      (by decide) (by omega) (by omega)
    rw [List.append_nil] at hc ha hn
    refine ⟨header MICROBIT_USB_FLASH_READ_CMD a n, s, rfl, rfl, ?_⟩
    simp only [workingChip, hc, ha, hn, if_true]
    rfl
  write s a data _ _ _ _ hin := by
    have := g.getFlashEnd_lt
    obtain ⟨hc, ha, hn, hd, hne⟩ :=
      header_fields MICROBIT_USB_FLASH_WRITE_CMD a data.length data (by decide) (by omega) (by omega)
    refine ⟨_, _, hne, rfl, ?_⟩
    simp only [workingChip, hc, ha, hn, hd, if_true]
    rfl
  erase s page _ hin := by
    have := g.getFlashEnd_lt
    obtain ⟨hc, ha, -, -, hne⟩ := header_fields MICROBIT_USB_FLASH_ERASE_CMD page page []
      (by decide) (by omega) (by omega)
    rw [List.append_nil] at hc ha hne
    refine ⟨_, _, hne, rfl, ?_⟩
    simp only [workingChip, hc, ha]
    rfl

/-- `erase_exact` for a region of two words inside one block. -/
theorem erase_exact_two_words :
    ∃ s', erase (workingChip ⟨16, 2, by decide, by decide⟩) ⟨16, 2, by decide, by decide⟩ (fun _ => 0) 20 2 =
      some (.DEVICE_OK, s') ∧ ∀ x, s' x = if 20 ≤ x ∧ x < 20 + 4 * 2 then 0xFF else 0 :=
  erase_exact (workingChip_works _) (by decide) _ 20 2 (by decide) (by decide) (by decide)

/-! ## The storage as its users see it -/

/-- Erasing a block is the `erase` of the storage. -/
theorem erase_refines (hw : Works chip g mem) (h4 : 4 ∣ g.blockSize) (hb : 0 < g.blockSize) (s : State) {page : Nat}
    (hd : g.blockSize ∣ page) (hin : page + g.blockSize ≤ g.getFlashEnd) (trace : List Op) :
    ∃ s', erase chip g s page (g.blockSize / 4) = some (.DEVICE_OK, s') ∧
      mem s' = ((⟨mem s, trace⟩ : Flash g).erase page).mem := by
  have hone : 1 ≤ g.blockSize / 4 := Nat.div_pos (Nat.le_of_dvd hb h4) (by decide)
  have hfit : page + g.blockSize / 4 * 4 ≤ g.getFlashEnd := by rwa [Nat.div_mul_cancel h4]
  obtain ⟨s', hs', hmem⟩ := erase_region hw h4 s (h4.trans hd) hone hfit
  refine ⟨s', hs', ?_⟩
  rw [hmem, Nat.div_mul_cancel h4, Flash.erase_eq _ hin]
  rfl

/-- Writing whole words is the `write` of the storage. -/
theorem write_refines (hw : Works chip g mem) (s : State) {data : List UInt8} {a : Nat} (ha : 4 ∣ a)
    (h4 : 4 ∣ data.length) (hin : a + data.length ≤ g.getFlashEnd) (trace : List Op) :
    mem (write chip s data a).2 =
      ((⟨mem s, trace⟩ : Flash g).write a (fun k => data.getD k 0) (data.length / 4)).mem := by
  obtain ⟨s', hs', hmem⟩ := write_program hw s ha h4 hin
  rw [hs', hmem, Flash.write_eq _ _ (by omega), Nat.mul_div_cancel' h4]

end USBFlashManager

end CodalMicrobit

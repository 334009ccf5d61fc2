import CodalMicrobit.MicroBitMemoryMap
import CodalMicrobit.Lib.Outcome

/-!
# Layout records

`processRecord` takes the slot of a record from its identifier, less one. It rejects identifiers that are too great, but not zero:
the slot is then number 255 of a map of three.
-/

namespace CodalMicrobit

open Nor

namespace MicroBitMemoryMap

/-- The addresses of the layout records that `findHashes` comes to, page by page. It stops at a MakeCode program. -/
def layoutRecords (m : Memory) : List Nat → List Nat
  | [] => []
  | magicAddress :: pages =>
    if isMakeCode m magicAddress then []
    else if isPython m magicAddress then pythonRecords m magicAddress ++ layoutRecords m pages
    else layoutRecords m pages

/-- What `processRecord` is meant to do with a record: store it in the slot of its identifier, and leave the others alone, or reject
it and leave the map alone. -/
inductive Handled (crc32 : List UInt8 → UInt32) (m : Memory) (address : Nat) (s : MicroBitMemoryMap) : Prop where
  | stored (t : MicroBitMemoryMap) (h : s.processRecord crc32 m address = .ok (.DEVICE_OK, t))
      (hid : 1 ≤ (layoutRecord m address).id.toNat ∧ (layoutRecord m address).id.toNat ≤ NUMBER_OF_REGIONS)
      (hslot : ∀ i (hi : i < NUMBER_OF_REGIONS), t.memoryMap[i] =
        if i + 1 = (layoutRecord m address).id.toNat then (layoutRecord m address).region crc32 m else s.memoryMap[i])
  | rejected (h : s.processRecord crc32 m address = .ok (.DEVICE_INVALID_PARAMETER, s))

/-- `findHashes` comes back, which it does not when it has written outside of the map, and each record is handled as it should,
whatever the map is by then. -/
structure Safe (b : FlashBounds) (crc32 : List UInt8 → UInt32) (m : Memory) (s : MicroBitMemoryMap) : Prop where
  run : ∃ t, s.findHashes b crc32 m = .ok t
  records : ∀ address ∈ layoutRecords m (pages b), ∀ t, Handled crc32 m address t

variable {b : FlashBounds} {crc32 : List UInt8 → UInt32} {m : Memory} {s : MicroBitMemoryMap} {address : Nat}

/-- A record with the identifier 0 is stored outside of the map. -/
theorem processRecord_zero (s : MicroBitMemoryMap) (h : (layoutRecord m address).id = 0) :
    s.processRecord crc32 m address = .error (.outside 255) := by
  unfold processRecord
  dsimp only
  rw [h, if_neg (by decide), dif_neg (by decide)]
  rfl

/-- Any other one is stored in its slot, or rejected. -/
theorem processRecord_handled (s : MicroBitMemoryMap) (h : (layoutRecord m address).id ≠ 0) : Handled crc32 m address s := by
  by_cases hid : (layoutRecord m address).id.toNat > NUMBER_OF_REGIONS
  · refine .rejected ?_
    unfold processRecord
    dsimp only
    rw [if_pos hid]
  · have hpos : 1 ≤ (layoutRecord m address).id.toNat :=
      Nat.one_le_iff_ne_zero.mpr fun h0 => h (UInt8.toNat_inj.mp h0)
    have hindex : ((layoutRecord m address).id - 1).toNat + 1 = (layoutRecord m address).id.toNat := by
      have h1 : (1 : UInt8) ≤ (layoutRecord m address).id := UInt8.le_iff_toNat_le.mpr hpos
      rw [UInt8.toNat_sub_of_le _ _ h1]
      exact Nat.sub_add_cancel hpos
    have hlt : ((layoutRecord m address).id - 1).toNat < NUMBER_OF_REGIONS := by omega
    refine .stored { s with memoryMap := s.memoryMap.set _ ((layoutRecord m address).region crc32 m) hlt } ?_
      ⟨hpos, Nat.le_of_not_lt hid⟩ fun i hi => ?_
    · unfold processRecord
      dsimp only
      rw [if_neg hid, dif_pos hlt]
    · change (s.memoryMap.set _ _ hlt)[i] = _
      rw [Vector.getElem_set]
      refine if_congr ?_ rfl rfl
      rw [← hindex]
      exact ⟨fun h => by rw [h], fun h => (Nat.succ_inj.mp h).symm⟩

/-- The records of a page are processed without a fault exactly if none has the identifier 0. -/
theorem foldlM_ok_iff (l : List Nat) : ∀ s : MicroBitMemoryMap, (∃ t, (l.foldlM (fun s address => do
    let (_, s) ← s.processRecord crc32 m address
    .ok s) s : Except MapFault MicroBitMemoryMap) = .ok t) ↔ ∀ address ∈ l, (layoutRecord m address).id ≠ 0 := by
  induction l with
  | nil => exact fun s => iff_of_true ⟨s, rfl⟩ nofun
  | cons address l ih =>
    intro s
    rw [List.foldlM_cons, List.forall_mem_cons]
    by_cases h : (layoutRecord m address).id = 0
    · rw [processRecord_zero s h]
      refine iff_of_false ?_ fun h' => h'.1 h
      rintro ⟨t, ht⟩
      nomatch ht
    · obtain ⟨e, t, ht⟩ : ∃ e t, s.processRecord crc32 m address = .ok (e, t) := by
        have hhandled : Handled crc32 m address s := processRecord_handled s h
        cases hhandled with
        | stored t ht => exact ⟨_, t, ht⟩
        | rejected ht => exact ⟨_, s, ht⟩
      rw [ht]
      exact (ih t).trans ⟨fun hl => ⟨h, hl⟩, And.right⟩

/-- The walk over the pages comes back exactly if no record on its way has the identifier 0. -/
theorem findPages_ok_iff (b : FlashBounds) (pages : List Nat) : ∀ s : MicroBitMemoryMap,
    (∃ t, s.findPages b crc32 m pages = .ok t) ↔ ∀ address ∈ layoutRecords m pages, (layoutRecord m address).id ≠ 0 := by
  induction pages with
  | nil => exact fun s => iff_of_true ⟨s, rfl⟩ nofun
  | cons magicAddress pages ih =>
    intro s
    rw [findPages, layoutRecords]
    by_cases hm : isMakeCode m magicAddress
    · rw [if_pos hm, if_pos hm]
      exact iff_of_true ⟨_, rfl⟩ nofun
    · rw [if_neg hm, if_neg hm]
      by_cases hp : isPython m magicAddress
      · rw [if_pos hp, if_pos hp, List.forall_mem_append, ← foldlM_ok_iff _ s]
        refine ⟨?_, ?_⟩
        · rintro ⟨t, ht⟩
          obtain ⟨u, hu, ht⟩ := Outcome.bind_eq_ok.mp ht
          exact ⟨⟨u, hu⟩, (ih u).mp ⟨t, ht⟩⟩
        · rintro ⟨⟨u, hu⟩, hrest⟩
          obtain ⟨t, ht⟩ := (ih u).mpr hrest
          exact ⟨t, Outcome.bind_eq_ok.mpr ⟨u, hu, ht⟩⟩
      · rw [if_neg hp, if_neg hp]
        exact ih s

/-- `findHashes` is safe exactly if no layout record on its way has the identifier 0. -/
theorem findHashes_safe_iff (b : FlashBounds) (crc32 : List UInt8 → UInt32) (m : Memory) (s : MicroBitMemoryMap) :
    Safe b crc32 m s ↔ ∀ address ∈ layoutRecords m (pages b), (layoutRecord m address).id ≠ 0 := by
  have hrun : (∃ t, s.findHashes b crc32 m = .ok t) ↔ _ := findPages_ok_iff b (pages b) s
  exact ⟨fun h => hrun.mp h.run, fun h => ⟨hrun.mpr h, fun address ha t => processRecord_handled t (h address ha)⟩⟩

/-- A program of two pages. -/
def twoPages : FlashBounds :=
  { FLASH_PROGRAM_END := 0x2000, MICROBIT_APP_REGION_START := 0x1000, MICROBIT_APP_REGION_END := 0x3000,
    MICROBIT_DEFAULT_SCRATCH_PAGE := 0x3000 }

/-- Behind it there is the header of a MicroPython program with one record, all of whose bytes are zero. -/
def zeroRecord : Memory :=
  put (fun _ => 0) 0x1FF0 (u32Bytes 0x597F30FE ++ u32Bytes 0 ++ u32Bytes 1 ++ u32Bytes 0xC1B1D79D)

/-- A record of no region makes the search read outside. -/
theorem findHashes_zero_record :
    findHashes twoPages (fun _ => 0) zeroRecord {} = .error (.outside 255) ∧ ¬ Safe twoPages (fun _ => 0) zeroRecord {} := by
  have hpages : pages twoPages = [0x2000] := by decide +kernel
  have hrecords : pythonRecords zeroRecord 0x2000 = [0x1FE0] := by decide +kernel
  have hrun : findHashes twoPages (fun _ => 0) zeroRecord {} = .error (.outside 255) := by
    rw [findHashes, hpages, findPages, if_neg (by decide +kernel), if_pos (by decide +kernel), hrecords, List.foldlM_cons,
      processRecord_zero _ (by decide +kernel)]
    rfl
  refine ⟨hrun, fun h => ?_⟩
  obtain ⟨t, ht⟩ := h.run
  nomatch hrun.symm.trans ht

end MicroBitMemoryMap

end CodalMicrobit

import CodalMicrobit.Theorems.FlashBurn

/-!
# The last burn

At the end of a transmission the handler burns the block once more, all 64 bytes of it, at the offset. Both are as the last
batch has left them as long as nothing has touched them since; a batch that is not complete has overwritten a part of the
block and of the offset, and a new start has cleared the offset.
-/

namespace CodalMicrobit

open Nor

namespace PartialFlashing

/-- The packets of a block that the service has received: the batch that is not complete, or one that was. -/
def Received (s : PartialFlashing) (batch : List Packet) : Prop := batch = s.batch ∨ ∃ e ∈ s.raised, batch = e.batch

/-- The last burn writes the data of the packets received for a block, and nothing else, at the address of that block's own two
address packets. -/
def FaithfulEnd (s : PartialFlashing) : Prop :=
  ∃ batch, s.Received batch ∧ 2 ≤ batch.length ∧ s.finalBurn.address = addressOf batch ∧
    s.finalBurn.bytes = (batch.map Packet.data).flatten

/-- The handler programs the bytes of the last burn at its address. -/
theorem endOfTransmission_flash (s : PartialFlashing) :
    s.endOfTransmission.flash = program s.flash s.finalBurn.address.toNat 64 (fun k => s.finalBurn.bytes.getD k 0) := by
  refine program_congr fun k hk => ?_
  rw [finalBurn, List.getD_eq_getElem _ _ (by rwa [slice_length]), slice_getElem, Nat.zero_add]

/-- The packet is the fourth of its batch. -/
def Completes (s : PartialFlashing) (p : Packet) : Prop :=
  p 0 = FLASH_DATA ∧ p.num = s.packetCount ∧ s.batch.length = 3

/-- No packet of the steps is accepted, and none asks for a region. -/
def Quiet (s : PartialFlashing) : List FlashingStep → Prop
  | [] => True
  | st :: steps => (∀ p, st = .packet p → s.Ignored p) ∧ (s.step st).Quiet steps

/-- Some packet completes its batch, and the steps are quiet from then on. -/
def EndsComplete (s : PartialFlashing) (steps : List FlashingStep) : Prop :=
  ∃ before p rest, steps = before ++ .packet p :: rest ∧ (s.run before).Completes p ∧
    ((s.run before).onDataWritten p).Quiet rest

/-- The last batch that was completed is still in the block and in the offset. -/
structure Holds (s : PartialFlashing) (e : WriteEvent) : Prop where
  raised : e ∈ s.raised
  complete : Complete e
  block : s.block = e.block
  offset : s.offset = e.offset

/-- The packet that completes a batch leaves it in place. -/
theorem holds_of_completes {s : PartialFlashing} (h : s.Sequenced) {p : Packet} (hc : s.Completes p) :
    ∃ e, (s.onDataWritten p).Holds e := by
  obtain ⟨hf, hp, hlen⟩ := hc
  obtain ⟨hs, hraised⟩ := onDataWritten_sequenced h p
  rw [if_pos ⟨hf, hp, hlen⟩] at hraised
  have hmem : { batch := s.batch ++ [p], block := put s.block (16 * s.blockNum.toNat) p.data, offset := s.offset } ∈
      (s.onDataWritten p).raised := by
    rw [hraised]
    exact List.mem_append_right _ (List.mem_singleton_self _)
  have hnum : s.blockNum = 3 := by
    rw [h.blockNum, hlen]
    rfl
  have hacc : s.onDataWritten p = s.accept p := by
    unfold onDataWritten flashData
    rw [if_neg (by rw [hf]; decide), if_pos hf, if_neg (not_not.mpr hp)]
  have hkept : (s.accept p).block = put s.block (16 * s.blockNum.toNat) p.data ∧ (s.accept p).offset = s.offset := by
    unfold accept
    dsimp only
    rw [if_neg (by rw [hnum]; decide), if_neg (by rw [hnum]; decide), if_pos hnum]
    exact ⟨rfl, rfl⟩
  rw [← hacc] at hkept
  exact ⟨_, hmem, hs.raised _ hmem, hkept.1, hkept.2⟩

/-- A step that accepts nothing leaves the last batch in place: handlers read the block and the offset, and do not write
them. -/
theorem Holds.step {s : PartialFlashing} {e : WriteEvent} (h : s.Holds e) {st : FlashingStep}
    (hq : ∀ p, st = .packet p → s.Ignored p) : (s.step st).Holds e := by
  obtain ⟨hr, hc, hb, ho⟩ := h
  cases st with
  | packet p =>
    obtain ⟨h1, h2, -, -, -, h6⟩ := (hq p rfl).same
    exact ⟨by rw [PartialFlashing.step, h6]; exact hr, hc, h1.trans hb, h2.trans ho⟩
  | startHandler =>
    unfold PartialFlashing.step PartialFlashing.startHandler
    dsimp only
    split
    · exact ⟨hr, hc, hb, ho⟩
    · exact ⟨hr, hc, hb, ho⟩
  | burn =>
    unfold PartialFlashing.step PartialFlashing.burn
    dsimp only
    split
    · exact ⟨hr, hc, hb, ho⟩
    · exact ⟨hr, hc, hb, ho⟩

/-- A run of other packets leaves the block that is held alone. -/
theorem Holds.run {e : WriteEvent} (steps : List FlashingStep) : ∀ {s : PartialFlashing}, s.Holds e → s.Quiet steps →
    (s.run steps).Holds e := by
  induction steps with
  | nil => exact fun h _ => h
  | cons st steps ih => exact fun h hq => ih (h.step hq.1) hq.2

/-- Burning a batch that is still in place. -/
theorem Holds.faithfulEnd {s : PartialFlashing} {e : WriteEvent} (h : s.Holds e) : s.FaithfulEnd := by
  refine ⟨e.batch, Or.inr ⟨e, h.raised, rfl⟩, ?_, h.offset.trans h.complete.offset, ?_⟩
  · rw [h.complete.length]
    decide
  · rw [finalBurn, h.block]
    exact h.complete.block

/-- End of transmission. In every run in which, since some batch was completed, no packet is accepted and no region is asked
for, the last burn writes the data of the packets of one block at that block's address. -/
theorem end_of_transmission_faithful (memoryMap : Nat → Region) (block : Packet) (flash : Memory) (flashIncomplete : Bool)
    (steps : List FlashingStep) (hend : (new memoryMap block flash flashIncomplete).EndsComplete steps) :
    let s := (new memoryMap block flash flashIncomplete).run steps
    s.FaithfulEnd ∧
      s.endOfTransmission.flash = program s.flash s.finalBurn.address.toNat 64 (fun k => s.finalBurn.bytes.getD k 0) := by
  obtain ⟨before, p, rest, rfl, hc, hq⟩ := hend
  have hs := run_sequenced before (new_sequenced memoryMap block flash flashIncomplete)
  obtain ⟨e, he⟩ := holds_of_completes hs hc
  have hrun : (new memoryMap block flash flashIncomplete).run (before ++ .packet p :: rest) =
      (((new memoryMap block flash flashIncomplete).run before).onDataWritten p).run rest := by
    unfold PartialFlashing.run
    rw [List.foldl_append]
    rfl
  dsimp only
  rw [hrun]
  exact ⟨(he.run rest hq).faithfulEnd, endOfTransmission_flash _⟩

/-- `end_of_transmission_faithful` for one batch, whose last packet comes twice. -/
theorem end_of_transmission_faithful_one_batch :
    ((new noRegions (fun _ => 0) (fun _ => blank) true).run
      (oneBatch ++ [.packet (dataPacket 3 2), .startHandler, .burn])).FaithfulEnd := by
  refine (end_of_transmission_faithful noRegions (fun _ => 0) (fun _ => blank) true _
    ⟨oneBatch.take 3, dataPacket 3 1, [.packet (dataPacket 3 2), .startHandler, .burn], rfl,
      ⟨by decide, by decide, by decide⟩, ?_⟩).1
  refine ⟨fun q hq => ?_, nofun, nofun, trivial⟩
  cases hq
  exact ⟨by decide, fun _ => by decide⟩

/-- After a batch and two packets of the next one, all handled, the last burn goes to the address of the two packets, and half
of its bytes are those of the batch before. After a batch and one packet, its address is half of that packet's and none of the
other's. -/
theorem end_of_transmission_mixes :
    (((new noRegions (fun _ => 0) (fun _ => blank) true).run
          (oneBatch ++ [.startHandler, .burn, .packet (dataPacket 4 2), .packet (dataPacket 5 2)])).finalBurn.address =
        0x02020202 ∧
      ((new noRegions (fun _ => 0) (fun _ => blank) true).run
          (oneBatch ++ [.startHandler, .burn, .packet (dataPacket 4 2), .packet (dataPacket 5 2)])).finalBurn.bytes =
        List.replicate 32 2 ++ List.replicate 32 1) ∧
    ((new noRegions (fun _ => 0) (fun _ => blank) true).run
        (oneBatch ++ [.startHandler, .burn, .packet (dataPacket 4 2)])).finalBurn.address = 0x00000202 ∧
    ¬((new noRegions (fun _ => 0) (fun _ => blank) true).run
      (oneBatch ++ [.startHandler, .burn, .packet (dataPacket 4 2), .packet (dataPacket 5 2)])).FaithfulEnd := by
  have h1 : ((new noRegions (fun _ => 0) (fun _ => blank) true).run
      (oneBatch ++ [.startHandler, .burn, .packet (dataPacket 4 2), .packet (dataPacket 5 2)])).finalBurn.address =
      0x02020202 := by decide +kernel
  have h2 : ((new noRegions (fun _ => 0) (fun _ => blank) true).run
      (oneBatch ++ [.startHandler, .burn, .packet (dataPacket 4 2), .packet (dataPacket 5 2)])).finalBurn.bytes =
      List.replicate 32 2 ++ List.replicate 32 1 := by decide +kernel
  have h3 : ((new noRegions (fun _ => 0) (fun _ => blank) true).run
      (oneBatch ++ [.startHandler, .burn, .packet (dataPacket 4 2)])).finalBurn.address = 0x00000202 := by decide +kernel
  refine ⟨⟨h1, h2⟩, h3, ?_⟩
  rintro ⟨batch, hr, -, ha, hb⟩
  rw [h1] at ha
  rw [h2] at hb
  rcases hr with rfl | ⟨e, he, rfl⟩
  · exact absurd hb (by decide +kernel)
  · have hall : ((new noRegions (fun _ => 0) (fun _ => blank) true).run
        (oneBatch ++ [.startHandler, .burn, .packet (dataPacket 4 2), .packet (dataPacket 5 2)])).raised.all
          (fun e => addressOf e.batch != 0x02020202) = true := by decide +kernel
    have := List.all_eq_true.mp hall e he
    rw [← ha] at this
    simp at this

end PartialFlashing

end CodalMicrobit

import CodalMicrobit.Bluetooth.PartialFlashing

/-!
# The packets of a batch

The three counters always agree with the packets accepted since the last reset: `blockNum` counts them, `blockPacketCount`
is the number of the first one, a multiple of four, and `packetCount` is the number expected next. So a write event is
raised exactly when four packets with consecutive numbers are complete, and finds their data and address in place.
-/

namespace CodalMicrobit

open Nor

namespace PartialFlashing

/-- The address that the packets of a batch carry, as far as they have been received. -/
def addressOf : List Packet → UInt32
  | [] => 0
  | [p] => p.low
  | p :: q :: _ => p.low ||| q.high

/-- The packets have consecutive numbers from `n` on. -/
def Numbered (n : UInt8) (batch : List Packet) : Prop :=
  ∀ i (h : i < batch.length), batch[i].num = n + UInt8.ofNat i

/-- A write event of a complete batch: four packets numbered from a multiple of four on, their data in order in the block,
and the address of the first two in the offset. -/
structure Complete (e : WriteEvent) : Prop where
  length : e.batch.length = 4
  numbered : ∃ n, 4 ∣ n.toNat ∧ Numbered n e.batch
  block : slice e.block 0 64 = (e.batch.map Packet.data).flatten
  offset : e.offset = addressOf e.batch

/-- The members agree with the packets accepted since the last reset. -/
structure Sequenced (s : PartialFlashing) : Prop where
  lt : s.batch.length < 4
  blockNum : s.blockNum = UInt8.ofNat s.batch.length
  count : s.packetCount = s.blockPacketCount + s.blockNum
  four : 4 ∣ s.blockPacketCount.toNat
  numbered : Numbered s.blockPacketCount s.batch
  block : slice s.block 0 (16 * s.batch.length) = (s.batch.map Packet.data).flatten
  offset : s.batch ≠ [] → s.offset = addressOf s.batch
  raised : ∀ e ∈ s.raised, Complete e

/-- A packet has 16 bytes of data. -/
@[simp] theorem data_length (p : Packet) : p.data.length = 16 := slice_length _ _ _

/-- The number of the next block is a multiple of four too. -/
theorem four_dvd_add (n : UInt8) (h : 4 ∣ n.toNat) : 4 ∣ (n + 4).toNat := by
  rw [UInt8.toNat_add]
  change 4 ∣ (n.toNat + 4) % 256
  omega

/-- After a reset no packet of the batch has been accepted. -/
theorem Sequenced.reset {s t : PartialFlashing} (h : s.Sequenced) (hb : t.batch = []) (hn : t.blockNum = 0)
    (hc : t.packetCount = t.blockPacketCount) (h4 : 4 ∣ t.blockPacketCount.toNat) (hr : t.raised = s.raised) :
    t.Sequenced := by
  refine ⟨by rw [hb]; decide, by rw [hb]; exact hn, by rw [hc, hn, UInt8.add_zero], h4, ?_, by rw [hb]; rfl, ?_, ?_⟩
  · intro i hi
    rw [hb] at hi
    exact absurd hi (Nat.not_lt_zero i)
  · exact fun hne => absurd hb hne
  · rw [hr]
    exact h.raised

/-- A request for a region keeps the sequence. -/
theorem regionInfo_sequenced {s : PartialFlashing} (h : s.Sequenced) (data : Packet) :
    (s.regionInfo data).Sequenced := by
  refine h.reset rfl rfl rfl (Nat.dvd_zero 4) ?_
  unfold regionInfo notify
  dsimp only
  split <;> rfl

/-- A packet out of sequence keeps the sequence. -/
theorem packetError_sequenced {s : PartialFlashing} (h : s.Sequenced) : s.packetError.Sequenced :=
  h.reset rfl rfl rfl (four_dvd_add _ h.four) rfl

/-- The block and the batch after one more packet. -/
theorem put_block {s : PartialFlashing} (h : s.Sequenced) (p : Packet) :
    slice (put s.block (16 * s.blockNum.toNat) p.data) 0 (16 * (s.batch ++ [p]).length) =
      ((s.batch ++ [p]).map Packet.data).flatten := by
  have hlt := h.lt
  have hnum : s.blockNum.toNat = s.batch.length := by
    rw [h.blockNum, UInt8.toNat_ofNat']
    exact Nat.mod_eq_of_lt (by omega)
  have hold : slice (put s.block (16 * s.batch.length) p.data) 0 (16 * s.batch.length) =
      (s.batch.map Packet.data).flatten :=
    (slice_congr fun x _ hx => put_of_lt _ _ (by omega)).trans h.block
  have hnew := slice_put s.block (16 * s.batch.length) p.data
  rw [data_length] at hnew
  rw [hnum, List.length_append, List.length_singleton, Nat.mul_succ, slice_add, Nat.zero_add, hold, hnew,
    List.map_append, List.flatten_append, List.map_singleton, List.flatten_singleton]

theorem numbered_append {s : PartialFlashing} (h : s.Sequenced) {p : Packet} (hp : p.num = s.packetCount) :
    Numbered s.blockPacketCount (s.batch ++ [p]) := by
  intro i hi
  rw [List.length_append, List.length_singleton] at hi
  by_cases hl : i < s.batch.length
  · rw [List.getElem_append_left hl]
    exact h.numbered i hl
  · obtain rfl : i = s.batch.length := by omega
    rw [List.getElem_append_right (Nat.le_refl _)]
    simp only [Nat.sub_self, List.getElem_cons_zero]
    rw [hp, h.count, h.blockNum]

/-- Accepting a packet that does not complete the batch. -/
theorem Sequenced.more {s t : PartialFlashing} (h : s.Sequenced) {p : Packet} (hp : p.num = s.packetCount)
    (hlt : s.batch.length + 1 < 4) (hbatch : t.batch = s.batch ++ [p])
    (hblock : t.block = put s.block (16 * s.blockNum.toNat) p.data) (hnum : t.blockNum = s.blockNum + 1)
    (hcount : t.packetCount = s.packetCount + 1) (hbpc : t.blockPacketCount = s.blockPacketCount)
    (hoff : t.offset = addressOf (s.batch ++ [p])) (hraised : t.raised = s.raised) : t.Sequenced := by
  have hlen : t.batch.length = s.batch.length + 1 := by rw [hbatch, List.length_append, List.length_singleton]
  refine ⟨by omega, ?_, ?_, hbpc ▸ h.four, ?_, ?_, fun _ => by rw [hoff, hbatch], hraised ▸ h.raised⟩
  · rw [hnum, h.blockNum, hlen, UInt8.ofNat_add]
    rfl
  · rw [hcount, hnum, hbpc, h.count, UInt8.add_assoc]
  · rw [hbpc, hbatch]
    exact numbered_append h hp
  · rw [hblock, hbatch]
    exact put_block h p

/-- An accepted packet: it joins the batch, and when it is the fourth one the write event is raised. -/
theorem accept_sequenced {s : PartialFlashing} (h : s.Sequenced) {p : Packet} (hp : p.num = s.packetCount) :
    (s.accept p).Sequenced ∧ (s.accept p).raised = s.raised ++ (if s.batch.length = 3 then
      [{ batch := s.batch ++ [p], block := put s.block (16 * s.blockNum.toNat) p.data, offset := s.offset }] else []) := by
  match hb : s.batch with
  | [] =>
    have hnum : s.blockNum = 0 := by rw [h.blockNum, hb]; rfl
    have hacc : s.accept p = { s with
        packetCount := s.packetCount + 1, block := put s.block (16 * s.blockNum.toNat) p.data
        batch := s.batch ++ [p], offset := p.low, blockNum := s.blockNum + 1 } := if_pos hnum
    rw [hacc]
    exact ⟨h.more hp (by simp [hb]) rfl rfl rfl rfl rfl (by rw [hb]; rfl) rfl, (List.append_nil _).symm⟩
  | [q] =>
    have hnum : s.blockNum = 1 := by rw [h.blockNum, hb]; rfl
    have hoff := h.offset (by rw [hb]; nofun)
    have hacc : s.accept p = { s with
        packetCount := s.packetCount + 1, block := put s.block (16 * s.blockNum.toNat) p.data
        batch := s.batch ++ [p], offset := s.offset ||| p.high, blockNum := s.blockNum + 1 } := by
      unfold accept
      dsimp only
      rw [if_neg (by rw [hnum]; decide), if_pos hnum]
    rw [hacc]
    exact ⟨h.more hp (by simp [hb]) rfl rfl rfl rfl rfl (by rw [hoff, hb]; rfl) rfl, (List.append_nil _).symm⟩
  | [q, r] =>
    have hnum : s.blockNum = 2 := by rw [h.blockNum, hb]; rfl
    have hoff := h.offset (by rw [hb]; nofun)
    have hacc : s.accept p = { s with
        packetCount := s.packetCount + 1, block := put s.block (16 * s.blockNum.toNat) p.data
        batch := s.batch ++ [p], blockNum := s.blockNum + 1 } := by
      unfold accept
      dsimp only
      rw [if_neg (by rw [hnum]; decide), if_neg (by rw [hnum]; decide), if_neg (by rw [hnum]; decide)]
    rw [hacc]
    exact ⟨h.more hp (by simp [hb]) rfl rfl rfl rfl rfl (by rw [hoff, hb]; rfl) rfl, (List.append_nil _).symm⟩
  | [q, r, u] =>
    have hnum : s.blockNum = 3 := by rw [h.blockNum, hb]; rfl
    have hoff := h.offset (by rw [hb]; nofun)
    obtain ⟨e, he⟩ : ∃ e : WriteEvent, e = { batch := s.batch ++ [p]
                                             block := put s.block (16 * s.blockNum.toNat) p.data, offset := s.offset } :=
      ⟨_, rfl⟩
    have hacc : s.accept p = { s with
        packetCount := s.packetCount + 1, block := put s.block (16 * s.blockNum.toNat) p.data, batch := []
        blockNum := 0, blockPacketCount := s.blockPacketCount + 4, queue := s.queue ++ [e], raised := s.raised ++ [e] } := by
      unfold accept
      dsimp only
      rw [if_neg (by rw [hnum]; decide), if_neg (by rw [hnum]; decide), if_pos hnum, he]
      rfl
    have hcomplete : Complete e := by
      rw [he]
      refine ⟨by rw [hb]; rfl, ⟨_, h.four, numbered_append h hp⟩, ?_, ?_⟩
      · have hblock := put_block h p
        rw [hb] at hblock ⊢
        exact hblock
      · rw [hoff, hb]
        rfl
    have hbase : ({ s with raised := s.raised ++ [e] } : PartialFlashing).Sequenced := by
      refine ⟨h.lt, h.blockNum, h.count, h.four, h.numbered, h.block, h.offset, fun e' he' => ?_⟩
      rcases List.mem_append.mp he' with he' | he'
      · exact h.raised e' he'
      · rw [List.mem_singleton.mp he']
        exact hcomplete
    rw [hacc, ← hb, if_pos (by rw [hb]; rfl), ← he]
    refine ⟨hbase.reset rfl rfl ?_ (four_dvd_add _ h.four) rfl, rfl⟩
    change s.packetCount + 1 = s.blockPacketCount + 4
    rw [h.count, hnum, UInt8.add_assoc]
    rfl
  | q :: r :: u :: v :: rest =>
    have := h.lt
    rw [hb] at this
    simp only [List.length_cons] at this
    omega

/-! ## Runs -/

/-- The handler touches none of the members that packets are counted in. -/
theorem Sequenced.congr {s t : PartialFlashing} (h : s.Sequenced) (h1 : t.packetCount = s.packetCount)
    (h2 : t.blockPacketCount = s.blockPacketCount) (h3 : t.block = s.block) (h4 : t.blockNum = s.blockNum)
    (h5 : t.offset = s.offset) (h6 : t.batch = s.batch) (h7 : t.raised = s.raised) : t.Sequenced :=
  ⟨h6 ▸ h.lt, h4 ▸ h6 ▸ h.blockNum, h1 ▸ h2 ▸ h4 ▸ h.count, h2 ▸ h.four, h2 ▸ h6 ▸ h.numbered, h3 ▸ h6 ▸ h.block,
    h5 ▸ h6 ▸ h.offset, h7 ▸ h.raised⟩

/-- A packet raises the write event exactly when it is accepted as the fourth one of its batch. -/
theorem onDataWritten_sequenced {s : PartialFlashing} (h : s.Sequenced) (p : Packet) :
    (s.onDataWritten p).Sequenced ∧ (s.onDataWritten p).raised = s.raised ++
      (if p 0 = FLASH_DATA ∧ p.num = s.packetCount ∧ s.batch.length = 3 then
        [{ batch := s.batch ++ [p], block := put s.block (16 * s.blockNum.toNat) p.data, offset := s.offset }] else []) := by
  unfold onDataWritten
  by_cases hr : p 0 = REGION_INFO
  · rw [if_pos hr, if_neg (by rw [hr]; exact fun h => absurd h.1 (by decide)), List.append_nil]
    refine ⟨regionInfo_sequenced h p, ?_⟩
    unfold regionInfo notify
    dsimp only
    split <;> rfl
  · rw [if_neg hr]
    by_cases hf : p 0 = FLASH_DATA
    · rw [if_pos hf]
      unfold flashData
      by_cases hp : p.num = s.packetCount
      · rw [if_neg (not_not.mpr hp)]
        obtain ⟨hs, hraised⟩ := accept_sequenced h hp
        refine ⟨hs, hraised.trans ?_⟩
        simp only [hf, hp, true_and]
      · have hno : ¬(p 0 = FLASH_DATA ∧ p.num = s.packetCount ∧ s.batch.length = 3) := fun hc => hp hc.2.1
        rw [if_pos hp, if_neg hno, List.append_nil]
        split
        · exact ⟨h, rfl⟩
        · exact ⟨packetError_sequenced h, rfl⟩
    · rw [if_neg hf, if_neg (fun h => hf h.1), List.append_nil]
      exact ⟨h, rfl⟩

/-- The handler that starts keeps the sequence. -/
theorem startHandler_sequenced {s : PartialFlashing} (h : s.Sequenced) : s.startHandler.Sequenced := by
  unfold startHandler
  split
  · exact h.congr rfl rfl rfl rfl rfl rfl rfl
  · exact h

/-- The handler that burns keeps the sequence. -/
theorem burn_sequenced {s : PartialFlashing} (h : s.Sequenced) : s.burn.Sequenced := by
  unfold burn
  split
  · exact h.congr rfl rfl rfl rfl rfl rfl rfl
  · exact h

/-- A run keeps the sequence. -/
theorem run_sequenced (steps : List FlashingStep) : ∀ {s : PartialFlashing}, s.Sequenced → (s.run steps).Sequenced := by
  induction steps with
  | nil => exact fun h => h
  | cons st steps ih =>
    intro s h
    refine ih ?_
    cases st with
    | packet p => exact (onDataWritten_sequenced h p).1
    | startHandler => exact startHandler_sequenced h
    | burn => exact burn_sequenced h

/-- A new service has no packet out of sequence. -/
theorem new_sequenced (memoryMap : Nat → Region) (block : Packet) (flash : Memory) (flashIncomplete : Bool) :
    (new memoryMap block flash flashIncomplete).Sequenced :=
  ⟨Nat.zero_lt_succ 3, rfl, rfl, Nat.dvd_zero 4, fun i hi => absurd hi (Nat.not_lt_zero i), rfl, fun h => absurd rfl h, nofun⟩

/-! ## Which packets are accepted -/

/-- What one packet does to the service: a packet with the expected number joins the batch, and the fourth one completes
it; a late packet is ignored; any other number drops the batch, and the next one begins four numbers on; a request for
region information resets the counters. -/
structure PacketEffect (s : PartialFlashing) (p : Packet) (t : PartialFlashing) : Prop where
  accepted : p 0 = FLASH_DATA → p.num = s.packetCount → t.packetCount = s.packetCount + 1 ∧
    t.batch = (if s.batch.length = 3 then [] else s.batch ++ [p]) ∧
    t.blockPacketCount = if s.batch.length = 3 then s.blockPacketCount + 4 else s.blockPacketCount
  late : p 0 = FLASH_DATA → p.num ≠ s.packetCount → stale p.num s.packetCount = true → t = s
  dropped : p 0 = FLASH_DATA → p.num ≠ s.packetCount → stale p.num s.packetCount = false → t.batch = [] ∧
    t.packetCount = s.blockPacketCount + 4 ∧ t.blockPacketCount = s.blockPacketCount + 4
  reset : p 0 = REGION_INFO → t.batch = [] ∧ t.packetCount = 0 ∧ t.blockPacketCount = 0
  other : p 0 ≠ FLASH_DATA → p 0 ≠ REGION_INFO → t = s

/-- The block is full after the third packet exactly when three packets have been accepted. -/
theorem Sequenced.blockNum_eq_three {s : PartialFlashing} (h : s.Sequenced) : s.blockNum = 3 ↔ s.batch.length = 3 := by
  have hlt := h.lt
  rw [h.blockNum]
  constructor
  · intro h3
    have hn := congrArg UInt8.toNat h3
    rw [UInt8.toNat_ofNat', Nat.mod_eq_of_lt (by omega)] at hn
    exact hn
  · intro h3
    rw [h3]
    rfl

/-- The counters and the batch after an accepted packet. -/
theorem accept_eq (s : PartialFlashing) (p : Packet) : (s.accept p).packetCount = s.packetCount + 1 ∧
    (s.accept p).batch = (if s.blockNum = 3 then [] else s.batch ++ [p]) ∧
    (s.accept p).blockPacketCount = if s.blockNum = 3 then s.blockPacketCount + 4 else s.blockPacketCount := by
  unfold accept
  by_cases h0 : s.blockNum = 0
  · simp [h0]
  by_cases h1 : s.blockNum = 1
  · simp [h1]
  by_cases h3 : s.blockNum = 3
  · simp [h3, fire]
  · simp [h0, h1, h3]

/-- `onDataWritten` does with each packet what the numbers ask for. -/
theorem onDataWritten_effect {s : PartialFlashing} (h : s.Sequenced) (p : Packet) : PacketEffect s p (s.onDataWritten p) := by
  have hflash : p 0 = FLASH_DATA → s.onDataWritten p = s.flashData p := by
    intro hf
    unfold onDataWritten
    rw [if_neg (by rw [hf]; decide), if_pos hf]
  refine ⟨fun hf hp => ?_, fun hf hp hst => ?_, fun hf hp hst => ?_, fun hr => ?_, fun hf hr => ?_⟩
  · have hacc : s.onDataWritten p = s.accept p := by
      rw [hflash hf, flashData, if_neg (not_not.mpr hp)]
    have hthree := h.blockNum_eq_three
    simpa only [hacc, hthree] using accept_eq s p
  · rw [hflash hf, flashData, if_pos hp, if_pos hst]
  · rw [hflash hf, flashData, if_pos hp, if_neg (by simp [hst])]
    exact ⟨rfl, rfl, rfl⟩
  · unfold onDataWritten
    rw [if_pos hr]
    exact ⟨rfl, rfl, rfl⟩
  · unfold onDataWritten
    rw [if_neg hr, if_neg hf]

/-- A handler neither raises an event nor touches the batch and its counters. -/
theorem handlers_keep (s : PartialFlashing) : ∀ t ∈ [s.startHandler, s.burn],
    t.raised = s.raised ∧ t.batch = s.batch ∧ t.packetCount = s.packetCount ∧ t.blockPacketCount = s.blockPacketCount := by
  intro t ht
  simp only [List.mem_cons, List.not_mem_nil, or_false] at ht
  rcases ht with rfl | rfl
  · unfold startHandler
    split <;> exact ⟨rfl, rfl, rfl, rfl⟩
  · unfold burn
    split <;> exact ⟨rfl, rfl, rfl, rfl⟩

/-- Packet sequencing. After any packets, whatever their numbers, and with handlers running at any time, the counters
agree with the packets accepted since the last reset; every event that was raised is one of a complete batch; a packet is
accepted exactly when it has the number that is expected; it raises the event exactly when it is accepted as the fourth of
its batch; and handlers change nothing of this. -/
theorem packet_sequence (memoryMap : Nat → Region) (block : Packet) (flash : Memory) (flashIncomplete : Bool)
    (steps : List FlashingStep) :
    let s := (new memoryMap block flash flashIncomplete).run steps
    s.packetCount = s.blockPacketCount + s.blockNum ∧ 4 ∣ s.blockPacketCount.toNat ∧
      s.blockNum = UInt8.ofNat s.batch.length ∧ Numbered s.blockPacketCount s.batch ∧
      (∀ e ∈ s.raised, Complete e) ∧
      (∀ p, PacketEffect s p (s.onDataWritten p) ∧ (s.onDataWritten p).raised = s.raised ++
        (if p 0 = FLASH_DATA ∧ p.num = s.packetCount ∧ s.batch.length = 3 then
          [{ batch := s.batch ++ [p], block := put s.block (16 * s.blockNum.toNat) p.data, offset := s.offset }]
        else [])) ∧
      ∀ t ∈ [s.startHandler, s.burn], t.raised = s.raised ∧ t.batch = s.batch ∧ t.packetCount = s.packetCount ∧
        t.blockPacketCount = s.blockPacketCount := by
  have h := run_sequenced steps (new_sequenced memoryMap block flash flashIncomplete)
  exact ⟨h.count, h.four, h.blockNum, h.numbered, h.raised,
    fun p => ⟨onDataWritten_effect h p, (onDataWritten_sequenced h p).2⟩, handlers_keep _⟩

/-- A data packet with the given number, all of whose other bytes are `b`. -/
def dataPacket (num b : UInt8) : Packet := fun k => if k = 0 then FLASH_DATA else if k = 3 then num else b

/-- A memory map without regions. -/
def noRegions : Nat → Region := fun _ => ⟨0, 0, 0, []⟩

/-- The packets 0, 2, 4, 5, 5 and 6. -/
def sixPackets : List FlashingStep :=
  [(0, 1), (2, 1), (4, 2), (5, 3), (5, 4), (6, 5)].map fun n => .packet (dataPacket n.1 n.2)

/-- `packet_sequence` after six packets: the second one drops the batch, and of the two packets 5 one is late, so the
packet 7 completes the batch of the packets 4 to 7. -/
theorem packet_sequence_fourth : ((new noRegions (fun _ => 0) (fun _ => blank) true).run sixPackets).raised = [] ∧
    ∃ e : WriteEvent,
      (((new noRegions (fun _ => 0) (fun _ => blank) true).run sixPackets).onDataWritten (dataPacket 7 6)).raised = [e] ∧
      e.batch = [dataPacket 4 2, dataPacket 5 3, dataPacket 6 5, dataPacket 7 6] ∧ e.offset = 0x03030202 ∧
      slice e.block 0 64 = List.replicate 16 2 ++ List.replicate 16 3 ++ List.replicate 16 5 ++ List.replicate 16 6 := by
  have h := packet_sequence noRegions (fun _ => 0) (fun _ => blank) true sixPackets
  obtain ⟨-, -, -, -, -, hpacket, -⟩ := h
  have hraised := (hpacket (dataPacket 7 6)).2
  rw [if_pos (by decide)] at hraised
  exact ⟨rfl, _, hraised, rfl, by decide, by decide +kernel⟩

end PartialFlashing

end CodalMicrobit

import CodalMicrobit.Theorems.PacketSequence

/-!
# What is burned

The handler of a write event reads `offset` and `block` when it runs, not when the event was raised. As long as the client
waits for the notification before it sends the next batch, and so nothing is accepted meanwhile, the handler burns the 64
bytes of its batch at the address the batch carries.
-/

namespace CodalMicrobit

open Nor

namespace PartialFlashing

/-- No write event is waiting for its handler, and no handler is running. -/
def Idle (s : PartialFlashing) : Prop := s.queue = [] ∧ s.handling = none

/-- The packet is not accepted, and it is not a request that starts over: late and repeated packets, and packets that are
answered with an error. -/
def Ignored (s : PartialFlashing) (p : Packet) : Prop :=
  p 0 ≠ REGION_INFO ∧ (p 0 = FLASH_DATA → p.num ≠ s.packetCount)

/-- Nothing is accepted between the completion of a batch and its burn. -/
def Waits (s : PartialFlashing) : List FlashingStep → Prop
  | [] => True
  | st :: steps => (∀ p, st = .packet p → s.Idle ∨ s.Ignored p) ∧ (s.step st).Waits steps

/-- The burn writes the data of its batch at the address of its batch. -/
def ExactBurn (b : Burn) : Prop :=
  b.address = addressOf b.event.batch ∧ b.bytes = (b.event.batch.map Packet.data).flatten

/-- At most one event is on its way to its burn, and the members still are as it found them. -/
structure Paced (s : PartialFlashing) : Prop where
  sequenced : s.Sequenced
  /-- Either nothing is on its way, or an event waits, or a handler runs. -/
  phase : s.Idle ∨
    (∃ e, s.queue = [e] ∧ s.handling = none ∧ Complete e ∧ s.block = e.block ∧ s.offset = e.offset) ∨
      ∃ e, s.queue = [] ∧ s.handling = some (e, e.offset) ∧ Complete e ∧ s.block = e.block
  burns : ∀ b ∈ s.burns, ExactBurn b

/-- A block whose packets are all there is burned exactly. -/
theorem Complete.exactBurn {e : WriteEvent} (h : Complete e) {block : Packet} (hb : block = e.block) :
    ExactBurn { event := e, address := e.offset, bytes := slice block 0 64 } := by
  refine ⟨h.offset, ?_⟩
  rw [hb]
  exact h.block

/-- What accepting a packet does to the events: none is raised, or one that holds what the members are then. -/
theorem accept_fires (s : PartialFlashing) (p : Packet) :
    (s.accept p).handling = s.handling ∧ (s.accept p).burns = s.burns ∧
      ((s.accept p).queue = s.queue ∨
        ∃ e, (s.accept p).queue = s.queue ++ [e] ∧ e ∈ (s.accept p).raised ∧
          (s.accept p).block = e.block ∧ (s.accept p).offset = e.offset) := by
  unfold accept
  dsimp only
  split
  · exact ⟨rfl, rfl, Or.inl rfl⟩
  · split
    · exact ⟨rfl, rfl, Or.inl rfl⟩
    · split
      · exact ⟨rfl, rfl, Or.inr ⟨_, rfl, List.mem_append_right _ (List.mem_singleton_self _), rfl, rfl⟩⟩
      · exact ⟨rfl, rfl, Or.inl rfl⟩

/-- A packet that is ignored leaves the block, the offset and the events as they are. -/
theorem Ignored.same {s : PartialFlashing} {p : Packet} (hp : s.Ignored p) :
    (s.onDataWritten p).block = s.block ∧ (s.onDataWritten p).offset = s.offset ∧
      (s.onDataWritten p).queue = s.queue ∧ (s.onDataWritten p).handling = s.handling ∧
      (s.onDataWritten p).burns = s.burns ∧ (s.onDataWritten p).raised = s.raised := by
  unfold onDataWritten
  rw [if_neg hp.1]
  split
  · rename_i hf
    unfold flashData
    rw [if_pos (hp.2 hf)]
    split
    · exact ⟨rfl, rfl, rfl, rfl, rfl, rfl⟩
    · exact ⟨rfl, rfl, rfl, rfl, rfl, rfl⟩
  · exact ⟨rfl, rfl, rfl, rfl, rfl, rfl⟩

/-- A packet that is ignored keeps the pace. -/
theorem Paced.ignored {s : PartialFlashing} (h : s.Paced) {p : Packet} (hp : s.Ignored p) :
    (s.onDataWritten p).Paced := by
  have hs := (onDataWritten_sequenced h.sequenced p).1
  obtain ⟨h1, h2, h3, h4, h5, -⟩ := hp.same
  refine ⟨hs, ?_, h5 ▸ h.burns⟩
  unfold Idle
  rw [h1, h2, h3, h4]
  exact h.phase

/-- A packet that arrives while nothing is on its way. -/
theorem Paced.idle {s : PartialFlashing} (h : s.Paced) (hi : s.Idle) (p : Packet) : (s.onDataWritten p).Paced := by
  have hs := (onDataWritten_sequenced h.sequenced p).1
  suffices hkey : (s.onDataWritten p).handling = s.handling ∧ (s.onDataWritten p).burns = s.burns ∧
      ((s.onDataWritten p).queue = s.queue ∨ ∃ e, (s.onDataWritten p).queue = s.queue ++ [e] ∧
        e ∈ (s.onDataWritten p).raised ∧ (s.onDataWritten p).block = e.block ∧ (s.onDataWritten p).offset = e.offset) by
    obtain ⟨h1, h2, h3⟩ := hkey
    refine ⟨hs, ?_, h2 ▸ h.burns⟩
    rcases h3 with h3 | ⟨e, h3, he, hb, ho⟩
    · exact Or.inl ⟨h3.trans hi.1, h1.trans hi.2⟩
    · rw [hi.1, List.nil_append] at h3
      exact Or.inr (Or.inl ⟨e, h3, h1.trans hi.2, hs.raised e he, hb, ho⟩)
  unfold onDataWritten
  split
  · unfold regionInfo notify
    dsimp only
    split <;> exact ⟨rfl, rfl, Or.inl rfl⟩
  · split
    · unfold flashData
      split
      · split
        · exact ⟨rfl, rfl, Or.inl rfl⟩
        · exact ⟨rfl, rfl, Or.inl rfl⟩
      · exact accept_fires s p
    · exact ⟨rfl, rfl, Or.inl rfl⟩

/-- The handler that starts keeps the pace. -/
theorem Paced.startHandler {s : PartialFlashing} (h : s.Paced) : s.startHandler.Paced := by
  have hs := startHandler_sequenced h.sequenced
  rcases h.phase with hi | ⟨e, hq, hh, hc, hb, ho⟩ | ⟨e, hq, hh, hc, hb⟩
  · have hsame : s.startHandler = s := by
      unfold PartialFlashing.startHandler
      rw [hi.1, hi.2]
    rw [hsame]
    exact h
  · refine ⟨hs, Or.inr (Or.inr ⟨e, ?_⟩), ?_⟩
    · unfold PartialFlashing.startHandler
      rw [hq, hh]
      exact ⟨rfl, by rw [← ho], hc, hb⟩
    · unfold PartialFlashing.startHandler
      rw [hq, hh]
      exact h.burns
  · have hsame : s.startHandler = s := by
      unfold PartialFlashing.startHandler
      rw [hh]
    rw [hsame]
    exact h

/-- The handler that burns keeps the pace. -/
theorem Paced.burn {s : PartialFlashing} (h : s.Paced) : s.burn.Paced := by
  have hs := burn_sequenced h.sequenced
  rcases h.phase with hi | ⟨e, hq, hh, hc, hb, ho⟩ | ⟨e, hq, hh, hc, hb⟩
  · have hsame : s.burn = s := by
      unfold PartialFlashing.burn
      rw [hi.2]
    rw [hsame]
    exact h
  · have hsame : s.burn = s := by
      unfold PartialFlashing.burn
      rw [hh]
    rw [hsame]
    exact h
  · refine ⟨hs, Or.inl ?_, fun b hmem => ?_⟩
    · unfold PartialFlashing.burn
      rw [hh]
      exact ⟨hq, rfl⟩
    · unfold PartialFlashing.burn at hmem
      rw [hh] at hmem
      rcases List.mem_append.mp hmem with hmem | hmem
      · exact h.burns b hmem
      · rw [List.mem_singleton.mp hmem]
        exact hc.exactBurn hb

/-- A run of a client that waits keeps the pace. -/
theorem run_paced (steps : List FlashingStep) : ∀ {s : PartialFlashing}, s.Paced → s.Waits steps →
    (s.run steps).Paced := by
  induction steps with
  | nil => exact fun h _ => h
  | cons st steps ih =>
    intro s h hw
    refine ih ?_ hw.2
    cases st with
    | packet p =>
      rcases hw.1 p rfl with hi | hi
      · exact h.idle hi p
      · exact h.ignored hi
    | startHandler => exact h.startHandler
    | burn => exact h.burn

/-- Deferred writes. In every run in which nothing is accepted between the completion of a batch and its burn, every burn
writes exactly the 64 bytes of the batch whose completion raised its event, at the address that batch carries. -/
theorem burns_exact (memoryMap : Nat → Region) (block : Packet) (flash : Memory) (flashIncomplete : Bool)
    (steps : List FlashingStep) (hw : (new memoryMap block flash flashIncomplete).Waits steps) :
    ∀ b ∈ ((new memoryMap block flash flashIncomplete).run steps).burns,
      b.address = addressOf b.event.batch ∧ b.bytes = (b.event.batch.map Packet.data).flatten :=
  (run_paced steps ⟨new_sequenced memoryMap block flash flashIncomplete, Or.inl ⟨rfl, rfl⟩, nofun⟩ hw).burns

/-! ## A client that waits, and one that does not -/

/-- One batch, with the address 0x01010101. -/
def oneBatch : List FlashingStep := [0, 1, 2, 3].map fun n => .packet (dataPacket n 1)

/-- `burns_exact` for one batch, and a packet that repeats its last one before the handler runs. -/
theorem burns_exact_one_batch :
    ((new noRegions (fun _ => 0) (fun _ => blank) true).run
        (oneBatch ++ [.packet (dataPacket 3 2), .startHandler, .burn])).burns.all
      (fun b => b.address == addressOf b.event.batch && b.bytes == (b.event.batch.map Packet.data).flatten) = true := by
  simp only [List.all_eq_true, Bool.and_eq_true, beq_iff_eq]
  refine burns_exact _ _ _ _ _ ?_
  have hidle : ∀ {s : PartialFlashing} {p : Packet}, s.Idle → ∀ q, FlashingStep.packet p = .packet q →
      s.Idle ∨ s.Ignored q := fun h _ _ => Or.inl h
  refine ⟨hidle ⟨rfl, rfl⟩, hidle ⟨rfl, rfl⟩, hidle ⟨rfl, rfl⟩, hidle ⟨rfl, rfl⟩, fun q hq => Or.inr ?_, nofun, nofun,
    trivial⟩
  cases hq
  exact ⟨by decide, fun _ => by decide⟩

/-- The first packet of the next batch arrives before the handler runs: the burn goes to another address, with a quarter of
its bytes from the new packet. -/
theorem next_batch_mixes_in :
    ¬∀ b ∈ ((new noRegions (fun _ => 0) (fun _ => blank) true).run
        (oneBatch ++ [.packet (dataPacket 4 2), .startHandler, .burn])).burns,
      b.address = addressOf b.event.batch ∧ b.bytes = (b.event.batch.map Packet.data).flatten := by
  intro h
  have hburns : ((new noRegions (fun _ => 0) (fun _ => blank) true).run
      (oneBatch ++ [.packet (dataPacket 4 2), .startHandler, .burn])).burns.any
        (fun b => b.address != addressOf b.event.batch) = true := by
    decide +kernel
  obtain ⟨b, hb, hne⟩ := List.any_eq_true.mp hburns
  exact absurd (h b hb).1 (by simpa using hne)

end PartialFlashing

end CodalMicrobit

import CodalMicrobit.Radio.DatagramQueue

/-!
# What the queue of datagrams holds, and what is read of a frame

The walk of `packetReceived` counts the frames behind the first one, so the queue takes a fifth frame. The length byte of a
frame is what the air brought: `recv` into a buffer needs it to cover the header, and both need it to stay in the payload.
-/

namespace CodalMicrobit

open Nor

namespace DatagramQueue

/-- The walk counts the links behind the frame it starts at. -/
theorem walk_eq (queueDepth : Nat) (rest : List QueuedFrame) : walk queueDepth rest = queueDepth + rest.length := by
  induction rest generalizing queueDepth with
  | nil => rfl
  | cons p rest ih =>
    rw [walk, ih, List.length_cons]
    omega

/-- A queue with up to four frames takes the packet; one with more drops it. -/
theorem packetReceived_eq (s : DatagramQueue) (packet : QueuedFrame) :
    s.packetReceived packet =
      if s.rxQueue.length ≤ MICROBIT_RADIO_MAXIMUM_RX_BUFFERS then (true, { s with rxQueue := s.rxQueue ++ [packet] })
      else (false, { s with dropped := s.dropped ++ [s.rxQueue.length] }) := by
  unfold packetReceived
  split
  · rename_i h
    simp [h]
  · rename_i p rest h
    simp only [walk_eq, h, List.length_cons, MICROBIT_RADIO_MAXIMUM_RX_BUFFERS]
    by_cases hlen : rest.length ≤ 3
    · rw [if_neg (by omega), if_pos (by omega)]
    · rw [if_pos (by omega), if_neg (by omega)]

/-- The receive path of the radio queues a datagram as `packetReceived` does. -/
theorem datagramReceived_eq (s : Radio) (packet : HeapFrame) (rssi : HeapFrame → Int) :
    (s.datagramReceived packet).datagramQueue.map (fun f => (⟨f.buf, rssi f⟩ : QueuedFrame)) =
      (packetReceived ⟨s.datagramQueue.map fun f => ⟨f.buf, rssi f⟩, []⟩ ⟨packet.buf, rssi packet⟩).2.rxQueue := by
  by_cases h : s.datagramQueue.length ≤ MICROBIT_RADIO_MAXIMUM_RX_BUFFERS
  · rw [packetReceived_eq, if_pos (by rwa [List.length_map]), Radio.datagramReceived,
      if_neg (by simp only [MICROBIT_RADIO_MAXIMUM_RX_BUFFERS] at h ⊢; omega)]
    simp
  · rw [packetReceived_eq, if_neg (by rwa [List.length_map]), Radio.datagramReceived,
      if_pos (by simp only [MICROBIT_RADIO_MAXIMUM_RX_BUFFERS] at h ⊢; omega)]

/-- `recv` takes at most the first frame off, and drops nothing. -/
theorem after_recv (s : DatagramQueue) (buf : Bool) (len : Int) :
    ((s.after (.recv buf len)).rxQueue = s.rxQueue ∨ (s.after (.recv buf len)).rxQueue = s.rxQueue.tail) ∧
      (s.after (.recv buf len)).dropped = s.dropped := by
  unfold after recv
  cases h : s.rxQueue with
  | nil => exact ⟨Or.inl h, rfl⟩
  | cons p rest =>
    dsimp only
    split
    · exact ⟨Or.inl h, rfl⟩
    · exact ⟨Or.inr rfl, rfl⟩

/-- Taking a packet takes the oldest and drops none. -/
theorem after_recvPacket (s : DatagramQueue) (heap : Memory) :
    (s.after (.recvPacket heap)).rxQueue = s.rxQueue.tail ∧ (s.after (.recvPacket heap)).dropped = s.dropped := by
  unfold after recvPacket
  cases h : s.rxQueue with
  | nil => exact ⟨h, rfl⟩
  | cons p rest => exact ⟨rfl, rfl⟩

/-- At most four frames, and every frame that was dropped found four. -/
def Within (s : DatagramQueue) : Prop :=
  s.rxQueue.length ≤ MICROBIT_RADIO_MAXIMUM_RX_BUFFERS ∧ ∀ n ∈ s.dropped, MICROBIT_RADIO_MAXIMUM_RX_BUFFERS ≤ n

/-- The call does not bring a packet while the queue holds exactly four. -/
def Roomy (s : DatagramQueue) : Call → Prop
  | .packetReceived _ => s.rxQueue.length ≠ MICROBIT_RADIO_MAXIMUM_RX_BUFFERS
  | .recv _ _ | .recvPacket _ => True

/-- One call keeps the limit exactly when it is not a packet for a queue that holds four. -/
theorem after_within {s : DatagramQueue} (h : s.Within) (c : Call) : (s.after c).Within ↔ s.Roomy c := by
  obtain ⟨hlen, hdropped⟩ := h
  cases c with
  | packetReceived packet =>
    have hafter : s.after (.packetReceived packet) = { s with rxQueue := s.rxQueue ++ [packet] } := by
      rw [after, packetReceived_eq, if_pos hlen]
    unfold Within Roomy
    rw [hafter, List.length_append, List.length_singleton]
    exact ⟨fun h => by omega, fun h => ⟨by omega, hdropped⟩⟩
  | recv buf len =>
    obtain ⟨hq, hd⟩ := s.after_recv buf len
    refine iff_of_true ⟨?_, by rwa [hd]⟩ trivial
    rcases hq with hq | hq
    · rwa [hq]
    · rw [hq, List.length_tail]
      exact (Nat.sub_le _ _).trans hlen
  | recvPacket heap =>
    obtain ⟨hq, hd⟩ := s.after_recvPacket heap
    refine iff_of_true ⟨?_, by rwa [hd]⟩ trivial
    rw [hq, List.length_tail]
    exact (Nat.sub_le _ _).trans hlen

/-- In every state that the calls come to. -/
def Limited (calls : List Call) : Prop := ∀ before, before <+: calls → (run before).Within

theorem run_append (before : List Call) (c : Call) : run (before ++ [c]) = (run before).after c := by
  unfold run
  rw [List.foldl_append]
  rfl

/-- The limit is kept from call to call as long as no packet comes to a queue that holds four; and the first packet that
does goes in as the fifth. -/
theorem limited_iff (calls : List Call) :
    Limited calls ↔ ∀ before c, before ++ [c] <+: calls → (run before).Roomy c := by
  constructor
  · intro h before c hc
    have hbefore := h before ((List.prefix_append before [c]).trans hc)
    have hafter := h (before ++ [c]) hc
    rw [run_append] at hafter
    exact (after_within hbefore c).mp hafter
  · intro h before
    induction before using List.reverseRecOn with
    | nil => exact fun _ => ⟨Nat.zero_le _, fun n hn => absurd hn List.not_mem_nil⟩
    | append_singleton before c ih =>
      intro hc
      rw [run_append, after_within (ih ((List.prefix_append before [c]).trans hc))]
      exact h before c hc

/-- Five packets in a row: the queue holds five. -/
theorem limited_five_packets :
    ¬ Limited (List.replicate 5 (.packetReceived ⟨fun _ => 0, 0⟩)) := by
  intro h
  exact absurd (h _ (List.prefix_refl _)).1 (by decide)

/-! ## What is read of a frame -/

/-- What the frame gives to a caller with a buffer of `len` bytes: a count of bytes that is neither negative nor larger than the
buffer or the payload, as many bytes as the count says, and none from behind the payload. -/
def Copies (p : QueuedFrame) (len : Int) : Prop :=
  let (l, copied) := MicroBitRadioDatagram.recv p.buf len
  0 ≤ l ∧ l ≤ min len MICROBIT_RADIO_MAX_PACKET_SIZE ∧ copied.length = l

/-- What it gives to a caller of the other `recv`: a packet that is no longer than the payload, and has no byte from
behind it. -/
def Packs (p : QueuedFrame) : Prop :=
  ∀ heap, (packet heap p).length.toNat ≤ MICROBIT_RADIO_MAX_PACKET_SIZE ∧
    (packet heap p).payload.length ≤ MICROBIT_RADIO_MAX_PACKET_SIZE

/-- A copy into a buffer is right exactly when the frame has its whole header, and the copy ends with the payload: the
length byte is an attacker's, and a length below that of the header makes the count negative. -/
theorem copies_iff (p : QueuedFrame) {len : Int} (hlen : 0 ≤ len) :
    Copies p len ↔ 3 ≤ p.buf.length ∧ min len (p.buf.length - 3) ≤ 32 := by
  have hbyte : p.buf.length < 256 := UInt8.toNat_lt (p.buf 0)
  unfold Copies MicroBitRadioDatagram.recv MicroBitRadioDatagram.size_t
  simp only [MICROBIT_RADIO_HEADER_SIZE, MICROBIT_RADIO_MAX_PACKET_SIZE, slice_length]
  omega

/-- A packet is right exactly when the length byte does not go beyond the payload: one that does not cover the header
makes an empty packet. -/
theorem packs_iff (p : QueuedFrame) : Packs p ↔ p.buf.length ≤ 35 := by
  have hbyte : p.buf.length < 256 := UInt8.toNat_lt (p.buf 0)
  have hlength : (if (p.buf.length : Int) - (MICROBIT_RADIO_HEADER_SIZE - 1 : Nat) < 0 then 0
      else ((p.buf.length : Int) - (MICROBIT_RADIO_HEADER_SIZE - 1 : Nat)).toNat) = p.buf.length - 3 := by
    change (if (p.buf.length : Int) - (3 : Nat) < 0 then 0 else ((p.buf.length : Int) - (3 : Nat)).toNat) = _
    split <;> omega
  unfold Packs packet PacketBuffer.init
  simp only [hlength, MICROBIT_RADIO_MAX_PACKET_SIZE, slice_length, UInt8.toNat_ofNat', forall_const]
  omega

/-- Both are right, whatever the caller's buffer, exactly for the lengths that a sender gives its frames. -/
theorem copies_and_packs_iff (p : QueuedFrame) (len : Int) (hlen : 0 ≤ len) :
    Copies p len ∧ Packs p ↔ 3 ≤ p.buf.length ∧ p.buf.length ≤ 35 := by
  rw [copies_iff p hlen, packs_iff]
  omega

/-- A frame with a header and one byte of payload. -/
theorem copies_and_packs_one_byte :
    (0 : Int) ≤ 32 ∧ (Copies ⟨fun _ => 4, -42⟩ 32 ∧ Packs ⟨fun _ => 4, -42⟩ ↔
      3 ≤ FrameBuffer.length (fun _ => 4) ∧ FrameBuffer.length (fun _ => 4) ≤ 35) :=
  ⟨by decide, copies_and_packs_iff _ 32 (by decide)⟩

/-- A frame whose length byte is 255 and a buffer of 64 bytes: all 64 are copied, 32 of them from behind the payload. -/
theorem copies_length_byte_255 : ¬ (Copies ⟨fun _ => 255, -42⟩ 64 ∧ Packs ⟨fun _ => 255, -42⟩) := by
  rintro ⟨h, -⟩
  exact absurd ((copies_iff _ (by decide)).mp h).2 (by decide)

end DatagramQueue

end CodalMicrobit

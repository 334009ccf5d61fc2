import CodalMicrobit.Radio.Datagram

/-!
# What a peer reads of a datagram

Three limits meet here: `send` of a datagram compares the payload with 35 bytes, `send` of the radio compares the frame
with 35, and the hardware puts 32 bytes of the frame on the air. A payload of up to 29 bytes arrives, one of 30 to 32 is
accepted and loses its end, and one of 33 to 35 is rejected after it was copied over what lies behind the payload.
-/

namespace CodalMicrobit

open Nor

namespace MicroBitRadioDatagram

/-- A string that is accepted is what the peer reads, whatever its receive buffer held; one that is rejected is not
transmitted, and nothing is written behind the payload of the frame. -/
def RoundTrips (bleRunning : Bool) (data : List UInt8) : Prop :=
  ∀ stack : FrameBuffer,
    ((sendData bleRunning stack data).code = .DEVICE_OK →
      ∃ p, (sendData bleRunning stack data).air = some p ∧
        ∀ (rxBuf : FrameBuffer) (len : Int), data.length ≤ len →
          recv (MicroBitRadio.receive rxBuf p) len = ((data.length : Int), data)) ∧
    ((sendData bleRunning stack data).code ≠ .DEVICE_OK →
      (sendData bleRunning stack data).air = none ∧
        ∀ x, FrameBuffer.nextAt ≤ x → (sendData bleRunning stack data).buf x = stack x)

/-- The frame of a datagram of at most 35 bytes. -/
def frame (stack : FrameBuffer) (data : List UInt8) : FrameBuffer :=
  put (put stack 0 [UInt8.ofNat (data.length + 3), 1, 0, MICROBIT_RADIO_PROTOCOL_DATAGRAM]) 4 data

/-- A text as a memory, and back. -/
theorem slice_getD (data : List UInt8) : slice (fun k => data.getD k 0) 0 data.length = data := by
  rw [slice_eq_iff]
  refine ⟨rfl, fun k hk => ?_⟩
  rw [Nat.zero_add, List.getD_eq_getElem _ _ hk]

/-- More than 35 bytes are refused. -/
theorem sendData_rejected (bleRunning : Bool) (stack : FrameBuffer) {data : List UInt8} (h : 36 ≤ data.length) :
    sendData bleRunning stack data = ⟨.DEVICE_INVALID_PARAMETER, stack, none⟩ := by
  unfold sendData send
  dsimp only
  rw [if_pos (by simp only [MICROBIT_RADIO_MAX_PACKET_SIZE, MICROBIT_RADIO_HEADER_SIZE]; omega)]

/-- Up to 35 bytes are sent in one frame. -/
theorem sendData_eq (bleRunning : Bool) (stack : FrameBuffer) {data : List UInt8} (h : data.length ≤ 35) :
    sendData bleRunning stack data =
      ⟨(MicroBitRadio.send bleRunning (some (frame stack data))).1, frame stack data,
        (MicroBitRadio.send bleRunning (some (frame stack data))).2⟩ := by
  unfold sendData send
  dsimp only
  rw [if_neg (by simp only [MICROBIT_RADIO_MAX_PACKET_SIZE, MICROBIT_RADIO_HEADER_SIZE]; omega), Int.toNat_natCast,
    slice_getD]
  rfl

/-- The frame of a datagram is as long as the data and its header. -/
theorem frame_length (stack : FrameBuffer) {data : List UInt8} (h : data.length ≤ 35) :
    (frame stack data).length = data.length + 3 := by
  unfold FrameBuffer.length frame
  rw [put_of_lt _ _ (by omega), put_of_mem _ _ (by omega) (by simp)]
  simp only [Nat.sub_zero, List.getElem_cons_zero, UInt8.toNat_ofNat']
  omega

/-- Behind the payload the frame is as the stack was exactly when the data ends with the payload, whatever is on it. -/
theorem frame_overrun (data : List UInt8) :
    (∀ stack x, FrameBuffer.nextAt ≤ x → frame stack data x = stack x) ↔ data.length ≤ 32 := by
  change (∀ stack x, 36 ≤ x → frame stack data x = stack x) ↔ _
  constructor
  · intro h
    by_contra hlen
    -- a stack on which the byte behind the payload differs from the byte that is copied over it
    have hx := h (fun _ => data[32] + 1) 36 (by omega)
    rw [frame, put_of_mem _ _ (by omega) (by omega)] at hx
    have hne : data[32] ≠ data[32] + 1 := by simp
    exact hne hx
  · intro hlen stack x hx
    rw [frame, put_of_le _ _ (by omega), put_of_le _ _ (by simp; omega)]

/-- The payload in the peer's buffer: what was transmitted of it, and then what that buffer held. -/
theorem receive_payload (rxBuf stack : FrameBuffer) {data : List UInt8} (h : data.length ≤ 32) {k : Nat}
    (hk : k < data.length) :
    MicroBitRadio.receive rxBuf (MicroBitRadio.transmit (frame stack data)) (4 + k) =
      if k < 29 then data[k] else rxBuf (4 + k) := by
  unfold MicroBitRadio.receive MicroBitRadio.transmit
  rw [frame_length stack (by omega)]
  simp only [MICROBIT_RADIO_MAX_PACKET_SIZE]
  by_cases hk29 : k < 29
  · rw [if_pos hk29, put_of_mem _ _ (by omega) (by simp; omega)]
    simp only [Nat.sub_zero, Nat.add_comm 4 k, List.getElem_cons_succ, slice_getElem]
    rw [show 1 + (k + 3) = 4 + k by omega, frame, put_add _ 4 k data hk]
  · rw [if_neg hk29, put_of_le _ _ (by simp; omega)]

/-- The frame that arrives is as long as the one that was sent. -/
theorem receive_length (rxBuf stack : FrameBuffer) {data : List UInt8} (h : data.length ≤ 35) :
    (MicroBitRadio.receive rxBuf (MicroBitRadio.transmit (frame stack data))).length = data.length + 3 := by
  rw [← frame_length stack h]
  unfold FrameBuffer.length MicroBitRadio.receive MicroBitRadio.transmit
  rw [put_of_mem _ _ (by omega) (by simp)]
  simp

/-- With a large enough buffer the peer reads as many bytes as were sent. -/
theorem recv_receive (rxBuf stack : FrameBuffer) {data : List UInt8} (h : data.length ≤ 35) {len : Int}
    (hlen : data.length ≤ len) :
    recv (MicroBitRadio.receive rxBuf (MicroBitRadio.transmit (frame stack data))) len =
      ((data.length : Int),
        slice (MicroBitRadio.receive rxBuf (MicroBitRadio.transmit (frame stack data))) 4 data.length) := by
  have hmin : min len (((data.length + 3 : Nat) : Int) - (MICROBIT_RADIO_HEADER_SIZE - 1 : Nat)) = data.length := by
    simp only [MICROBIT_RADIO_HEADER_SIZE]
    omega
  have hsize : size_t (data.length : Int) = data.length := by
    unfold size_t
    omega
  unfold recv
  rw [receive_length rxBuf stack h, hmin]
  dsimp only
  rw [hsize]
  rfl

/-- `MicroBitRadio::send` of a datagram's frame. -/
theorem send_frame (stack : FrameBuffer) {data : List UInt8} (h : data.length ≤ 35) :
    MicroBitRadio.send false (some (frame stack data)) =
      if data.length ≤ 32 then (.DEVICE_OK, some (MicroBitRadio.transmit (frame stack data)))
      else (.DEVICE_INVALID_PARAMETER, none) := by
  unfold MicroBitRadio.send
  simp only [Bool.false_eq_true, if_false, frame_length stack h, MICROBIT_RADIO_MAX_PACKET_SIZE,
    MICROBIT_RADIO_HEADER_SIZE]
  by_cases hl : data.length ≤ 32
  · rw [if_neg (by omega), if_pos hl]
  · rw [if_pos (by omega), if_neg hl]

/-- A string that goes on the air arrives exactly when it has at most 29 bytes. -/
theorem roundTrips_sent {data : List UInt8} (h : data.length ≤ 32) :
    RoundTrips false data ↔ data.length ≤ 29 := by
  have hsend : ∀ stack, sendData false stack data =
      ⟨.DEVICE_OK, frame stack data, some (MicroBitRadio.transmit (frame stack data))⟩ := by
    intro stack
    rw [sendData_eq false stack (by omega), send_frame stack (by omega), if_pos h]
  simp only [RoundTrips, hsend]
  constructor
  · intro hr
    by_contra hlen
    -- a receive buffer that holds another byte where the last byte to arrive should be
    obtain ⟨p, hair, hp⟩ := (hr fun _ => 0).1 trivial
    obtain rfl := Option.some.inj hair
    have hrecv := hp (fun _ => data[29] + 1) data.length (Int.le_refl _)
    rw [recv_receive _ _ (by omega) (Int.le_refl _), Prod.mk.injEq, slice_eq_iff] at hrecv
    have hbyte := hrecv.2.2 29 (by omega)
    rw [receive_payload _ _ h (by omega), if_neg (by omega)] at hbyte
    simp at hbyte
  · intro hlen stack
    refine ⟨fun _ => ⟨_, rfl, fun rxBuf len hl => ?_⟩, fun hno => absurd rfl hno⟩
    rw [recv_receive _ _ (by omega) hl, Prod.mk.injEq, slice_eq_iff]
    refine ⟨rfl, rfl, fun k hk => ?_⟩
    rw [receive_payload _ _ h hk, if_pos (by omega)]

/-- A string that is copied and then rejected stays inside the payload exactly when it has at most 32 bytes. -/
theorem roundTrips_copied {bleRunning : Bool} {data : List UInt8} (h : data.length ≤ 35)
    (hrej : ∀ stack, (MicroBitRadio.send bleRunning (some (frame stack data))).1 ≠ .DEVICE_OK ∧
      (MicroBitRadio.send bleRunning (some (frame stack data))).2 = none) :
    RoundTrips bleRunning data ↔ data.length ≤ 32 := by
  rw [← frame_overrun]
  simp only [RoundTrips, sendData_eq bleRunning _ h]
  constructor
  · exact fun hr stack x hx => ((hr stack).2 (hrej stack).1).2 x hx
  · exact fun hf stack => ⟨fun hok => absurd hok (hrej stack).1, fun _ => ⟨(hrej stack).2, fun x hx => hf stack x hx⟩⟩

/-- The round trip of datagrams, for every string: it holds of the strings of at most 29 bytes and of those that are
rejected before they are copied; while Bluetooth is running also of those that are rejected and fit the payload. -/
theorem datagram_round_trip (bleRunning : Bool) (data : List UInt8) :
    RoundTrips bleRunning data ↔
      data.length ≤ 29 ∨ 36 ≤ data.length ∨ bleRunning = true ∧ data.length ≤ 32 := by
  rcases Nat.lt_or_ge data.length 36 with hlen | hlen
  · cases bleRunning with
    | true =>
      rw [roundTrips_copied (by omega) fun stack => ⟨by simp [MicroBitRadio.send], rfl⟩]
      simp only [true_and]
      omega
    | false =>
      simp only [Bool.false_eq_true, false_and, or_false]
      by_cases h : data.length ≤ 32
      · rw [roundTrips_sent h]
        omega
      · rw [roundTrips_copied (by omega) fun stack => by rw [send_frame stack (by omega), if_neg h]; exact ⟨nofun, rfl⟩]
        omega
  · refine iff_of_true (fun stack => ?_) (Or.inr (Or.inl hlen))
    rw [sendData_rejected bleRunning stack hlen]
    exact ⟨nofun, fun _ => ⟨rfl, fun _ _ => rfl⟩⟩

/-- A datagram of 30 bytes is accepted, and its last byte does not arrive. -/
theorem thirty_bytes_lose_one : ¬RoundTrips false (List.replicate 30 1) := by
  intro h
  obtain ⟨p, hp, hrecv⟩ := (h fun _ => 0).1 (by decide)
  have hbytes := congrArg Prod.snd (hrecv (fun _ => 0) 30 (by decide))
  rw [← Option.some.inj hp] at hbytes
  exact absurd hbytes (by decide)

end MicroBitRadioDatagram

end CodalMicrobit

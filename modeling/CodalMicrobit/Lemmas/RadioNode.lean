import CodalMicrobit.Radio.Network
import CodalMicrobit.Theorems.DatagramRoundTrip
import CodalMicrobit.Theorems.RadioReceive

/-!
# A micro:bit on a radio channel

What a frame carries from the memory of one micro:bit to that of another, and what every operation keeps of each of them.
-/

namespace CodalMicrobit

open Nor

variable {B : MessageBus}

/-! ## Frames -/

/-- The bytes that were transmitted are in the receiver's buffer as they were in the sender's. -/
theorem MicroBitRadio.receive_transmit (rxBuf f : FrameBuffer) {k : Nat} (hlen : k ≤ f.length)
    (hmax : k ≤ MICROBIT_RADIO_MAX_PACKET_SIZE) : receive rxBuf (transmit f) k = f k := by
  unfold receive transmit
  cases k with
  | zero =>
    rw [put_of_mem _ _ (Nat.le_refl 0) (by simp)]
    rfl
  | succ k =>
    rw [put_of_mem _ _ (Nat.zero_le _) (by simp; omega)]
    simp only [Nat.sub_zero, List.getElem_cons_succ, slice_getElem]
    rw [Nat.add_comm]

/-- What is sent is the frame, and it has at most 35 bytes. -/
theorem MicroBitRadio.send_eq_some {f : FrameBuffer} {air : Transmission} (h : (send false (some f)).2 = some air) :
    air = transmit f ∧ f.length ≤ 35 := by
  unfold send at h
  simp only [Bool.false_eq_true, if_false] at h
  split at h
  · cases h
  · rename_i hlen
    refine ⟨(Option.some.inj h).symm, ?_⟩
    simp only [MICROBIT_RADIO_MAX_PACKET_SIZE, MICROBIT_RADIO_HEADER_SIZE] at hlen
    omega

namespace MicroBitRadioEvent

/-- The frame of an event is as long as the event and its header. -/
theorem frame_length (hB : B.Lawful) (stack : FrameBuffer) (e : B.Event) (padding : Memory) :
    (frame stack e padding).length = B.size + 3 := by
  have hsize := hB.size_le
  unfold MICROBIT_RADIO_HEADER_SIZE MICROBIT_RADIO_MAX_PACKET_SIZE at hsize
  unfold FrameBuffer.length frame
  rw [put_of_lt _ _ (by decide), put_of_mem _ _ (Nat.le_refl 0) (by simp)]
  exact UInt8.toNat_ofNat_of_lt' (show B.size + 3 < 256 by omega)

/-- The frame of an event names the protocol of events. -/
theorem frame_protocol (stack : FrameBuffer) (e : B.Event) (padding : Memory) :
    (frame stack e padding).protocol = MICROBIT_RADIO_PROTOCOL_EVENTBUS := by
  unfold FrameBuffer.protocol frame
  rw [put_of_lt _ _ (by decide), put_of_mem _ _ (by decide) (by simp)]
  rfl

/-- The event that was raised is the one that the receiver reads, whatever its buffer held. -/
theorem event_receive (hB : B.Lawful) (rxBuf stack : FrameBuffer) (e : B.Event) (padding : Memory) :
    event (MicroBitRadio.receive rxBuf (MicroBitRadio.transmit (frame stack e padding))) = e := by
  have hsize := hB.size_le
  unfold MICROBIT_RADIO_HEADER_SIZE at hsize
  have hpayload : slice (frame stack e padding) FrameBuffer.payloadAt B.size = B.bytes e padding := by
    rw [← hB.bytes_length e padding]
    exact slice_put ..
  have hreceived : slice (MicroBitRadio.receive rxBuf (MicroBitRadio.transmit (frame stack e padding))) FrameBuffer.payloadAt B.size =
      slice (frame stack e padding) FrameBuffer.payloadAt B.size := by
    refine slice_congr fun x _ hx => MicroBitRadio.receive_transmit rxBuf _ ?_ ?_
    · rw [frame_length hB]
      unfold FrameBuffer.payloadAt MICROBIT_RADIO_HEADER_SIZE at hx
      omega
    · unfold FrameBuffer.payloadAt MICROBIT_RADIO_HEADER_SIZE at hx
      omega
  unfold event
  rw [hreceived, hpayload, hB.read_bytes]

end MicroBitRadioEvent

/-- The frame of a datagram names the protocol of datagrams. -/
theorem MicroBitRadioDatagram.frame_protocol (stack : FrameBuffer) (data : List UInt8) :
    (frame stack data).protocol = MICROBIT_RADIO_PROTOCOL_DATAGRAM := by
  unfold FrameBuffer.protocol frame
  rw [put_of_lt _ _ (by decide), put_of_mem _ _ (by decide) (by simp)]
  rfl

/-! ## The radio -/

/-- The handler of events has a packet in hand, and `fire` has not returned. -/
def CallbackPoint.isFiring : CallbackPoint → Bool
  | .firing _ _ => true
  | _ => false

namespace Radio

variable {s : Radio}

/-- A turn of the idle callback takes back neither an arrival nor a loss, and drops a frame only where the datagram service has
it. -/
theorem idle_frame (s : Radio) : s.idle.rxBuf = s.rxBuf ∧ s.idle.arrivals = s.arrivals ∧
    (s.idle.lost = s.lost ∨ ∃ p packet, s.callback = .queueing p packet ∧
      s.idle.lost = s.lost ++ [.datagramQueue packet.arrival s.datagramQueue.length]) := by
  unfold idle recv datagramReceived
  cases hc : s.callback with
  | outside => exact ⟨rfl, rfl, .inl rfl⟩
  | test =>
    dsimp only
    repeat' split
    all_goals exact ⟨rfl, rfl, .inl rfl⟩
  | queueing p packet =>
    dsimp only
    split
    · exact ⟨rfl, rfl, .inr ⟨p, packet, rfl, rfl⟩⟩
    · exact ⟨rfl, rfl, .inl rfl⟩
  | firing p packet => exact ⟨rfl, rfl, .inl rfl⟩
  | datagram p | event p | check p =>
    cases hq : s.rxQueue with
    | nil => simp
    | cons f rest =>
      dsimp only
      repeat' split
      all_goals exact ⟨rfl, rfl, .inl rfl⟩

/-- What is lost stays lost. -/
theorem idle_lost (s : Radio) {k : Nat} (hk : k ∈ s.lost.map Loss.arrival) : k ∈ s.idle.lost.map Loss.arrival := by
  obtain ⟨-, -, hsame | ⟨p, packet, -, hmore⟩⟩ := idle_frame s
  · rwa [hsame]
  · rw [hmore, List.map_append]
    exact List.mem_append_left _ hk

/-- It takes a frame off the queue in a handler, or where nobody has taken it. -/
theorem idle_queue (s : Radio) :
    s.idle.rxQueue = s.rxQueue ∨
      ∃ f, s.rxQueue = f :: s.idle.rxQueue ∧
        ((∃ p, s.callback = .datagram p) ∨ (∃ p, s.callback = .event p) ∨ s.callback = .check f.address) := by
  unfold idle recv datagramReceived
  cases hc : s.callback with
  | outside => exact Or.inl rfl
  | test =>
    left
    dsimp only
    repeat' split
    all_goals rfl
  | queueing p packet =>
    left
    dsimp only
    split <;> rfl
  | firing p packet => exact Or.inl rfl
  | datagram p =>
    cases hq : s.rxQueue with
    | nil => exact Or.inl hq
    | cons f rest => exact Or.inr ⟨f, rfl, Or.inl ⟨p, rfl⟩⟩
  | event p =>
    cases hq : s.rxQueue with
    | nil => exact Or.inl hq
    | cons f rest => exact Or.inr ⟨f, rfl, Or.inr (Or.inl ⟨p, rfl⟩)⟩
  | check p =>
    dsimp only
    split
    · rename_i hhead
      cases hq : s.rxQueue with
      | nil => simp [hq] at hhead
      | cons f rest =>
        rw [hq, List.head?_cons, Option.map_some, Option.some.injEq] at hhead
        exact Or.inr ⟨f, rfl, Or.inr (Or.inr (by rw [hhead]))⟩
    · exact Or.inl rfl

/-- The handler of events takes the frame in front. -/
theorem idle_event {p : Nat} {f : HeapFrame} {rest : List HeapFrame} (hc : s.callback = .event p)
    (hq : s.rxQueue = f :: rest) : s.idle.callback = .firing p f ∧ s.idle.rxQueue = rest := by
  unfold idle recv
  rw [hc, hq]
  exact ⟨rfl, rfl⟩

/-- It is called for frames of its protocol only, and nothing else fires. -/
theorem idle_elsewhere (h : ∀ p, s.callback ≠ .event p) :
    s.idle.callback.isFiring = false ∧
      ∀ p, s.idle.callback = .event p →
        ∃ f rest, s.idle.rxQueue = f :: rest ∧ f.buf.protocol = MICROBIT_RADIO_PROTOCOL_EVENTBUS := by
  unfold idle recv datagramReceived
  cases hc : s.callback with
  | event p => exact absurd hc (h p)
  | test =>
    cases hq : s.rxQueue with
    | nil => exact ⟨rfl, nofun⟩
    | cons f rest =>
      dsimp only
      split
      · exact ⟨rfl, nofun⟩
      · split
        · rename_i hproto
          exact ⟨rfl, fun _ _ => ⟨f, rest, rfl, hproto⟩⟩
        · exact ⟨rfl, nofun⟩
  | datagram p => cases hq : s.rxQueue <;> simp [hc, CallbackPoint.isFiring]
  | outside | queueing p packet | firing p packet => exact ⟨rfl, nofun⟩
  | check p =>
    dsimp only
    split <;> exact ⟨rfl, nofun⟩

/-- Where the callback tests whether a frame was taken, the one in front is another one or of no protocol it knows. -/
theorem idle_check (h : s.Sound) {p : Nat} (hcheck : s.idle.callback = .check p) :
    ∀ f rest, s.idle.rxQueue = f :: rest → f.address = p → f.buf.protocol ≠ MICROBIT_RADIO_PROTOCOL_EVENTBUS := by
  intro f rest hq hp
  -- a packet in hand has its memory to itself
  have hhand : ∀ packet, s.held = [packet] → s.idle.rxQueue = s.rxQueue → packet.address ≠ p := fun packet hheld hsame haddr => by
    refine (held_address h hheld).1 ?_
    rw [← hsame, hq, List.head?_cons, Option.map_some, hp, haddr]
  have hpoint := h.point
  cases hc : s.callback with
  | outside => exact absurd hcheck (by simp [idle, hc])
  | check q => exact absurd hcheck (by simp [idle, hc]; split <;> simp)
  | event q => exact absurd hcheck (by cases hrx : s.rxQueue <;> simp [idle, recv, hc, hrx])
  | datagram q => exact absurd hcheck (by cases hrx : s.rxQueue <;> simp [idle, recv, hc, hrx])
  | queueing q packet =>
    have hidle : s.idle.callback = .check q ∧ s.idle.rxQueue = s.rxQueue := by
      unfold idle datagramReceived
      rw [hc]
      exact ⟨rfl, by dsimp only; split <;> rfl⟩
    simp only [AtPoint, hc] at hpoint
    obtain rfl := CallbackPoint.check.inj (hidle.1.symm.trans hcheck)
    exact absurd hpoint.1 (hhand packet (by simp only [held, hc]) hidle.2)
  | firing q packet =>
    have hidle : s.idle.callback = .check q ∧ s.idle.rxQueue = s.rxQueue := by
      unfold idle
      rw [hc]
      exact ⟨rfl, rfl⟩
    simp only [AtPoint, hc] at hpoint
    obtain rfl := CallbackPoint.check.inj (hidle.1.symm.trans hcheck)
    exact absurd hpoint.1 (hhand packet (by simp only [held, hc]) hidle.2)
  | test =>
    unfold idle at hcheck hq
    rw [hc] at hcheck hq
    cases hrx : s.rxQueue with
    | nil => simp [hrx] at hcheck
    | cons g old =>
      rw [hrx] at hcheck hq
      dsimp only at hcheck hq
      split at hcheck
      · cases hcheck
      · rename_i hdatagram
        rw [if_neg hdatagram] at hq
        split at hcheck
        · cases hcheck
        · rename_i hevent
          rw [if_neg hevent] at hq
          obtain ⟨rfl, -⟩ := List.cons.inj hq
          exact hevent

/-- A step that leaves the callback where it is, and puts what arrives behind the other frames or drops it. -/
structure Arrives (s s' : Radio) : Prop where
  callback : s'.callback = s.callback
  arrivals : s.arrivals <+: s'.arrivals
  lost : s.lost <+: s'.lost
  queue : ∃ new : List HeapFrame, s'.rxQueue = s.rxQueue ++ new ∧ (new.map (·.arrival)).Sublist [s.arrivals.length] ∧
    ∀ f ∈ new, s.rxBuf = some f.address
  complete : ∀ k, s.arrivals.length ≤ k → k < s'.arrivals.length →
    k ∈ s'.rxQueue.map (·.arrival) ++ s'.lost.map Loss.arrival

/-- Taking a datagram receives nothing. -/
theorem datagramRecv_arrives (s : Radio) : s.Arrives s.datagramRecv := by
  unfold datagramRecv
  split
  all_goals exact ⟨rfl, List.prefix_refl _, List.prefix_refl _, ⟨[], (List.append_nil _).symm, List.nil_sublist _, nofun⟩,
    fun k hle hlt => absurd hlt (Nat.not_lt.mpr hle)⟩

/-- A frame that is received is added to the arrivals. -/
theorem queueRxBuf_arrivals (h : s.rxBuf ≠ none) (buf : FrameBuffer) (newRxBuf : Option Nat) :
    (s.queueRxBuf buf newRxBuf).arrivals = s.arrivals ++ [buf] := by
  obtain ⟨rxBuf, hbuf⟩ := Option.ne_none_iff_exists'.mp h
  unfold queueRxBuf
  rw [hbuf]
  dsimp only
  repeat' split
  all_goals rfl

/-- A frame that is received arrives and leaves the others where they were. -/
theorem queueRxBuf_arrives (h : s.rxBuf ≠ none) (buf : FrameBuffer) (newRxBuf : Option Nat) :
    s.Arrives (s.queueRxBuf buf newRxBuf) := by
  have harrivals := queueRxBuf_arrivals h buf newRxBuf
  have hlast : ∀ k, s.arrivals.length ≤ k → k < (s.queueRxBuf buf newRxBuf).arrivals.length → k = s.arrivals.length :=
    fun k hle hlt => by
      rw [harrivals, List.length_append, List.length_singleton] at hlt
      omega
  obtain ⟨rxBuf, hbuf⟩ := Option.ne_none_iff_exists'.mp h
  refine ⟨?_, harrivals ▸ List.prefix_append _ _, ?_, ?_, fun k hle hlt => hlast k hle hlt ▸ ?_⟩ <;>
    unfold queueRxBuf <;> rw [hbuf] <;> dsimp only
  · repeat' split
    all_goals rfl
  · repeat' split
    · exact List.prefix_append _ _
    · exact List.prefix_append _ _
    · exact List.prefix_refl _
  · repeat' split
    · exact ⟨[], (List.append_nil _).symm, List.nil_sublist _, nofun⟩
    · exact ⟨[], (List.append_nil _).symm, List.nil_sublist _, nofun⟩
    · exact ⟨_, rfl, List.Sublist.refl _, fun f hf => by rw [List.mem_singleton.mp hf]⟩
  · repeat' split
    all_goals simp [Loss.arrival]

/-- An enabled radio always has a buffer for the hardware. -/
theorem reachable_rxBuf (h : s.Reachable) : s.rxBuf ≠ none := by
  induction h with
  | enable rxBuf => exact Option.some_ne_none rxBuf
  | @step s s' _ hstep ih =>
    cases hstep with
    | interrupt buf newRxBuf hnew =>
      unfold queueRxBuf
      dsimp only
      repeat' split
      all_goals first | exact ih | exact Option.some_ne_none _
    | idle => rwa [(idle_frame s).1]
    | recv =>
      unfold datagramRecv
      split <;> exact ih

/-- What the queue of the datagrams dropped was a datagram. -/
theorem reachable_dropped (h : s.Reachable) {k n : Nat} (hl : Loss.datagramQueue k n ∈ s.lost) :
    ∃ buf, s.arrivals[k]? = some buf ∧ buf.protocol = MICROBIT_RADIO_PROTOCOL_DATAGRAM := by
  induction h with
  | enable rxBuf => exact absurd hl List.not_mem_nil
  | @step s s' hs hstep ih =>
    have hgrow : s.arrivals <+: s'.arrivals → Loss.datagramQueue k n ∈ s.lost →
        ∃ buf, s'.arrivals[k]? = some buf ∧ buf.protocol = MICROBIT_RADIO_PROTOCOL_DATAGRAM := by
      rintro ⟨more, hmore⟩ hold
      obtain ⟨buf, hbuf, hproto⟩ := ih hold
      refine ⟨buf, ?_, hproto⟩
      rw [← hmore, List.getElem?_append_left (List.getElem?_eq_some_iff.mp hbuf).1, hbuf]
    cases hstep with
    | interrupt buf newRxBuf hnew =>
      refine hgrow (queueRxBuf_arrives (reachable_rxBuf hs) buf newRxBuf).arrivals ?_
      obtain ⟨rxBuf, hbuf⟩ := Option.ne_none_iff_exists'.mp (reachable_rxBuf hs)
      unfold queueRxBuf at hl
      rw [hbuf] at hl
      dsimp only at hl
      split at hl
      · exact (List.mem_append.mp hl).resolve_right fun h => Loss.noConfusion (List.mem_singleton.mp h)
      · split at hl
        · exact (List.mem_append.mp hl).resolve_right fun h => Loss.noConfusion (List.mem_singleton.mp h)
        · exact hl
    | idle =>
      obtain ⟨-, harrivals, hlost⟩ := idle_frame s
      rcases hlost with hsame | ⟨p, packet, hc, hmore⟩
      · exact hgrow (harrivals ▸ List.prefix_refl _) (hsame ▸ hl)
      · rw [hmore] at hl
        rcases List.mem_append.mp hl with hl | hl
        · exact hgrow (harrivals ▸ List.prefix_refl _) hl
        · have hsound := reachable_sound hs
          have hpoint := hsound.point
          simp only [AtPoint, hc] at hpoint
          have hheld : packet ∈ s.ledger := List.mem_append_right _ (List.mem_append_left _ (List.mem_append_right _ (by
            simp only [held, hc, List.mem_singleton])))
          obtain ⟨rfl, -⟩ := Loss.datagramQueue.inj (List.mem_singleton.mp hl)
          exact ⟨packet.buf, harrivals ▸ hsound.known packet hheld, hpoint.2⟩
    | recv =>
      refine hgrow (datagramRecv_arrives s).arrivals ?_
      unfold datagramRecv at hl
      split at hl
      · exact hl
      · exact hl

end Radio

/-! ## A micro:bit -/

namespace Node

/-- The number of calls the message bus has still to make for a raise. -/
def callsFor (s : Node B) (r : Nat) : Nat := s.calls.countP fun c => c.raise = some r

theorem callsFor_fire_self (s : Node B) (e : B.Event) (r : Nat) :
    (s.fire e (some r)).callsFor r = B.matching s.messageBus e + s.callsFor r := by
  unfold callsFor fire
  rw [List.countP_append, List.countP_replicate, if_pos (decide_eq_true rfl)]

/-- Firing an event calls no listener for another raise. -/
theorem callsFor_fire_other (s : Node B) (e : B.Event) {raise : Option Nat} {r : Nat} (h : raise ≠ some r) :
    (s.fire e raise).callsFor r = s.callsFor r := by
  unfold callsFor fire
  rw [List.countP_append, List.countP_replicate, if_neg fun hd => h (of_decide_eq_true hd), Nat.zero_add]

/-- The calls for an event that came over the radio are for no raise. -/
theorem fire_echoes (s : Node B) (e : B.Event) :
    (s.fire e none).calls.filter (·.raise.isSome) = s.calls.filter (·.raise.isSome) := by
  unfold fire
  rw [List.filter_append, List.filter_replicate_of_neg Bool.false_ne_true, List.nil_append]

/-- What holds of a micro:bit at any time: forwarding is suppressed exactly while an event from the radio is fired, and the
events fired are those of the event frames that arrived, one after the other, and none is left out but those that are lost. -/
structure Sound (s : Node B) : Prop where
  radio : s.radio.Reachable
  suppressed : s.suppressForwarding = s.radio.callback.isFiring
  echoes : ∀ c ∈ s.calls, c.raise = none → s.suppressForwarding = true
  point : ∀ p, s.radio.callback = .event p →
    ∃ f rest, s.radio.rxQueue = f :: rest ∧ f.buf.protocol = MICROBIT_RADIO_PROTOCOL_EVENTBUS
  check : ∀ p, s.radio.callback = .check p → ∀ f rest, s.radio.rxQueue = f :: rest → f.address = p →
    f.buf.protocol ≠ MICROBIT_RADIO_PROTOCOL_EVENTBUS
  order : (s.fired.map Prod.fst ++ s.radio.rxQueue.map (·.arrival)).Pairwise (· < ·)
  read : ∀ f ∈ s.fired, ∃ buf, s.radio.arrivals[f.1]? = some buf ∧ buf.protocol = MICROBIT_RADIO_PROTOCOL_EVENTBUS ∧
    f.2 = MicroBitRadioEvent.event buf
  complete : ∀ k buf, s.radio.arrivals[k]? = some buf → buf.protocol = MICROBIT_RADIO_PROTOCOL_EVENTBUS →
    k ∈ s.fired.map Prod.fst ∨ k ∈ s.radio.rxQueue.map (·.arrival) ++ s.radio.lost.map Loss.arrival

variable {s s' : Node B}

/-- What was fired or queued has arrived. -/
theorem Sound.past (h : s.Sound) : ∀ k ∈ s.fired.map Prod.fst ++ s.radio.rxQueue.map (·.arrival), k < s.radio.arrivals.length := by
  intro k hk
  rcases List.mem_append.mp hk with hk | hk
  · obtain ⟨f, hf, rfl⟩ := List.mem_map.mp hk
    obtain ⟨buf, hbuf, -⟩ := h.read f hf
    exact (List.getElem?_eq_some_iff.mp hbuf).1
  · obtain ⟨f, hf, rfl⟩ := List.mem_map.mp hk
    exact (Radio.reachable_sound h.radio).arrival_lt (List.mem_append_right _ (List.mem_append_right _ hf))

/-- What only leaves calls out, and touches neither the radio nor its record. -/
theorem Sound.congr (h : s.Sound) (hradio : s'.radio = s.radio) (hsup : s'.suppressForwarding = s.suppressForwarding)
    (hfired : s'.fired = s.fired) (hcalls : ∀ c ∈ s'.calls, c ∈ s.calls) : s'.Sound where
  radio := by rw [hradio]; exact h.radio
  suppressed := by rw [hsup, hradio]; exact h.suppressed
  echoes c hc hnone := by rw [hsup]; exact h.echoes c (hcalls c hc) hnone
  point := by rw [hradio]; exact h.point
  check := by rw [hradio]; exact h.check
  order := by rw [hradio, hfired]; exact h.order
  read := by rw [hradio, hfired]; exact h.read
  complete := by rw [hradio, hfired]; exact h.complete

/-- Frames that arrive go behind the others. -/
theorem Sound.arrive (h : s.Sound) {radio : Radio} (hstep : Radio.Step s.radio radio) (harrives : s.radio.Arrives radio) :
    ({ s with radio } : Node B).Sound := by
  obtain ⟨hcallback, ⟨more, hmore⟩, ⟨dropped, hdropped⟩, ⟨new, hqueue, hnew, hfrom⟩, hcomplete⟩ := harrives
  refine ⟨h.radio.step hstep, ?_, h.echoes, fun p hp => ?_, fun p hp f rest hq hf => ?_, ?_, fun f hf => ?_,
    fun k buf hk hproto => ?_⟩
  · change s.suppressForwarding = radio.callback.isFiring
    rw [hcallback]
    exact h.suppressed
  · change radio.callback = _ at hp
    rw [hcallback] at hp
    obtain ⟨f, rest, hq, hproto⟩ := h.point p hp
    exact ⟨f, rest ++ new, by rw [hqueue, hq]; rfl, hproto⟩
  · change radio.callback = _ at hp
    change radio.rxQueue = _ at hq
    rw [hcallback] at hp
    rw [hqueue] at hq
    cases hold : s.radio.rxQueue with
    | cons g old =>
      rw [hold, List.cons_append, List.cons.injEq] at hq
      exact h.check p hp f old (hold.trans (by rw [hq.1])) hf
    | nil =>
      -- the frame is in the buffer the hardware had, which is not the one that is tested
      rw [hold, List.nil_append] at hq
      have hbuf := hfrom f (by rw [hq]; exact List.mem_cons_self)
      have hpoint := (Radio.reachable_sound h.radio).point
      simp only [Radio.AtPoint, hp, hold] at hpoint
      rcases hpoint with ⟨g, old, hg, -⟩ | ⟨-, hne⟩
      · cases hg
      · exact absurd (hf ▸ hbuf) (hne trivial)
  · change (s.fired.map Prod.fst ++ radio.rxQueue.map (·.arrival)).Pairwise (· < ·)
    rw [hqueue, List.map_append, ← List.append_assoc]
    refine List.pairwise_append.mpr ⟨h.order, (List.pairwise_singleton _ _).sublist hnew, fun k hk l hl => ?_⟩
    rw [List.mem_singleton.mp (hnew.subset hl)]
    exact h.past k hk
  · obtain ⟨buf, hbuf, hrest⟩ := h.read f hf
    refine ⟨buf, ?_, hrest⟩
    change radio.arrivals[f.1]? = some buf
    rw [← hmore, List.getElem?_append_left (List.getElem?_eq_some_iff.mp hbuf).1]
    exact hbuf
  · change radio.arrivals[k]? = some buf at hk
    rcases Nat.lt_or_ge k s.radio.arrivals.length with hlt | hge
    · rw [← hmore, List.getElem?_append_left hlt] at hk
      refine (h.complete k buf hk hproto).imp_right fun hin => ?_
      change k ∈ radio.rxQueue.map _ ++ radio.lost.map _
      rw [hqueue, ← hdropped, List.map_append, List.map_append]
      rcases List.mem_append.mp hin with hin | hin
      · exact List.mem_append_left _ (List.mem_append_left _ hin)
      · exact List.mem_append_right _ (List.mem_append_left _ hin)
    · exact Or.inr (hcomplete k hge (List.getElem?_eq_some_iff.mp hk).1)

/-- An interrupt of the radio keeps the node sound. -/
theorem Sound.interrupt (h : s.Sound) (buf : FrameBuffer) (newRxBuf : Option Nat)
    (hnew : ∀ a, newRxBuf = some a → a ∉ s.radio.live) : ({ s with radio := s.radio.queueRxBuf buf newRxBuf } : Node B).Sound :=
  h.arrive (.interrupt s.radio buf newRxBuf hnew) (Radio.queueRxBuf_arrives (Radio.reachable_rxBuf h.radio) buf newRxBuf)

/-- Taking a datagram keeps the node sound. -/
theorem Sound.recv (h : s.Sound) : ({ s with radio := s.radio.datagramRecv } : Node B).Sound :=
  h.arrive (.recv s.radio) (Radio.datagramRecv_arrives s.radio)

/-- Firing an event keeps the node sound. -/
theorem Sound.fire (h : s.Sound) (e : B.Event) {raise : Option Nat} (hraise : raise = none → s.suppressForwarding = true) :
    (s.fire e raise).Sound where
  radio := h.radio
  suppressed := h.suppressed
  echoes c hc hnone := by
    rcases List.mem_append.mp hc with hc | hc
    · rw [List.eq_of_mem_replicate hc] at hnone
      exact hraise hnone
    · exact h.echoes c hc hnone
  point := h.point
  check := h.check
  order := h.order
  read := h.read
  complete := h.complete

/-- A turn of the idle callback fires the event of the frame in front, or ends the suppression if there is one. -/
theorem Sound.idle_cases (h : s.Sound) :
    (∃ p f rest, s.radio.callback = .event p ∧ s.radio.rxQueue = f :: rest ∧
      f.buf.protocol = MICROBIT_RADIO_PROTOCOL_EVENTBUS ∧
      s.idle = ({ s with
        radio := s.radio.idle
        suppressForwarding := true
        fired := s.fired ++ [(f.arrival, MicroBitRadioEvent.event f.buf)] } : Node B).fire (MicroBitRadioEvent.event f.buf) none) ∨
    (∀ p, s.radio.callback ≠ .event p) ∧ s.idle = { s with radio := s.radio.idle, suppressForwarding := false } := by
  by_cases hevent : ∃ p, s.radio.callback = .event p
  · obtain ⟨p, hp⟩ := hevent
    obtain ⟨f, rest, hq, hproto⟩ := h.point p hp
    refine Or.inl ⟨p, f, rest, hp, hq, hproto, ?_⟩
    unfold Node.idle
    dsimp only
    rw [(Radio.idle_event hp hq).1, hp]
  · have hne : ∀ p, s.radio.callback ≠ .event p := fun p hp => hevent ⟨p, hp⟩
    refine Or.inr ⟨hne, ?_⟩
    have hsup := h.suppressed
    unfold Node.idle
    dsimp only
    split
    · rename_i hp _
      exact absurd hp (hne _)
    · rfl
    · rename_i hother _
      have hquiet : s.suppressForwarding = false := by
        rw [hsup]
        cases hc : s.radio.callback with
        | firing p f => exact absurd hc (hother p f)
        | _ => rfl
      rw [hquiet]

/-- A turn that does not fire takes no event off the queue. -/
theorem Sound.idle_leaves (h : s.Sound) (hne : ∀ p, s.radio.callback ≠ .event p) :
    s.radio.idle.rxQueue = s.radio.rxQueue ∨ ∃ f, s.radio.rxQueue = f :: s.radio.idle.rxQueue ∧
      f.buf.protocol ≠ MICROBIT_RADIO_PROTOCOL_EVENTBUS := by
  refine (Radio.idle_queue s.radio).imp_right ?_
  rintro ⟨f, hq, ⟨p, hp⟩ | ⟨p, hp⟩ | hp⟩ <;> refine ⟨f, hq, ?_⟩
  · have hat := (Radio.reachable_sound h.radio).point
    simp only [Radio.AtPoint, hp] at hat
    obtain ⟨g, rest, hg, -, hdatagram⟩ := hat
    obtain rfl := (List.cons.inj (hq.symm.trans hg)).1
    rw [hdatagram]
    decide
  · exact absurd hp (hne p)
  · exact h.check _ hp f _ hq rfl

/-- A turn that fires moves the frame in front to the events that were fired. -/
theorem Sound.idle_fires (h : s.Sound) {p : Nat} {f : HeapFrame} {rest : List HeapFrame}
    (hp : s.radio.callback = .event p) (hq : s.radio.rxQueue = f :: rest)
    (hproto : f.buf.protocol = MICROBIT_RADIO_PROTOCOL_EVENTBUS) :
    ({ s with
      radio := s.radio.idle
      suppressForwarding := true
      fired := s.fired ++ [(f.arrival, MicroBitRadioEvent.event f.buf)] } : Node B).Sound := by
  have hold := Radio.reachable_sound h.radio
  obtain ⟨-, harrivals, -⟩ := Radio.idle_frame s.radio
  obtain ⟨hfiring, hrest⟩ := Radio.idle_event hp hq
  refine ⟨h.radio.step (.idle s.radio), ?_, fun _ _ _ => rfl, fun q hq => ?_, fun q hq => ?_, ?_, fun g hg => ?_,
    fun k buf hk hbuf => ?_⟩
  · change true = s.radio.idle.callback.isFiring
    rw [hfiring]
    rfl
  · exact absurd (hfiring.symm.trans hq) nofun
  · exact absurd (hfiring.symm.trans hq) nofun
  · change ((s.fired ++ [(f.arrival, _)]).map Prod.fst ++ s.radio.idle.rxQueue.map (·.arrival)).Pairwise (· < ·)
    rw [hrest, List.map_append, List.append_assoc]
    have horder := h.order
    rw [hq] at horder
    exact horder
  · change ∃ buf, s.radio.idle.arrivals[g.1]? = some buf ∧ _
    rw [harrivals]
    rcases List.mem_append.mp hg with hg | hg
    · exact h.read g hg
    · rw [List.mem_singleton.mp hg]
      refine ⟨f.buf, hold.known f ?_, hproto, rfl⟩
      exact List.mem_append_right _ (List.mem_append_right _ (by rw [hq]; exact List.mem_cons_self))
  · change k ∈ (s.fired ++ [(f.arrival, _)]).map Prod.fst ∨ k ∈ s.radio.idle.rxQueue.map _ ++ s.radio.idle.lost.map _
    rw [hrest, List.map_append]
    have hin := h.complete k buf (harrivals ▸ hk) hbuf
    rw [hq] at hin
    rcases hin with hin | hin
    · exact Or.inl (List.mem_append_left _ hin)
    · rcases List.mem_append.mp hin with hin | hin
      · rcases List.mem_cons.mp hin with hin | hin
        · exact Or.inl (List.mem_append_right _ (List.mem_singleton.mpr hin))
        · exact Or.inr (List.mem_append_left _ hin)
      · exact Or.inr (List.mem_append_right _ (Radio.idle_lost _ hin))

/-- A turn that does not fire ends the suppression, and leaves the events that were fired. -/
theorem Sound.idle_passes (h : s.Sound) (hcalls : s.calls = []) (hne : ∀ p, s.radio.callback ≠ .event p) :
    ({ s with radio := s.radio.idle, suppressForwarding := false } : Node B).Sound := by
  have hold := Radio.reachable_sound h.radio
  obtain ⟨-, harrivals, -⟩ := Radio.idle_frame s.radio
  obtain ⟨hquiet, hpoint⟩ := Radio.idle_elsewhere hne
  have hleaves := h.idle_leaves hne
  have hsub : s.radio.idle.rxQueue.Sublist s.radio.rxQueue := by
    rcases hleaves with hsame | ⟨f, hq, -⟩
    · rw [hsame]
    · rw [hq]
      exact List.sublist_cons_self _ _
  refine ⟨h.radio.step (.idle s.radio), hquiet.symm, fun c hc => ?_, hpoint, fun p hp => Radio.idle_check hold hp, ?_,
    fun g hg => ?_, fun k buf hk hbuf => ?_⟩
  · change c ∈ s.calls at hc
    rw [hcalls] at hc
    exact absurd hc List.not_mem_nil
  · exact h.order.sublist ((List.Sublist.refl _).append (hsub.map _))
  · change ∃ buf, s.radio.idle.arrivals[g.1]? = some buf ∧ _
    rw [harrivals]
    exact h.read g hg
  · change s.radio.idle.arrivals[k]? = some buf at hk
    rw [harrivals] at hk
    refine (h.complete k buf hk hbuf).imp_right fun hin => ?_
    change k ∈ s.radio.idle.rxQueue.map _ ++ s.radio.idle.lost.map _
    rcases List.mem_append.mp hin with hin | hin
    · refine List.mem_append_left _ ?_
      rcases hleaves with hsame | ⟨f, hq, hother⟩
      · rwa [hsame]
      · rw [hq] at hin
        refine (List.mem_cons.mp hin).resolve_left fun hfront => ?_
        -- the frame that leaves is no event
        have hknown := hold.known f (List.mem_append_right _ (List.mem_append_right _ (by rw [hq]; exact List.mem_cons_self)))
        have hfront : k = f.arrival := hfront
        obtain rfl : buf = f.buf := Option.some.inj (hk.symm.trans (hfront ▸ hknown))
        exact hother hbuf
    · exact List.mem_append_right _ (Radio.idle_lost _ hin)

/-- An idle turn keeps the node sound. -/
theorem Sound.idle (h : s.Sound) (hcalls : s.calls = []) : s.idle.Sound := by
  rcases h.idle_cases with ⟨p, f, rest, hp, hq, hproto, heq⟩ | ⟨hne, heq⟩ <;> rw [heq]
  · exact (h.idle_fires hp hq hproto).fire _ fun _ => rfl
  · exact h.idle_passes hcalls hne

end Node

end CodalMicrobit

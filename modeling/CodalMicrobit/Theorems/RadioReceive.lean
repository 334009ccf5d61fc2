import CodalMicrobit.Radio.Receive

/-!
# What becomes of a received frame

No step changes the order of the frames between the hardware and the user: they move from one queue to the next, or leave.
The pointer test of the idle callback tells rightly whether the frame was taken, although the memory of a frame that was
taken and freed can be given out again before the test: by then another frame is in front.
-/

namespace CodalMicrobit

/-- The queue that dropped the frame was at its limit: four frames for that of the radio, five for that of the datagrams. -/
def Loss.AtLimit : Loss → Prop
  | .rxQueue _ length => length = MICROBIT_RADIO_MAXIMUM_RX_BUFFERS
  | .noMemory _ => False
  | .datagramQueue _ length => length = MICROBIT_RADIO_MAXIMUM_RX_BUFFERS + 1

/-- A queue was at its limit, or there was no memory for the next receive buffer. -/
def Loss.Excused (l : Loss) : Prop := l.AtLimit ∨ l = .noMemory l.arrival

namespace Radio

/-- The frames between the hardware and the user, those the user has included, in the order of their arrival. -/
def ledger (s : Radio) : List HeapFrame := s.delivered ++ s.waiting

/-- Where the callback is, the frame it works on is where its pointers say. -/
def AtPoint (s : Radio) : Prop :=
  match s.callback with
  | .outside | .test => True
  | .datagram p => ∃ f rest, s.rxQueue = f :: rest ∧ f.address = p ∧ f.buf.protocol = MICROBIT_RADIO_PROTOCOL_DATAGRAM
  | .event p => ∃ f rest, s.rxQueue = f :: rest ∧ f.address = p ∧ f.buf.protocol ≠ MICROBIT_RADIO_PROTOCOL_DATAGRAM
  | .queueing p packet => packet.address = p ∧ packet.buf.protocol = MICROBIT_RADIO_PROTOCOL_DATAGRAM
  | .firing p packet => packet.address = p ∧ packet.buf.protocol ≠ MICROBIT_RADIO_PROTOCOL_DATAGRAM
  | .check p =>
    -- not taken; or taken, and whatever has its memory now is not in front and will not come to be
    (∃ f rest, s.rxQueue = f :: rest ∧ f.address = p ∧ f.buf.protocol ≠ MICROBIT_RADIO_PROTOCOL_DATAGRAM) ∨
      s.rxQueue.head?.map (·.address) ≠ some p ∧ (s.rxQueue = [] → s.rxBuf ≠ some p)

/-- What every step keeps. -/
structure Sound (s : Radio) : Prop where
  depth : s.queueDepth = s.rxQueue.length
  depth_le : s.queueDepth ≤ MICROBIT_RADIO_MAXIMUM_RX_BUFFERS
  datagrams_le : s.datagramQueue.length ≤ MICROBIT_RADIO_MAXIMUM_RX_BUFFERS + 1
  live : s.live.Nodup
  order : (s.ledger.map (·.arrival)).Pairwise (· < ·)
  known : ∀ f ∈ s.ledger, s.arrivals[f.arrival]? = some f.buf
  datagrams : ∀ f ∈ s.delivered ++ s.datagramQueue, f.buf.protocol = MICROBIT_RADIO_PROTOCOL_DATAGRAM
  complete : ∀ k buf, s.arrivals[k]? = some buf → buf.protocol = MICROBIT_RADIO_PROTOCOL_DATAGRAM →
    k ∈ s.ledger.map (·.arrival) ∨ k ∈ s.lost.map Loss.arrival
  excused : ∀ l ∈ s.lost, Loss.Excused l
  point : s.AtPoint

variable {s s' : Radio}

/-- A step that takes frames off, if any, and puts none in. -/
theorem Sound.shrink (h : s.Sound) (more : List Loss) (harr : s'.arrivals = s.arrivals)
    (hled : s'.ledger.Sublist s.ledger) (hlive : s'.live.Sublist s.live) (hlost : s'.lost = s.lost ++ more)
    (hmore : ∀ l ∈ more, Loss.Excused l)
    (hgone : ∀ f ∈ s.ledger, f.buf.protocol = MICROBIT_RADIO_PROTOCOL_DATAGRAM →
      f ∈ s'.ledger ∨ f.arrival ∈ more.map Loss.arrival)
    (hdepth : s'.queueDepth = s'.rxQueue.length) (hle : s'.queueDepth ≤ s.queueDepth)
    (hdq : s'.datagramQueue.length ≤ MICROBIT_RADIO_MAXIMUM_RX_BUFFERS + 1)
    (hdatagrams : ∀ f ∈ s'.delivered ++ s'.datagramQueue, f.buf.protocol = MICROBIT_RADIO_PROTOCOL_DATAGRAM)
    (hpoint : s'.AtPoint) : s'.Sound where
  depth := hdepth
  depth_le := hle.trans h.depth_le
  datagrams_le := hdq
  live := h.live.sublist hlive
  order := h.order.sublist (hled.map _)
  known f hf := by
    rw [harr]
    exact h.known f (hled.subset hf)
  datagrams := hdatagrams
  complete k buf hk hbuf := by
    rw [harr] at hk
    rw [hlost, List.map_append, List.mem_append]
    rcases h.complete k buf hk hbuf with hin | hout
    · obtain ⟨f, hf, rfl⟩ := List.mem_map.mp hin
      obtain rfl := Option.some.inj ((h.known f hf).symm.trans hk)
      rcases hgone f hf hbuf with hf' | hf'
      · exact Or.inl (List.mem_map_of_mem hf')
      · exact Or.inr (Or.inr hf')
    · exact Or.inr (Or.inl hout)
  excused l hl := by
    rw [hlost] at hl
    rcases List.mem_append.mp hl with hl | hl
    · exact h.excused l hl
    · exact hmore l hl
  point := hpoint

/-- A step that only moves the callback on, or a frame to the next queue. -/
theorem Sound.keep (h : s.Sound) (harr : s'.arrivals = s.arrivals) (hled : s'.ledger = s.ledger)
    (hlive : s'.live.Sublist s.live) (hlost : s'.lost = s.lost) (hdepth : s'.queueDepth = s'.rxQueue.length)
    (hle : s'.queueDepth ≤ s.queueDepth) (hdq : s'.datagramQueue.length ≤ MICROBIT_RADIO_MAXIMUM_RX_BUFFERS + 1)
    (hdatagrams : ∀ f ∈ s'.delivered ++ s'.datagramQueue, f.buf.protocol = MICROBIT_RADIO_PROTOCOL_DATAGRAM)
    (hpoint : s'.AtPoint) : s'.Sound :=
  h.shrink [] harr (by rw [hled]) hlive (by rw [hlost, List.append_nil]) (by simp)
    (fun f hf _ => Or.inl (by rwa [hled])) hdepth hle hdq hdatagrams hpoint

/-- What is in the ledger has arrived. -/
theorem Sound.arrival_lt (h : s.Sound) {f : HeapFrame} (hf : f ∈ s.ledger) : f.arrival < s.arrivals.length := by
  obtain ⟨hlt, -⟩ := List.getElem?_eq_some_iff.mp (h.known f hf)
  exact hlt

/-- A frame arrives: it goes behind the others, or it is recorded as lost. -/
theorem Sound.arrive (h : s.Sound) (buf : FrameBuffer) (new : List HeapFrame) (more : List Loss)
    (harr : s'.arrivals = s.arrivals ++ [buf]) (hled : s'.ledger = s.ledger ++ new) (hlost : s'.lost = s.lost ++ more)
    (hnew : ∀ f ∈ new, f.arrival = s.arrivals.length ∧ f.buf = buf) (hone : new.length ≤ 1)
    (hmore : ∀ l ∈ more, Loss.Excused l)
    (hhere : s.arrivals.length ∈ new.map (·.arrival) ∨ s.arrivals.length ∈ more.map Loss.arrival)
    (hlive : s'.live.Nodup) (hdepth : s'.queueDepth = s'.rxQueue.length)
    (hle : s'.queueDepth ≤ MICROBIT_RADIO_MAXIMUM_RX_BUFFERS) (hdq : s'.datagramQueue = s.datagramQueue)
    (hdel : s'.delivered = s.delivered) (hpoint : s'.AtPoint) : s'.Sound where
  depth := hdepth
  depth_le := hle
  datagrams_le := by
    rw [hdq]
    exact h.datagrams_le
  live := hlive
  order := by
    rw [hled, List.map_append, List.pairwise_append]
    refine ⟨h.order, ?_, fun a ha b hb => ?_⟩
    · match new, hone with
      | [], _ => exact List.Pairwise.nil
      | [f], _ => exact List.pairwise_singleton _ _
    · obtain ⟨f, hf, rfl⟩ := List.mem_map.mp ha
      obtain ⟨g, hg, rfl⟩ := List.mem_map.mp hb
      rw [(hnew g hg).1]
      exact h.arrival_lt hf
  known f hf := by
    rw [hled] at hf
    rw [harr]
    rcases List.mem_append.mp hf with hf | hf
    · rw [List.getElem?_append_left (h.arrival_lt hf)]
      exact h.known f hf
    · rw [(hnew f hf).1, (hnew f hf).2, List.getElem?_concat_length]
  datagrams := by
    rw [hdel, hdq]
    exact h.datagrams
  complete k b hk hb := by
    rw [hled, hlost, List.map_append, List.map_append, List.mem_append, List.mem_append]
    rcases Nat.lt_or_ge k s.arrivals.length with hlt | hge
    · rw [harr, List.getElem?_append_left hlt] at hk
      exact (h.complete k b hk hb).imp Or.inl Or.inl
    · have hk' : k < s'.arrivals.length := (List.getElem?_eq_some_iff.mp hk).1
      rw [harr, List.length_append, List.length_singleton] at hk'
      obtain rfl : k = s.arrivals.length := by omega
      exact hhere.imp Or.inr Or.inr
  excused l hl := by
    rw [hlost] at hl
    rcases List.mem_append.mp hl with hl | hl
    · exact h.excused l hl
    · exact hmore l hl
  point := hpoint

/-! ## The interrupt -/

/-- An arrival behind the queue leaves the callback where it is, with what it knows. -/
theorem AtPoint.append (h : s.AtPoint) {f : HeapFrame} {rxBuf : Nat} (hbuf : s.rxBuf = some rxBuf)
    (hf : f.address = rxBuf) (hq : s'.rxQueue = s.rxQueue ++ [f]) (hc : s'.callback = s.callback) : s'.AtPoint := by
  unfold AtPoint at h ⊢
  rw [hc, hq]
  cases hcb : s.callback with
  | outside | test => trivial
  | datagram p | event p =>
    simp only [hcb] at h ⊢
    obtain ⟨g, rest, hg, ha, hp⟩ := h
    exact ⟨g, rest ++ [f], by rw [hg]; rfl, ha, hp⟩
  | queueing p packet | firing p packet =>
    simp only [hcb] at h ⊢
    exact h
  | check p =>
    simp only [hcb] at h ⊢
    rcases h with ⟨g, rest, hg, ha, hp⟩ | ⟨hhead, hempty⟩
    · exact Or.inl ⟨g, rest ++ [f], by rw [hg]; rfl, ha, hp⟩
    · refine Or.inr ⟨?_, by simp⟩
      cases hrx : s.rxQueue with
      | nil =>
        have := hempty hrx
        rw [hbuf] at this
        simpa [hf] using this
      | cons g rest => simpa [hrx] using hhead

/-- A frame that is received keeps the radio sound. -/
theorem queueRxBuf_sound (h : s.Sound) (buf : FrameBuffer) (newRxBuf : Option Nat)
    (hnew : ∀ a, newRxBuf = some a → a ∉ s.live) : (s.queueRxBuf buf newRxBuf).Sound := by
  have hdepth := h.depth
  have hle := h.depth_le
  unfold queueRxBuf
  split
  · exact h
  · rename_i rxBuf hbuf
    dsimp only
    split
    · rename_i hfull
      refine h.arrive buf [] [.rxQueue s.arrivals.length s.rxQueue.length] rfl (List.append_nil _).symm rfl (by simp)
        (by simp) ?_ (Or.inr (by simp [Loss.arrival])) h.live h.depth h.depth_le rfl rfl h.point
      intro l hl
      rw [List.mem_singleton.mp hl]
      exact Or.inl (Nat.le_antisymm (by omega) (by omega))
    · rename_i hroom
      split
      · refine h.arrive buf [] [.noMemory s.arrivals.length] rfl (List.append_nil _).symm rfl (by simp)
          (by simp) ?_ (Or.inr (by simp [Loss.arrival])) h.live h.depth h.depth_le rfl rfl h.point
        intro l hl
        rw [List.mem_singleton.mp hl]
        exact Or.inr rfl
      · rename_i new
        have hfresh := hnew new rfl
        refine h.arrive buf [⟨rxBuf, buf, s.arrivals.length⟩] [] rfl ?_ (List.append_nil _).symm (by simp) (by simp)
          (by simp) (Or.inl (by simp)) ?_ (by simp [hdepth]) (by dsimp only; omega) rfl rfl
          (h.point.append hbuf (f := ⟨rxBuf, buf, s.arrivals.length⟩) rfl rfl rfl)
        · simp [ledger, waiting, held]
        · -- the old buffer goes to the end of the queue and a fresh address takes its place
          have hlive : (rxBuf :: s.waiting.map (·.address)).Nodup := by
            have := h.live
            rwa [live, hbuf] at this
          rw [live, hbuf] at hfresh
          have hperm : (s.waiting.map (·.address) ++ [rxBuf]).Perm (rxBuf :: s.waiting.map (·.address)) :=
            List.perm_append_singleton _ _
          have hnd := List.nodup_cons.mpr ⟨fun hin => hfresh (hperm.subset hin), hperm.nodup_iff.mpr hlive⟩
          simpa [live, waiting, held] using hnd

/-! ## The user -/

/-- Taking a datagram keeps the radio sound. -/
theorem datagramRecv_sound (h : s.Sound) : s.datagramRecv.Sound := by
  unfold datagramRecv
  split
  · exact h
  · rename_i p rest hq
    have hlen := h.datagrams_le
    have hdat := h.datagrams
    rw [hq] at hlen hdat
    refine h.keep rfl ?_ ?_ rfl h.depth (Nat.le_refl _) (by simp at hlen ⊢; omega) (by simpa using hdat) h.point
    · simp [ledger, waiting, held, hq]
    · simp [live, waiting, held, hq]

/-! ## The idle callback -/

/-- The callback moves on, with no packet in hand. -/
theorem goto_sound (h : s.Sound) {point : CallbackPoint} (hheld : s.held = [])
    (hnew : ({ s with callback := point } : Radio).held = []) (hat : ({ s with callback := point } : Radio).AtPoint) :
    ({ s with callback := point } : Radio).Sound := by
  refine h.keep rfl ?_ ?_ rfl h.depth (Nat.le_refl _) h.datagrams_le h.datagrams hat
  · simp only [ledger, waiting, hheld, hnew]
  · simp only [live, waiting, hheld, hnew]
    exact List.Sublist.refl _

/-- At the test of the loop, and at the `switch`. -/
theorem test_sound (h : s.Sound) (hc : s.callback = .test) : s.idle.Sound := by
  have hheld : s.held = [] := by simp only [held, hc]
  simp only [idle, hc]
  split
  · exact goto_sound h hheld rfl trivial
  · rename_i f rest hq
    split
    · rename_i hp
      exact goto_sound h hheld rfl ⟨f, rest, hq, rfl, hp⟩
    · rename_i hp
      split
      · exact goto_sound h hheld rfl ⟨f, rest, hq, rfl, hp⟩
      · exact goto_sound h hheld rfl (Or.inl ⟨f, rest, hq, rfl, hp⟩)

/-- `recv` by a handler: the first frame of the queue is then the one in hand. -/
theorem recv_sound (h : s.Sound) {f : HeapFrame} {rest : List HeapFrame} (hq : s.rxQueue = f :: rest)
    (hheld : s.held = []) {point : CallbackPoint}
    (hnew : ({ s with rxQueue := rest, queueDepth := s.queueDepth - 1, callback := point } : Radio).held = [f])
    (hat : ({ s with rxQueue := rest, queueDepth := s.queueDepth - 1, callback := point } : Radio).AtPoint) :
    ({ s with rxQueue := rest, queueDepth := s.queueDepth - 1, callback := point } : Radio).Sound := by
  have hdepth := h.depth
  rw [hq, List.length_cons] at hdepth
  refine h.keep rfl ?_ ?_ rfl (by simp [hdepth]) (Nat.sub_le _ _) h.datagrams_le h.datagrams hat
  · simp only [ledger, waiting, hnew, hheld, hq]
    simp
  · simp only [live, waiting, hnew, hheld, hq]
    simp

/-- The address of the packet in hand is in use nowhere else. -/
theorem held_address (h : s.Sound) {f : HeapFrame} (hheld : s.held = [f]) :
    s.rxQueue.head?.map (·.address) ≠ some f.address ∧ s.rxBuf ≠ some f.address := by
  have hlive := h.live
  simp only [live, waiting, hheld, List.map_append, List.map_cons, List.map_nil] at hlive
  constructor
  · intro hhead
    cases hq : s.rxQueue with
    | nil => simp [hq] at hhead
    | cons g rest =>
      simp only [hq, List.head?_cons, Option.map_some, Option.some.injEq] at hhead
      simp [hq, hhead, List.nodup_append] at hlive
  · intro hbuf
    simp [hbuf] at hlive

/-- The datagram service puts the packet behind the others, or drops it when it has five. -/
theorem queueing_sound (h : s.Sound) {p : Nat} {f : HeapFrame} (hc : s.callback = .queueing p f) : s.idle.Sound := by
  have hheld : s.held = [f] := by simp only [held, hc]
  obtain ⟨hhead, hbuf⟩ := held_address h hheld
  obtain ⟨rfl, hp⟩ : f.address = p ∧ f.buf.protocol = MICROBIT_RADIO_PROTOCOL_DATAGRAM := by
    simpa only [AtPoint, hc] using h.point
  have hle := h.datagrams_le
  simp only [idle, hc, datagramReceived]
  split
  · rename_i hfull
    refine h.shrink [.datagramQueue f.arrival s.datagramQueue.length] rfl ?_ ?_ rfl ?_ ?_ h.depth (Nat.le_refl _) hle
      h.datagrams (Or.inr ⟨hhead, fun _ => hbuf⟩)
    · simp only [ledger, waiting, hheld]
      simp [held]
    · simp only [live, waiting, hheld]
      simp [held]
    · intro l hl
      rw [List.mem_singleton.mp hl]
      unfold MICROBIT_RADIO_MAXIMUM_RX_BUFFERS at hfull hle
      have hlen : s.datagramQueue.length = 5 := by omega
      exact Or.inl hlen
    · intro g hg _
      simp only [ledger, waiting, hheld, List.mem_append, List.mem_singleton] at hg
      simp only [ledger, waiting, held, List.mem_append, List.map_cons, List.map_nil, List.mem_singleton, Loss.arrival]
      rcases hg with hg | (hg | hg) | hg
      · exact Or.inl (Or.inl hg)
      · exact Or.inl (Or.inr (Or.inl (Or.inl hg)))
      · exact Or.inr (by rw [hg])
      · exact Or.inl (Or.inr (Or.inr hg))
  · rename_i hroom
    refine h.keep rfl ?_ ?_ rfl h.depth (Nat.le_refl _) ?_ ?_ (Or.inr ⟨hhead, fun _ => hbuf⟩)
    · simp only [ledger, waiting, hheld]
      simp [held]
    · simp only [live, waiting, hheld]
      simp [held]
    · simp only [List.length_append, List.length_singleton, MICROBIT_RADIO_MAXIMUM_RX_BUFFERS] at hroom ⊢
      omega
    · intro g hg
      have hdat := h.datagrams g
      simp only [List.mem_append, List.mem_singleton] at hg hdat
      rcases hg with hg | hg | hg
      · exact hdat (Or.inl hg)
      · exact hdat (Or.inr hg)
      · rw [hg]
        exact hp

/-- The event service fires the event and frees the packet. -/
theorem firing_sound (h : s.Sound) {p : Nat} {f : HeapFrame} (hc : s.callback = .firing p f) : s.idle.Sound := by
  have hheld : s.held = [f] := by simp only [held, hc]
  obtain ⟨hhead, hbuf⟩ := held_address h hheld
  obtain ⟨rfl, hp⟩ : f.address = p ∧ f.buf.protocol ≠ MICROBIT_RADIO_PROTOCOL_DATAGRAM := by
    simpa only [AtPoint, hc] using h.point
  simp only [idle, hc]
  refine h.shrink [] rfl ?_ ?_ (List.append_nil _).symm (by simp) ?_ h.depth (Nat.le_refl _) h.datagrams_le
    h.datagrams (Or.inr ⟨hhead, fun _ => hbuf⟩)
  · simp only [ledger, waiting, hheld]
    simp [held]
  · simp only [live, waiting, hheld]
    simp [held]
  · intro g hg hdat
    simp only [ledger, waiting, hheld, List.mem_append, List.mem_singleton] at hg
    simp only [ledger, waiting, held, List.mem_append]
    rcases hg with hg | (hg | hg) | hg
    · exact Or.inl (Or.inl hg)
    · exact Or.inl (Or.inr (Or.inl (Or.inl hg)))
    · exact absurd (hg ▸ hdat) hp
    · exact Or.inl (Or.inr (Or.inr hg))

/-- At the pointer test: a frame that is still there is one that no handler takes. -/
theorem check_sound (h : s.Sound) {p : Nat} (hc : s.callback = .check p) : s.idle.Sound := by
  have hheld : s.held = [] := by simp only [held, hc]
  have hpoint : (∃ f rest, s.rxQueue = f :: rest ∧ f.address = p ∧ f.buf.protocol ≠ MICROBIT_RADIO_PROTOCOL_DATAGRAM) ∨
      s.rxQueue.head?.map (·.address) ≠ some p ∧ (s.rxQueue = [] → s.rxBuf ≠ some p) := by
    simpa only [AtPoint, hc] using h.point
  simp only [idle, hc]
  rcases hpoint with ⟨f, rest, hq, rfl, hp⟩ | ⟨hhead, -⟩
  · rw [if_pos (by simp [hq])]
    have hdepth := h.depth
    simp only [recv, hq, List.length_cons] at hdepth ⊢
    refine h.shrink [] rfl ?_ ?_ (List.append_nil _).symm (by simp) ?_ (by simp [hdepth]) (Nat.sub_le _ _)
      h.datagrams_le h.datagrams trivial
    · simp only [ledger, waiting, hheld, hq]
      simp [held]
    · simp only [live, waiting, hheld, hq]
      simp [held]
    · intro g hg hdat
      simp only [ledger, waiting, hheld, hq, List.mem_append, List.mem_cons, List.not_mem_nil, or_false] at hg
      simp only [ledger, waiting, held, List.mem_append]
      rcases hg with hg | hg | hg | hg
      · exact Or.inl (Or.inl hg)
      · exact Or.inl (Or.inr (Or.inl (Or.inl hg)))
      · exact absurd (hg ▸ hdat) hp
      · exact Or.inl (Or.inr (Or.inr hg))
  · rw [if_neg hhead]
    exact goto_sound h hheld rfl trivial

/-- An idle turn keeps the radio sound. -/
theorem idle_sound (h : s.Sound) : s.idle.Sound := by
  have hpoint := h.point
  cases hc : s.callback with
  | outside =>
    simp only [idle, hc]
    exact goto_sound h (by simp only [held, hc]) rfl trivial
  | test => exact test_sound h hc
  | datagram p =>
    simp only [AtPoint, hc] at hpoint
    obtain ⟨f, rest, hq, ha, hp⟩ := hpoint
    simp only [idle, hc, recv, hq]
    exact recv_sound h hq (by simp only [held, hc]) rfl ⟨ha, hp⟩
  | queueing p packet => exact queueing_sound h hc
  | event p =>
    simp only [AtPoint, hc] at hpoint
    obtain ⟨f, rest, hq, ha, hp⟩ := hpoint
    simp only [idle, hc, recv, hq]
    exact recv_sound h hq (by simp only [held, hc]) rfl ⟨ha, hp⟩
  | firing p packet => exact firing_sound h hc
  | check p => exact check_sound h hc

/-! ## Every run -/

/-- Every step keeps the radio sound. -/
theorem step_sound (h : s.Sound) (hstep : Step s s') : s'.Sound := by
  cases hstep with
  | interrupt buf newRxBuf hnew => exact queueRxBuf_sound h buf newRxBuf hnew
  | idle => exact idle_sound h
  | recv => exact datagramRecv_sound h

/-- A radio that was enabled is sound. -/
theorem enable_sound (rxBuf : Nat) : ({ rxBuf := some rxBuf } : Radio).Sound where
  depth := rfl
  depth_le := Nat.zero_le _
  datagrams_le := Nat.zero_le _
  live := List.nodup_singleton rxBuf
  order := List.Pairwise.nil
  known f hf := absurd hf List.not_mem_nil
  datagrams f hf := absurd hf List.not_mem_nil
  complete k buf hk := by simp at hk
  excused l hl := absurd hl List.not_mem_nil
  point := trivial

/-- Every reachable radio is sound. -/
theorem reachable_sound (hs : Reachable s) : s.Sound := by
  induction hs with
  | enable rxBuf => exact enable_sound rxBuf
  | step _ hstep ih => exact step_sound ih hstep

/-- The receive path. In whatever order interrupts, turns of the idle callback and the user's calls come: the depth is the
length of the queue and at most four; the buffer of the hardware is in no queue; the datagrams given to the user are
datagrams that arrived, in the order of their arrival and none twice; and every datagram that arrived was given to the
user, is on its way, or was dropped by a queue at its limit or for want of memory. -/
theorem radio_receive (hs : Reachable s) :
    s.queueDepth = s.rxQueue.length ∧ s.queueDepth ≤ MICROBIT_RADIO_MAXIMUM_RX_BUFFERS ∧
    (∀ a, s.rxBuf = some a → ∀ f ∈ s.datagramQueue ++ s.held ++ s.rxQueue, f.address ≠ a) ∧
    ((s.delivered ++ s.datagramQueue ++ s.held ++ s.rxQueue).map (·.arrival)).Pairwise (· < ·) ∧
    (∀ f ∈ s.delivered, s.arrivals[f.arrival]? = some f.buf ∧ f.buf.protocol = MICROBIT_RADIO_PROTOCOL_DATAGRAM) ∧
    ∀ k buf, s.arrivals[k]? = some buf → buf.protocol = MICROBIT_RADIO_PROTOCOL_DATAGRAM →
      k ∈ (s.delivered ++ s.datagramQueue ++ s.held ++ s.rxQueue).map (·.arrival) ∨
        ∃ l ∈ s.lost, l.arrival = k ∧ (l.AtLimit ∨ l = .noMemory k) := by
  have h := reachable_sound hs
  have hledger : s.delivered ++ s.datagramQueue ++ s.held ++ s.rxQueue = s.ledger := by
    simp only [ledger, waiting, List.append_assoc]
  rw [hledger]
  refine ⟨h.depth, h.depth_le, fun a ha f hf => ?_, h.order, fun f hf => ⟨?_, ?_⟩, fun k buf hk hbuf => ?_⟩
  · have hlive := h.live
    rw [live, ha] at hlive
    rintro rfl
    exact (List.nodup_cons.mp hlive).1 (List.mem_map_of_mem hf)
  · exact h.known f (List.mem_append_left _ hf)
  · exact h.datagrams f (List.mem_append_left _ hf)
  · refine (h.complete k buf hk hbuf).imp_right fun hlost => ?_
    obtain ⟨l, hl, rfl⟩ := List.mem_map.mp hlost
    exact ⟨l, hl, rfl, h.excused l hl⟩

/-- A datagram. -/
def datagramFrame : FrameBuffer := fun k => if k = 3 then MICROBIT_RADIO_PROTOCOL_DATAGRAM else 3

/-- A radio after `enable`. -/
def enabled : Radio := { rxBuf := some 0 }

/-- Another datagram. -/
def secondFrame : FrameBuffer := fun k => if k = 3 then MICROBIT_RADIO_PROTOCOL_DATAGRAM else 4

/-- A datagram arrives, and another one while the idle callback has the first in hand; the callback goes on to its end, and
the user asks for a datagram. -/
def twoDatagrams : Radio :=
  (Nat.iterate idle 7 ((Nat.iterate idle 3 (enabled.queueRxBuf datagramFrame (some 1))).queueRxBuf secondFrame
    (some 2))).datagramRecv

/-- The idle callback goes on. -/
theorem Reachable.idles {s : Radio} (h : Reachable s) (n : Nat) : Reachable (Nat.iterate idle n s) := by
  induction n generalizing s with
  | zero => exact h
  | succ n ih => exact ih (h.step (.idle s))

theorem twoDatagrams_reachable : Reachable twoDatagrams := by
  have hfirst : Reachable (Nat.iterate idle 3 (enabled.queueRxBuf datagramFrame (some 1))) :=
    Reachable.idles (.step (.enable 0) (.interrupt enabled datagramFrame (some 1) fun a ha => by cases ha; decide)) 3
  have hsecond := hfirst.step (.interrupt _ secondFrame (some 2) fun a ha => by cases ha; decide)
  exact (hsecond.idles 7).step (.recv _)

/-- `radio_receive` for two datagrams: the user has the first, the second waits for the user, and nothing is in the radio. -/
theorem radio_receive_two :
    twoDatagrams.delivered.map (·.buf) = [datagramFrame] ∧ twoDatagrams.datagramQueue.map (·.buf) = [secondFrame] ∧
      twoDatagrams.queueDepth = twoDatagrams.rxQueue.length ∧ twoDatagrams.rxBuf = some 2 ∧
      (∀ f ∈ twoDatagrams.datagramQueue ++ twoDatagrams.held ++ twoDatagrams.rxQueue, f.address ≠ 2) ∧
      ∀ f ∈ twoDatagrams.delivered, twoDatagrams.arrivals[f.arrival]? = some f.buf := by
  obtain ⟨hdepth, -, hapart, -, hdelivered, -⟩ := radio_receive twoDatagrams_reachable
  exact ⟨rfl, rfl, hdepth, rfl, hapart 2 rfl, fun f hf => (hdelivered f hf).1⟩

/-- A datagram that arrives when there is no memory for the next buffer is lost, although both queues are empty. -/
theorem lost_without_memory :
    ¬∀ s, Reachable s → ∀ k buf, s.arrivals[k]? = some buf → buf.protocol = MICROBIT_RADIO_PROTOCOL_DATAGRAM →
      k ∈ (s.delivered ++ s.datagramQueue ++ s.held ++ s.rxQueue).map (·.arrival) ∨
        ∃ l ∈ s.lost, l.arrival = k ∧ l.AtLimit := by
  intro h
  rcases h _ (.step (.enable 0) (.interrupt enabled datagramFrame none nofun)) 0 datagramFrame rfl rfl with
    hin | ⟨l, hl, -, hlim⟩
  · exact absurd hin List.not_mem_nil
  · rw [List.mem_singleton.mp hl] at hlim
    exact hlim

end Radio

end CodalMicrobit

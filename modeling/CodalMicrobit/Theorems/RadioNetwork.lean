import CodalMicrobit.Bluetooth.EventService
import CodalMicrobit.Lemmas.RadioNode
import CodalMicrobit.Lib.Digits

/-!
# Events and datagrams between micro:bits

In whatever order the micro:bits of a network do things and frames are lost: what one of them fires or gives to its user was
raised or sent by another one, and comes in the order of sending and once for each time it was sent. No event that came over
the radio goes back on the air.
-/

namespace CodalMicrobit

open Broadcast Nor

variable {ι : Type} {B : MessageBus}

/-! ## Frames of the network -/

/-- The frame of a transmission is what its cause says. -/
def Sent.Carries (raised : List (Raise ι B)) (t : Sent ι) (f : FrameBuffer) : Prop :=
  match t.cause with
  | .event none => False
  | .event (some r) =>
    ∃ x, raised[r]? = some x ∧ x.node = t.sender ∧ ∃ stack padding, f = MicroBitRadioEvent.frame stack x.event padding
  | .datagram data => data.length ≤ 32 ∧ ∃ stack, f = MicroBitRadioDatagram.frame stack data
  | .other =>
    3 ≤ f.length ∧ f.protocol ≠ MICROBIT_RADIO_PROTOCOL_DATAGRAM ∧ f.protocol ≠ MICROBIT_RADIO_PROTOCOL_EVENTBUS

/-- A transmission of a frame that is what its cause says, which the sender does not hear itself. -/
def Sent.Genuine (raised : List (Raise ι B)) (t : Sent ι) : Prop :=
  t.audience t.sender = false ∧ ∃ f, t.air = MicroBitRadio.transmit f ∧ t.Carries raised f

section

variable {raised : List (Raise ι B)} {t : Sent ι}

theorem Sent.Genuine.append (h : t.Genuine raised) (more : List (Raise ι B)) : t.Genuine (raised ++ more) := by
  obtain ⟨hself, f, hair, hf⟩ := h
  refine ⟨hself, f, hair, ?_⟩
  unfold Sent.Carries at hf ⊢
  split at hf
  · exact hf
  · obtain ⟨x, hx, hrest⟩ := hf
    exact ⟨x, by rw [List.getElem?_append_left (List.getElem?_eq_some_iff.mp hx).1]; exact hx, hrest⟩
  · exact hf
  · exact hf

/-- The receiver tells the protocol of a frame as the sender wrote it. -/
theorem Sent.Carries.protocol (hB : B.Lawful) {f : FrameBuffer} (h : t.Carries raised f) (old : FrameBuffer) :
    (MicroBitRadio.receive old (MicroBitRadio.transmit f)).protocol = f.protocol := by
  refine MicroBitRadio.receive_transmit old f ?_ (by decide)
  unfold Sent.Carries at h
  split at h
  · exact h.elim
  · obtain ⟨x, -, -, stack, padding, rfl⟩ := h
    rw [MicroBitRadioEvent.frame_length hB]
    omega
  · obtain ⟨hlen, stack, rfl⟩ := h
    rw [MicroBitRadioDatagram.frame_length stack (by omega)]
    omega
  · exact h.1

/-- A genuine frame that is received as an event carries one that its sender raised. -/
theorem Sent.Genuine.of_event (hB : B.Lawful) (h : t.Genuine raised) {old : FrameBuffer}
    (hproto : (MicroBitRadio.receive old t.air).protocol = MICROBIT_RADIO_PROTOCOL_EVENTBUS) :
    ∃ r x, t.cause = .event (some r) ∧ raised[r]? = some x ∧ x.node = t.sender ∧
      MicroBitRadioEvent.event (MicroBitRadio.receive old t.air) = x.event := by
  obtain ⟨-, f, hair, hf⟩ := h
  rw [hair] at hproto ⊢
  rw [hf.protocol hB] at hproto
  unfold Sent.Carries at hf
  split at hf
  · exact hf.elim
  · rename_i r hcause
    obtain ⟨x, hx, hnode, stack, padding, rfl⟩ := hf
    exact ⟨r, x, hcause, hx, hnode, MicroBitRadioEvent.event_receive hB old stack x.event padding⟩
  · obtain ⟨-, stack, rfl⟩ := hf
    rw [MicroBitRadioDatagram.frame_protocol] at hproto
    exact absurd hproto (by decide)
  · exact absurd hproto hf.2.2

/-- A frame that was sent for an event is received as that event. -/
theorem Sent.Genuine.event_received (hB : B.Lawful) (h : t.Genuine raised) {r : Nat} {x : Raise ι B} (hcause : t.cause = .event (some r))
    (hx : raised[r]? = some x) (old : FrameBuffer) :
    (MicroBitRadio.receive old t.air).protocol = MICROBIT_RADIO_PROTOCOL_EVENTBUS ∧
      MicroBitRadioEvent.event (MicroBitRadio.receive old t.air) = x.event := by
  obtain ⟨-, f, hair, hf⟩ := h
  have hproto := hf.protocol hB old
  rw [Sent.Carries, hcause] at hf
  obtain ⟨y, hy, -, stack, padding, rfl⟩ := hf
  obtain rfl := Option.some.inj (hx.symm.trans hy)
  rw [hair]
  exact ⟨hproto.trans (MicroBitRadioEvent.frame_protocol stack x.event padding),
    MicroBitRadioEvent.event_receive hB old stack x.event padding⟩

/-- A genuine frame that is received as a datagram is one that was sent as a datagram. -/
theorem Sent.Genuine.of_datagram (hB : B.Lawful) (h : t.Genuine raised) {old : FrameBuffer}
    (hproto : (MicroBitRadio.receive old t.air).protocol = MICROBIT_RADIO_PROTOCOL_DATAGRAM) :
    ∃ data stack, t.cause = .datagram data ∧ t.air = MicroBitRadio.transmit (MicroBitRadioDatagram.frame stack data) ∧
      data.length ≤ 32 := by
  obtain ⟨-, f, hair, hf⟩ := h
  rw [hair] at hproto
  rw [hf.protocol hB] at hproto
  unfold Sent.Carries at hf
  split at hf
  · exact hf.elim
  · obtain ⟨x, -, -, stack, padding, rfl⟩ := hf
    rw [MicroBitRadioEvent.frame_protocol] at hproto
    exact absurd hproto (by decide)
  · rename_i data hcause
    obtain ⟨hlen, stack, rfl⟩ := hf
    exact ⟨data, stack, hcause, hair, hlen⟩
  · exact absurd hproto hf.2.1

end

namespace Network

/-! ## What every step keeps -/

/-- The number of frames that calls of `eventReceived` for a raise have sent. -/
def sentFor (net : Network ι B) (r : Nat) : Nat := net.medium.sent.countP fun t => t.cause = .event (some r)

/-- What holds of a network at any time. -/
structure Sound (net : Network ι B) : Prop where
  nodes : ∀ i, (net.nodes i).Sound
  medium : net.medium.Ordered fun j t => t.audience j = true
  arrivals : ∀ i, List.Forall₂ (fun k buf => ∃ t, net.medium.sent[k]? = some t ∧ t.audience i = true ∧
    ∃ old, buf = MicroBitRadio.receive old t.air) (net.medium.taken i) (net.nodes i).radio.arrivals
  genuine : ∀ t ∈ net.medium.sent, t.Genuine net.raised
  calls : ∀ i, ∀ c ∈ (net.nodes i).calls, ∀ r, c.raise = some r →
    ∃ x, net.raised[r]? = some x ∧ x.node = i ∧ x.event = c.event
  once : ∀ r x, net.raised[r]? = some x → net.sentFor r + (net.nodes x.node).callsFor r ≤ x.registered

variable {net net' : Network ι B}

/-- Nothing belongs to a raise that has not been. -/
theorem Sound.fresh (h : net.Sound) : net.sentFor net.raised.length = 0 ∧ ∀ i, (net.nodes i).callsFor net.raised.length = 0 := by
  have hnone : net.raised[net.raised.length]? = none := List.getElem?_eq_none (Nat.le_refl _)
  refine ⟨List.countP_eq_zero.mpr fun t ht hcause => ?_, fun i => List.countP_eq_zero.mpr fun c hc hraise => ?_⟩
  · obtain ⟨-, f, -, hf⟩ := h.genuine t ht
    rw [Sent.Carries, of_decide_eq_true hcause] at hf
    obtain ⟨x, hx, -⟩ := hf
    rw [hnone] at hx
    cases hx
  · obtain ⟨x, hx, -⟩ := h.calls i c hc _ (of_decide_eq_true hraise)
    rw [hnone] at hx
    cases hx

/-- What a micro:bit makes of its arrivals, one after the other, comes from frames that others sent, in the order of sending and
from each once at most. -/
theorem Sound.heard (h : net.Sound) (j : ι) {β : Type} {fs : List β} {arrival : β → Nat} {R : β → Sent ι → Prop}
    (horder : (fs.map arrival).Pairwise (· < ·))
    (hread : ∀ f ∈ fs, ∃ buf, (net.nodes j).radio.arrivals[arrival f]? = some buf ∧
      ∀ t old, t.Genuine net.raised → buf = MicroBitRadio.receive old t.air → R f t) :
    List.SublistForall₂ (fun f t => t.audience j = true ∧ t.sender ≠ j ∧ R f t) fs net.medium.sent := by
  have hnumbers : List.SublistForall₂
      (fun f k => ∃ t, net.medium.sent[k]? = some t ∧ t.audience j = true ∧ t.sender ≠ j ∧ R f t) fs (net.medium.taken j) := by
    refine sublistForall₂_of_places horder (List.forall₂_map_right_iff.mpr (List.forall₂_same.mpr fun f hf => ?_))
    obtain ⟨buf, hbuf, hR⟩ := hread f hf
    obtain ⟨hlt, hbuf⟩ := List.getElem?_eq_some_iff.mp hbuf
    obtain ⟨hlen, hget⟩ := List.forall₂_iff_get.mp (h.arrivals j)
    obtain ⟨t, hk, haudience, old, hold⟩ := hget (arrival f) (hlen ▸ hlt) hlt
    have hgenuine : t.Genuine net.raised := h.genuine t (List.mem_of_getElem? hk)
    refine ⟨_, List.getElem?_eq_getElem (hlen ▸ hlt), t, hk, haudience, fun hself => ?_, hR t old hgenuine (hbuf.symm.trans hold)⟩
    rw [← hself, hgenuine.1] at haudience
    exact Bool.false_ne_true haudience
  obtain ⟨ks, hall, hsub⟩ := List.sublistForall₂_iff.mp hnumbers
  exact sublistForall₂_of_places ((h.medium.order j).sublist (hsub.trans (List.sublist_append_left _ _))) hall

variable [DecidableEq ι]

theorem on_self (net : Network ι B) (i : ι) (s : Node B) : (net.on i s).nodes i = s := by
  change Function.update net.nodes i s i = s
  rw [Function.update_self]

/-- Every other node keeps its state. -/
theorem on_other (net : Network ι B) {i j : ι} (s : Node B) (h : j ≠ i) : (net.on i s).nodes j = net.nodes j := by
  change Function.update net.nodes i s j = net.nodes j
  rw [Function.update_of_ne h]

/-- What happens on one micro:bit: what it takes from its receiver arrives, and no call for a raise is added. -/
theorem Sound.update (h : net.Sound) {i : ι} {s : Node B} {medium : Medium ι (Sent ι)} (hs : s.Sound)
    (hmedium : medium.Ordered fun j t => t.audience j = true) (hsent : medium.sent = net.medium.sent)
    (htaken : ∀ j, j ≠ i → medium.taken j = net.medium.taken j)
    (harr : List.Forall₂ (fun k buf => ∃ t, net.medium.sent[k]? = some t ∧ t.audience i = true ∧
      ∃ old, buf = MicroBitRadio.receive old t.air) (medium.taken i) s.radio.arrivals)
    (hcalls : (s.calls.filter (·.raise.isSome)).Sublist (net.nodes i).calls) : ({ net.on i s with medium } : Network ι B).Sound where
  nodes j := by
    by_cases hj : j = i
    · rw [hj]
      exact (on_self net i s).symm ▸ hs
    · exact (on_other net s hj).symm ▸ h.nodes j
  medium := hmedium
  arrivals j := by
    change List.Forall₂ (fun k buf => ∃ t, medium.sent[k]? = some t ∧ _) (medium.taken j) ((net.on i s).nodes j).radio.arrivals
    rw [hsent]
    by_cases hj : j = i
    · rw [hj, on_self]
      exact harr
    · rw [htaken j hj, on_other net s hj]
      exact h.arrivals j
  genuine t ht := h.genuine t (hsent ▸ ht)
  calls j c hc r hr := by
    change c ∈ ((net.on i s).nodes j).calls at hc
    by_cases hj : j = i
    · rw [hj, on_self] at hc
      rw [hj]
      exact h.calls i c (hcalls.subset (List.mem_filter.mpr ⟨hc, by rw [hr]; rfl⟩)) r hr
    · rw [on_other net s hj] at hc
      exact h.calls j c hc r hr
  once r x hx := by
    change medium.sent.countP _ + ((net.on i s).nodes x.node).callsFor r ≤ x.registered
    rw [hsent]
    refine Nat.le_trans (Nat.add_le_add_left ?_ _) (h.once r x hx)
    by_cases hj : x.node = i
    · rw [hj, on_self]
      have hfilter : s.callsFor r = (s.calls.filter (·.raise.isSome)).countP fun c => c.raise = some r := by
        unfold Node.callsFor
        rw [List.countP_filter]
        refine List.countP_congr fun c _ => ?_
        simp +contextual
      rw [hfilter]
      exact hcalls.countP_le
    · rw [on_other net s hj]

/-- A step of one node that receives nothing keeps the network sound. -/
theorem Sound.on (h : net.Sound) {i : ι} {s : Node B} (hs : s.Sound) (harr : s.radio.arrivals = (net.nodes i).radio.arrivals)
    (hcalls : (s.calls.filter (·.raise.isSome)).Sublist (net.nodes i).calls) : (net.on i s).Sound :=
  h.update hs h.medium rfl (fun _ _ => rfl) (by rw [harr]; exact h.arrivals i) hcalls

/-- Raising an event keeps the network sound. -/
theorem Sound.raise (h : net.Sound) (i : ι) (e : B.Event) : (net.raise i e).Sound := by
  have hkeep : ∀ {r : Nat} {x : Raise ι B}, net.raised[r]? = some x → (net.raise i e).raised[r]? = some x := fun {r x} hx => by
    refine Eq.trans (List.getElem?_append_left ?_) hx
    exact (List.getElem?_eq_some_iff.mp hx).1
  have hother : ∀ j, j ≠ i → (net.raise i e).nodes j = net.nodes j := fun j hj => on_other net _ hj
  have hself : (net.raise i e).nodes i = (net.nodes i).fire e (some net.raised.length) := on_self net i _
  refine ⟨fun j => ?_, h.medium, fun j => ?_, fun t ht => (h.genuine t ht).append _, fun j c hc r hr => ?_, fun r x hx => ?_⟩
  · by_cases hj : j = i
    · rw [hj, hself]
      exact (h.nodes i).fire e nofun
    · rw [hother j hj]
      exact h.nodes j
  · have harr : ((net.raise i e).nodes j).radio = (net.nodes j).radio := by
      by_cases hj : j = i
      · rw [hj, hself]
        rfl
      · rw [hother j hj]
    rw [harr]
    exact h.arrivals j
  · have hold : c ∈ (net.nodes j).calls → ∃ x, (net.raise i e).raised[r]? = some x ∧ x.node = j ∧ x.event = c.event :=
      fun hc => by
        obtain ⟨x, hx, hrest⟩ := h.calls j c hc r hr
        exact ⟨x, hkeep hx, hrest⟩
    by_cases hj : j = i
    · rw [hj, hself] at hc
      rcases List.mem_append.mp hc with hc | hc
      · obtain rfl := List.eq_of_mem_replicate hc
        obtain rfl := Option.some.inj hr
        exact ⟨_, List.getElem?_concat_length, hj.symm, rfl⟩
      · exact hold (hj ▸ hc)
    · rw [hother j hj] at hc
      exact hold hc
  · change net.sentFor r + _ ≤ _
    rcases Nat.lt_or_ge r net.raised.length with hr | hr
    · replace hx : net.raised[r]? = some x := (List.getElem?_append_left hr).symm.trans hx
      have hsame : ((net.raise i e).nodes x.node).callsFor r = (net.nodes x.node).callsFor r := by
        by_cases hj : x.node = i
        · rw [hj, hself, Node.callsFor_fire_other _ _ fun heq => hr.ne' (Option.some.inj heq)]
        · rw [hother _ hj]
      rw [hsame]
      exact h.once r x hx
    · obtain ⟨hsent, hcalls⟩ := h.fresh
      have hlt : r < net.raised.length + 1 := by
        have := (List.getElem?_eq_some_iff.mp hx).1
        rwa [Network.raise, List.length_append] at this
      obtain rfl : r = net.raised.length := by omega
      obtain rfl := Option.some.inj (List.getElem?_concat_length.symm.trans hx)
      rw [hself, Node.callsFor_fire_self, hsent, hcalls, Nat.zero_add, Nat.add_zero]

/-- A frame goes out: it is what its cause says, and a call for a raise has become a frame. -/
theorem Sound.broadcast (h : net.Sound) {i : ι} {cause : Cause} {air : Option Transmission} (hears : ι → Bool)
    (hcarries : ∀ a, air = some a →
      ∃ f, a = MicroBitRadio.transmit f ∧ (⟨i, cause, a, net.audience i⟩ : Sent ι).Carries net.raised f)
    (honce : ∀ r x, cause = .event (some r) → net.raised[r]? = some x →
      net.sentFor r + (net.nodes x.node).callsFor r < x.registered) : (net.broadcast i cause air hears).Sound := by
  unfold Network.broadcast
  cases air with
  | none => exact h
  | some air =>
    have hlt : ∀ {k : Nat} {t : Sent ι}, net.medium.sent[k]? = some t → k < net.medium.sent.length := fun hk =>
      (List.getElem?_eq_some_iff.mp hk).1
    refine ⟨h.nodes, (h.medium.drop i).send fun j hj => (Bool.and_eq_true_iff.mp hj).1, fun j => ?_, fun t ht => ?_, h.calls,
      fun r x hx => ?_⟩
    · refine (h.arrivals j).imp fun k buf ⟨t, hk, hrest⟩ => ⟨t, ?_, hrest⟩
      exact (List.getElem?_append_left (hlt hk)).trans hk
    · rcases List.mem_append.mp ht with ht | ht
      · exact h.genuine t ht
      · rw [List.mem_singleton.mp ht]
        exact ⟨by simp [Network.audience], hcarries air rfl⟩
    · change List.countP _ (net.medium.sent ++ [_]) + _ ≤ _
      rw [List.countP_append, List.countP_singleton]
      by_cases hcause : cause = .event (some r)
      · have := honce r x hcause hx
        rw [if_pos (decide_eq_true hcause)]
        change net.sentFor r + 1 + (net.nodes x.node).callsFor r ≤ x.registered
        omega
      · rw [if_neg fun hd => hcause (of_decide_eq_true hd), Nat.add_zero]
        exact h.once r x hx

/-- A call of one node keeps the network sound. -/
theorem Sound.call (h : net.Sound) (i : ι) (stack : FrameBuffer) (padding : Memory) (hears : ι → Bool) :
    (net.call i stack padding hears).Sound := by
  unfold Network.call
  dsimp only
  split
  · exact h
  · rename_i c calls hc
    have hmem : c ∈ (net.nodes i).calls := by rw [hc]; exact List.mem_cons_self
    have hsub : calls.Sublist (net.nodes i).calls := by rw [hc]; exact List.sublist_cons_self c calls
    have hon : (net.on i { net.nodes i with calls }).Sound :=
      h.on ((h.nodes i).congr rfl rfl rfl fun _ hm => hsub.subset hm) rfl (List.filter_sublist.trans hsub)
    refine hon.broadcast hears (fun a ha => ?_) fun r x hcause hx => ?_
    · unfold MicroBitRadioEvent.eventReceived at ha
      split at ha
      · cases ha
      · rename_i hsup
        obtain ⟨hair, -⟩ := MicroBitRadio.send_eq_some ha
        -- the event did not come over the radio, for then forwarding would be suppressed
        obtain ⟨r, hr⟩ := Option.ne_none_iff_exists'.mp fun hnone => hsup ((h.nodes i).echoes c hmem hnone)
        obtain ⟨x, hx, hnode, hevent⟩ := h.calls i c hmem r hr
        refine ⟨_, hair, ?_⟩
        rw [Sent.Carries, hr]
        exact ⟨x, hx, hnode, stack, padding, by rw [hevent]⟩
    · replace hx : net.raised[r]? = some x := hx
      have hraise : c.raise = some r := Cause.event.inj hcause
      obtain ⟨y, hy, hnode, -⟩ := h.calls i c hmem r hraise
      obtain rfl := Option.some.inj (hx.symm.trans hy)
      have honce := h.once r x hx
      have hcons : (net.nodes i).callsFor r = calls.countP (fun c => c.raise = some r) + 1 := by
        rw [Node.callsFor, hc, List.countP_cons, if_pos (decide_eq_true hraise)]
      rw [hnode, hcons] at honce
      rw [hnode, on_self]
      change net.sentFor r + calls.countP (fun c => c.raise = some r) < x.registered
      omega

/-- A radio interrupt of one node keeps the network sound. -/
theorem Sound.interrupt (h : net.Sound) (i : ι) (old : FrameBuffer) {newRxBuf : Option Nat}
    (hnew : ∀ a, newRxBuf = some a → a ∉ (net.nodes i).radio.live) : (net.interrupt i old newRxBuf).Sound := by
  unfold Network.interrupt
  split
  · exact h
  · rename_i t ht
    obtain ⟨k, hk, hsent⟩ := Option.bind_eq_some_iff.mp ht
    have hline : k ∈ net.medium.line i := List.mem_append_right _ (by rw [hk]; exact List.mem_singleton_self k)
    obtain ⟨t', ht', haudience⟩ := h.medium.heard i k hline
    obtain rfl := Option.some.inj (hsent.symm.trans ht')
    have harrivals := Radio.queueRxBuf_arrivals (Radio.reachable_rxBuf (h.nodes i).radio)
      (MicroBitRadio.receive old t.air) newRxBuf
    refine h.update ((h.nodes i).interrupt _ newRxBuf hnew) (h.medium.take i) rfl (fun j hj => ?_) ?_ List.filter_sublist
    · exact Function.update_of_ne hj _ _
    · change List.Forall₂ _ (Function.update net.medium.taken i _ i) (Radio.queueRxBuf _ _ _).arrivals
      rw [harrivals, Function.update_self, hk]
      exact List.rel_append (h.arrivals i) (.cons ⟨t, hsent, haudience, old, rfl⟩ .nil)

/-- Every frame of another protocol that was sent brings its header along. The driver does not test the length of a frame that
the program gives it. -/
def HeadersWhole (net : Network ι B) : Prop :=
  ∀ t ∈ net.medium.sent, t.cause = .other → MICROBIT_RADIO_HEADER_SIZE - 1 ≤ t.air.length.toNat

/-- A broadcast only adds to what was sent. -/
theorem broadcast_sent (net : Network ι B) (i : ι) (cause : Cause) (air : Option Transmission) (hears : ι → Bool) :
    net.medium.sent <+: (net.broadcast i cause air hears).medium.sent := by
  unfold Network.broadcast
  split
  · exact List.prefix_refl _
  · exact List.prefix_append _ _

/-- What is on the air is not taken back. -/
theorem Step.sent (hstep : Step net net') : net.medium.sent <+: net'.medium.sent := by
  cases hstep with
  | call i stack padding hears =>
    unfold Network.call
    dsimp only
    split
    · exact List.prefix_refl _
    · exact broadcast_sent (net.on i _) ..
  | datagram i stack data hears => exact broadcast_sent ..
  | other i f hears hd he => exact broadcast_sent ..
  | interrupt i old newRxBuf hnew =>
    unfold Network.interrupt
    split
    · exact List.prefix_refl _
    · exact List.prefix_refl _
  | _ => exact List.prefix_refl _

/-- Every step keeps the network sound. -/
theorem step_sound (h : net.Sound) (hw : net'.HeadersWhole) (hstep : Step net net') : net'.Sound := by
  cases hstep with
  | raise i e => exact h.raise i e
  | call i stack padding hears => exact h.call i stack padding hears
  | datagram i stack data hears =>
    refine h.broadcast hears (fun a ha => ?_) nofun
    rcases Nat.lt_or_ge data.length 36 with hlen | hlen
    · rw [MicroBitRadioDatagram.sendData_eq false stack (by omega), MicroBitRadioDatagram.send_frame stack (by omega)] at ha
      split at ha
      · rename_i hle
        exact ⟨_, (Option.some.inj ha).symm, hle, stack, rfl⟩
      · cases ha
    · rw [MicroBitRadioDatagram.sendData_rejected false stack hlen] at ha
      cases ha
  | other i f hears hd he =>
    refine h.broadcast hears (fun a ha => ?_) nofun
    have hair := (MicroBitRadio.send_eq_some ha).1
    have hsent : (⟨i, .other, a, net.audience i⟩ : Sent ι) ∈
        (net.broadcast i .other (MicroBitRadio.send false (some f)).2 hears).medium.sent := by
      rw [ha]
      exact List.mem_append_right _ (List.mem_singleton_self _)
    have hlen := hw _ hsent rfl
    rw [hair] at hlen
    exact ⟨f, hair, hlen, hd, he⟩
  | recv i =>
    refine h.on (h.nodes i).recv ?_ List.filter_sublist
    change (Radio.datagramRecv _).arrivals = _
    unfold Radio.datagramRecv
    split <;> rfl
  | listen i messageBus => exact h.on ((h.nodes i).congr rfl rfl rfl fun _ hm => hm) rfl List.filter_sublist
  | setGroup i group => exact h.on ((h.nodes i).congr rfl rfl rfl fun _ hm => hm) rfl List.filter_sublist
  | setFrequencyBand i band =>
    unfold Node.setFrequencyBand
    rw [if_neg Bool.false_ne_true]
    split
    · exact h.on (h.nodes i) rfl List.filter_sublist
    · exact h.on ((h.nodes i).congr rfl rfl rfl fun _ hm => hm) rfl List.filter_sublist
  | interrupt i old newRxBuf hnew => exact h.interrupt i old hnew
  | lose i => exact ⟨h.nodes, h.medium.drop i, h.arrivals, h.genuine, h.calls, h.once⟩
  | idle i hcalls =>
    refine h.on ((h.nodes i).idle hcalls) ?_ ?_ <;> rcases (h.nodes i).idle_cases with ⟨p, f, rest, -, -, -, heq⟩ | ⟨-, heq⟩ <;>
      rw [heq]
    · exact (Radio.idle_frame _).2.1
    · exact (Radio.idle_frame _).2.1
    · rw [Node.fire_echoes]
      exact List.filter_sublist
    · exact List.filter_sublist

/-- Every reachable network whose frames have whole headers is sound. -/
theorem reachable_sound (h : net.Reachable) (hw : net.HeadersWhole) : net.Sound := by
  induction h with
  | enable rxBuf group band messageBus =>
    refine ⟨fun i => ⟨.enable (rxBuf i), rfl, nofun, nofun, nofun, .nil, nofun, nofun⟩, Medium.ordered_empty, fun i => .nil,
      nofun, nofun, fun r x hx => ?_⟩
    cases hx
  | step _ hstep ih => exact step_sound (ih fun t ht => hw t (hstep.sent.subset ht)) hw hstep

/-! ## Two micro:bits -/

/-- An event as it is on the micro:bit: the time stamp is aligned to its size. -/
structure StampedEvent where
  source : UInt16
  value : UInt16
  timestamp : UInt64
  deriving DecidableEq

namespace StampedEvent

def bytes (e : StampedEvent) (padding : Nor.Memory) : List UInt8 :=
  Digits.bytes 2 e.source.toNat ++ (Digits.bytes 2 e.value.toNat ++ (slice padding 0 4 ++ Digits.bytes 8 e.timestamp.toNat))

def read (t : List UInt8) : StampedEvent where
  source := .ofNat (Digits.ofBytes (t.take 2))
  value := .ofNat (Digits.ofBytes ((t.drop 2).take 2))
  timestamp := .ofNat (Digits.ofBytes (((t.drop 2).drop 2).drop 4))

/-- An event with its stamp takes 16 bytes. -/
theorem bytes_length (e : StampedEvent) (padding : Nor.Memory) : (e.bytes padding).length = 16 := by
  unfold bytes
  simp only [List.length_append, Digits.bytes_length, slice_length]

/-- An event is read back from its bytes. -/
theorem read_bytes (e : StampedEvent) (padding : Nor.Memory) : read (e.bytes padding) = e := by
  obtain ⟨source, value, timestamp⟩ := e
  have hlt : source.toNat < 256 ^ 2 ∧ value.toNat < 256 ^ 2 ∧ timestamp.toNat < 256 ^ 8 :=
    ⟨source.toNat_lt, value.toNat_lt, timestamp.toNat_lt⟩
  unfold read bytes
  rw [List.take_left' (Digits.bytes_length ..), List.drop_left' (Digits.bytes_length ..), List.take_left' (Digits.bytes_length ..),
    List.drop_left' (Digits.bytes_length ..), List.drop_left' (slice_length ..), Digits.ofBytes_bytes, Digits.ofBytes_bytes,
    Digits.ofBytes_bytes, Nat.mod_eq_of_lt hlt.1, Nat.mod_eq_of_lt hlt.2.1, Nat.mod_eq_of_lt hlt.2.2, UInt16.ofNat_toNat,
    UInt16.ofNat_toNat, UInt64.ofNat_toNat]

/-- A registration matches an event. -/
def registered (e : StampedEvent) (l : MicroBitListener) : Bool :=
  (l.id == e.source || l.id == MICROBIT_ID_ANY) && (l.value == e.value || l.value == MICROBIT_EVT_ANY)

end StampedEvent

/-- A message bus that is the list of its registrations. -/
def registrationBus : MessageBus where
  Event := StampedEvent
  Bus := List MicroBitListener
  size := 16
  bytes := StampedEvent.bytes
  read := StampedEvent.read
  matching b e := b.countP e.registered

/-- The bus of registrations obeys the laws asked of a bus. -/
theorem registrationBus_lawful : registrationBus.Lawful where
  size_le := by decide
  bytes_length := StampedEvent.bytes_length
  read_bytes := StampedEvent.read_bytes

/-- Two micro:bits in the same group, each with a registration for all events. -/
def pair : Network Bool registrationBus where
  nodes _ := { radio := { rxBuf := some 0 }, messageBus := [⟨MICROBIT_ID_ANY, MICROBIT_EVT_ANY⟩] }

/-- The event that one of them raises. -/
def stamped : registrationBus.Event := ⟨1027, 1, 5⟩

/-- One raises an event and sends a datagram, and the other hears both. -/
def pairHeard : Network Bool registrationBus :=
  let net := (pair.raise false stamped).call false (fun _ => 0) (fun _ => 0) fun _ => true
  let net := net.interrupt true (fun _ => 0) (some 1)
  let net := net.broadcast false (.datagram [7]) (MicroBitRadioDatagram.sendData false (fun _ => 0) [7]).air fun _ => true
  net.interrupt true (fun _ => 0) (some 2)

/-- The other one's idle callback runs until both are where they belong, but for the call its bus makes in between. -/
def idled (net : Network Bool registrationBus) : Network Bool registrationBus := net.on true (net.nodes true).idle

def pairFired : Network Bool registrationBus :=
  let net := (idled (idled (idled pairHeard))).call true (fun _ => 0) (fun _ => 0) fun _ => true
  let net := idled (idled (idled (idled (idled net))))
  net.on true { net.nodes true with radio := (net.nodes true).radio.datagramRecv }

/-- The network in which the frame was heard is reachable. -/
theorem pairHeard_reachable : pairHeard.Reachable := by
  unfold pairHeard
  refine .step (.step (.step (.step (.step ?_ (.raise pair false stamped)) (.call _ _ _ _ _)) (.interrupt _ _ _ _ ?_))
    (.datagram _ _ _ _ _)) (.interrupt _ _ _ _ ?_)
  · exact .enable (fun _ => 0) (fun _ => 0) (fun _ => 7) fun _ => pair.nodes true |>.messageBus
  · intro a ha
    obtain rfl := Option.some.inj ha
    decide
  · intro a ha
    obtain rfl := Option.some.inj ha
    decide

/-- The network in which the event was fired is reachable. -/
theorem pairFired_reachable : pairFired.Reachable := by
  unfold pairFired
  refine .step (.step (.step (.step (.step (.step (.step (.step (.step (.step pairHeard_reachable (.idle _ _ ?_)) (.idle _ _ ?_))
    (.idle _ _ ?_)) (.call _ _ _ _ _)) (.idle _ _ ?_)) (.idle _ _ ?_)) (.idle _ _ ?_)) (.idle _ _ ?_)) (.idle _ _ ?_)) (.recv _ _)
  all_goals rfl

/-- Neither of them sends frames of another protocol. -/
theorem pairFired_headers : pairFired.HeadersWhole := by
  have hcauses : pairFired.medium.sent.map Sent.cause = [.event (some 0), .datagram [7]] := rfl
  intro t ht hother
  have hcause := List.mem_map_of_mem (f := Sent.cause) ht
  rw [hcauses, hother] at hcause
  exact absurd hcause (by decide)

/-! ## The two services -/

/-- The event a micro:bit fired is one that another one raised, and this is a transmission of it that it could hear. -/
def FiredFrom (net : Network ι B) (j : ι) (f : Nat × B.Event) (t : Sent ι) : Prop :=
  t.audience j = true ∧ t.sender ≠ j ∧
    ∃ r x, t.cause = .event (some r) ∧ net.raised[r]? = some x ∧ x.node = t.sender ∧ f.2 = x.event

/-- The datagram given to the user of a micro:bit is one that another one sent, in a transmission that it could hear; one of at
most 29 bytes is read as it was sent. -/
def GivenFrom (j : ι) (f : HeapFrame) (t : Sent ι) : Prop :=
  t.audience j = true ∧ t.sender ≠ j ∧ ∃ data, t.cause = .datagram data ∧
    (data.length ≤ 29 → ∀ len : Int, data.length ≤ len → MicroBitRadioDatagram.recv f.buf len = ((data.length : Int), data))

/-- Events. What a micro:bit fires from the radio, others have raised: the sequence of its events is a part of the sequence of
the transmissions in its group and on its band, and each is the event that the sender raised, with its time stamp. A raise is
transmitted at most once for each registration that matched it, and what came over the radio never. -/
theorem events_cross (hB : B.Lawful) (h : net.Reachable) (hw : net.HeadersWhole) :
    (∀ j, List.SublistForall₂ (net.FiredFrom j) (net.nodes j).fired net.medium.sent) ∧
    (∀ r x, net.raised[r]? = some x → net.sentFor r ≤ x.registered) ∧
    ∀ t ∈ net.medium.sent, t.cause ≠ .event none := by
  have hsound := reachable_sound h hw
  refine ⟨fun j => ?_, fun r x hx => (Nat.le_add_right _ _).trans (hsound.once r x hx), fun t ht hcause => ?_⟩
  · have horder := List.pairwise_append.mp (hsound.nodes j).order
    refine hsound.heard j horder.1 fun f hf => ?_
    obtain ⟨buf, hbuf, hproto, hread⟩ := (hsound.nodes j).read f hf
    refine ⟨buf, hbuf, fun t old hgenuine hold => ?_⟩
    obtain ⟨r, x, hcause, hx, hnode, hevent⟩ := hgenuine.of_event hB (hold ▸ hproto)
    exact ⟨r, x, hcause, hx, hnode, (hold ▸ hread).trans hevent⟩
  · obtain ⟨-, f, -, hf⟩ := hsound.genuine t ht
    rwa [Sent.Carries, hcause] at hf

/-- Between two nodes the event fires once. -/
theorem events_cross_pair : List.SublistForall₂ (pairFired.FiredFrom true) [(0, stamped)] pairFired.medium.sent ∧
    pairFired.sentFor 0 ≤ 1 := by
  obtain ⟨hfired, honce, -⟩ := events_cross registrationBus_lawful pairFired_reachable pairFired_headers
  have hone : (pairFired.nodes true).fired = [(0, stamped)] := rfl
  exact ⟨hone ▸ hfired true, honce 0 ⟨false, stamped, 1⟩ rfl⟩

/-- Datagrams. What the user of a micro:bit is given, others have sent, in the order of sending and from each transmission once at
most. -/
theorem datagrams_cross (hB : B.Lawful) (h : net.Reachable) (hw : net.HeadersWhole) (j : ι) :
    List.SublistForall₂ (GivenFrom j) (net.nodes j).radio.delivered net.medium.sent := by
  have hsound := reachable_sound h hw
  have hradio := Radio.reachable_sound (hsound.nodes j).radio
  have horder : ((net.nodes j).radio.delivered.map (·.arrival)).Pairwise (· < ·) :=
    hradio.order.sublist ((List.sublist_append_left _ _).map _)
  refine hsound.heard j horder fun f hf => ⟨f.buf, hradio.known f (List.mem_append_left _ hf), fun t old hgenuine hold => ?_⟩
  have hproto := hradio.datagrams f (List.mem_append_left _ hf)
  obtain ⟨data, stack, hcause, hair, -⟩ := hgenuine.of_datagram hB (hold ▸ hproto)
  refine ⟨data, hcause, fun hlen len hle => ?_⟩
  rw [hold, hair, MicroBitRadioDatagram.recv_receive old stack (by omega) hle, Prod.mk.injEq, Nor.slice_eq_iff]
  refine ⟨rfl, rfl, fun k hk => ?_⟩
  rw [MicroBitRadioDatagram.receive_payload old stack (by omega) hk, if_pos (by omega)]

/-- Between two nodes the datagram arrives. -/
theorem datagrams_cross_pair : (pairFired.nodes true).radio.delivered.map (fun f => MicroBitRadioDatagram.recv f.buf 32) = [(1, [7])] ∧
    List.SublistForall₂ (GivenFrom true) (pairFired.nodes true).radio.delivered pairFired.medium.sent :=
  ⟨rfl, datagrams_cross registrationBus_lawful pairFired_reachable pairFired_headers true⟩

/-- No event is lost on the way from the receiver to the bus but by a full queue or for want of memory: a transmission that came
whole is fired as it was raised, or is still in the queue, or was dropped because the queue held four frames or there was no memory
for the next buffer. -/
theorem events_accounted (hB : B.Lawful) (h : net.Reachable) (hw : net.HeadersWhole) (j : ι) {a k r : Nat} {t : Sent ι} {x : Raise ι B}
    (ha : (net.medium.taken j)[a]? = some k) (hk : net.medium.sent[k]? = some t) (hcause : t.cause = .event (some r))
    (hx : net.raised[r]? = some x) :
    (a, x.event) ∈ (net.nodes j).fired ∨ (∃ f ∈ (net.nodes j).radio.rxQueue, f.arrival = a) ∨
      .rxQueue a MICROBIT_RADIO_MAXIMUM_RX_BUFFERS ∈ (net.nodes j).radio.lost ∨ .noMemory a ∈ (net.nodes j).radio.lost := by
  have hsound := reachable_sound h hw
  have hnode := hsound.nodes j
  obtain ⟨hlt, hget⟩ := List.getElem?_eq_some_iff.mp ha
  obtain ⟨hlen, harrived⟩ := List.forall₂_iff_get.mp (hsound.arrivals j)
  obtain ⟨t', hk', -, old, hbuf⟩ := harrived a hlt (hlen ▸ hlt)
  obtain rfl : t = t' := Option.some.inj (hk.symm.trans ((congrArg (net.medium.sent[·]?) hget.symm).trans hk'))
  have hread := (hsound.genuine t (List.mem_of_getElem? hk)).event_received hB hcause hx old
  rw [← hbuf] at hread
  have harrival := List.getElem?_eq_getElem (hlen ▸ hlt)
  rcases hnode.complete a _ harrival hread.1 with hin | hin
  · obtain ⟨⟨a', e⟩, hf, rfl⟩ := List.mem_map.mp hin
    obtain ⟨buf, hfirst, -, he⟩ := hnode.read _ hf
    obtain rfl := Option.some.inj (harrival.symm.trans hfirst)
    rw [← hread.2]
    exact Or.inl (he ▸ hf)
  · right
    rcases List.mem_append.mp hin with hin | hin
    · exact Or.inl (List.mem_map.mp hin)
    · obtain ⟨l, hl, hla⟩ := List.mem_map.mp hin
      have hexcused := (Radio.reachable_sound hnode.radio).excused l hl
      right
      cases l with
      | rxQueue b n =>
        obtain rfl : b = a := hla
        obtain rfl : n = MICROBIT_RADIO_MAXIMUM_RX_BUFFERS := hexcused.resolve_right fun hf => Loss.noConfusion hf
        exact Or.inl hl
      | noMemory b =>
        obtain rfl : b = a := hla
        exact Or.inr hl
      | datagramQueue b n =>
        -- only a datagram comes so far
        obtain rfl : b = a := hla
        obtain ⟨buf, hfirst, hdatagram⟩ := Radio.reachable_dropped hnode.radio hl
        obtain rfl := Option.some.inj (harrival.symm.trans hfirst)
        exact absurd (hread.1.symm.trans hdatagram) (by decide)

/-- Between two nodes the event is among those that fired. -/
theorem events_accounted_pair : (0, stamped) ∈ (pairFired.nodes true).fired := by
  rcases events_accounted registrationBus_lawful pairFired_reachable pairFired_headers true (a := 0) (k := 0) (r := 0) rfl rfl rfl rfl
    with h | ⟨f, hf, -⟩ | h | h
  · exact h
  · exact absurd hf List.not_mem_nil
  · exact absurd h List.not_mem_nil
  · exact absurd h List.not_mem_nil

end Network

end CodalMicrobit

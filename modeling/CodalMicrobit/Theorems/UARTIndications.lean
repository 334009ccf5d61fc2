import CodalMicrobit.Bluetooth.UARTTransmit

/-!
# The UART service sends what it was given

The bytes in flight are the first of the buffered ones and a copy of the attribute buffer, which nothing writes until they
are confirmed. A confirmation moves exactly these bytes from the buffered to the confirmed ones. So, within one connection,
what was confirmed and what is buffered together are what `send` has counted as written, whichever sender goes on when.
-/

namespace CodalMicrobit

open Ring

namespace UARTTransmit

/-- Nothing is in flight; or one indication is, of up to 20 bytes: those at the front of the buffer, which are also in the
attribute buffer. -/
def OneInFlight (s : UARTTransmit) : Prop :=
  s.txValueSize = 0 ∧ s.inFlight = [] ∨
    0 < s.txValueSize ∧ s.txValueSize ≤ MICROBIT_UART_S_ATTRSIZE ∧ s.txValueSize ≤ s.buffered.length ∧
      s.inFlight = [s.buffered.take s.txValueSize] ∧
      (List.range s.txValueSize).map s.value = s.buffered.take s.txValueSize

/-- A ring for `n` bytes, what is in flight, and senders that have counted bytes of their own. -/
structure Sound (s : UARTTransmit) (n : Nat) : Prop where
  size : s.txBufferSize = n + 1
  tail_lt : s.txBufferTail < s.txBufferSize
  head_lt : s.txBufferHead < s.txBufferSize
  flight : s.OneInFlight
  fibers : ∀ f ∈ s.fibers, f.bytesWritten ≤ f.buf.length

/-- What the present connection has taken: the bytes that were confirmed, and those in the buffer. -/
def taken (s : UARTTransmit) : List UInt8 := s.confirmed ++ s.buffered

variable {s : UARTTransmit} {n : Nat}

/-- The bytes in the ring, counted by the indices. -/
theorem buffered_length (s : UARTTransmit) :
    s.buffered.length = count s.txBufferSize s.txBufferTail s.txBufferHead := cells_length _ _ _ _

/-- The buffer is empty when its head has the place of its tail. -/
theorem Sound.buffered_eq_nil (h : s.Sound n) : s.buffered = [] ↔ s.txBufferTail = s.txBufferHead := by
  rw [← List.length_eq_zero_iff, buffered_length]
  exact count_eq_zero h.tail_lt

/-- There is room for one more byte unless `n` bytes are buffered. -/
theorem Sound.full (h : s.Sound n) : (s.txBufferHead + 1) % s.txBufferSize = s.txBufferTail ↔ s.buffered.length = n := by
  rw [next_eq_tail h.tail_lt h.head_lt, buffered_length, h.size]
  omega

/-- The buffer holds no more than it has room for. -/
theorem Sound.length_le (h : s.Sound n) : s.buffered.length ≤ n := by
  have := count_lt h.tail_lt h.head_lt
  rw [h.size] at this
  rw [buffered_length, h.size]
  omega

/-! ## Writing -/

/-- The state in which one more byte is in the buffer. -/
def push (s : UARTTransmit) (c : UInt8) : UARTTransmit :=
  { s with
    txBuffer := Function.update s.txBuffer s.txBufferHead c
    txBufferHead := (s.txBufferHead + 1) % s.txBufferSize }

/-- A byte that is pushed goes behind the others. -/
theorem push_buffered (h : s.Sound n) (hroom : (s.txBufferHead + 1) % s.txBufferSize ≠ s.txBufferTail) (c : UInt8) :
    (s.push c).buffered = s.buffered ++ [c] := by
  have hplace := add_count h.tail_lt h.head_lt
  have hold : cells (Function.update s.txBuffer _ c) _ _ _ = s.buffered :=
    cells_update h.tail_lt (count_lt h.tail_lt h.head_lt) c
  rw [hplace] at hold
  unfold buffered push
  dsimp only
  rw [count_next h.tail_lt h.head_lt hroom, cells_add, hold, hplace, cells_one _ _ h.head_lt, Function.update_self]
  rfl

/-- What goes behind the buffered bytes leaves those in flight as they are. -/
theorem OneInFlight.append {s' : UARTTransmit} {bytes : List UInt8} (h : s.OneInFlight)
    (hbuf : s'.buffered = s.buffered ++ bytes) (hsize : s'.txValueSize = s.txValueSize) (hvalue : s'.value = s.value)
    (hflight : s'.inFlight = s.inFlight) : s'.OneInFlight := by
  unfold OneInFlight
  rw [hsize, hvalue, hflight, hbuf]
  rcases h with h | ⟨hpos, hle, hlen, hfl, hval⟩
  · exact Or.inl h
  · right
    rw [List.take_append_of_le_length hlen, List.length_append]
    exact ⟨hpos, hle, by omega, hfl, hval⟩

/-- A byte that is pushed keeps the ring sound. -/
theorem push_sound (h : s.Sound n) (hroom : (s.txBufferHead + 1) % s.txBufferSize ≠ s.txBufferTail) (c : UInt8) :
    (s.push c).Sound n :=
  ⟨h.size, h.tail_lt, Nat.mod_lt _ (Nat.zero_lt_of_lt h.tail_lt), h.flight.append (push_buffered h hroom c) rfl rfl rfl,
    h.fibers⟩

/-- What putting bytes in leaves as it is, whoever does it. -/
structure Beside (s s' : UARTTransmit) : Prop where
  connected : s'.connected = s.connected
  indicateEnabled : s'.indicateEnabled = s.indicateEnabled
  fibers : s'.fibers = s.fibers
  confirmed : s'.confirmed = s.confirmed

theorem Beside.trans {s' s'' : UARTTransmit} (h : s.Beside s') (h' : s'.Beside s'') : s.Beside s'' :=
  ⟨h'.1.trans h.1, h'.2.trans h.2, h'.3.trans h.3, h'.4.trans h.4⟩

/-- The inner loop of `send` puts in the first bytes, as many as there is room for, and counts them. -/
theorem copy_spec (bytes : List UInt8) : ∀ {s : UARTTransmit}, s.Sound n → (s.copy bytes).2.Sound n ∧
    (s.copy bytes).1 = min bytes.length (n - s.buffered.length) ∧
    (s.copy bytes).2.buffered = s.buffered ++ bytes.take (s.copy bytes).1 ∧ s.Beside (s.copy bytes).2 := by
  induction bytes with
  | nil => exact fun h => ⟨h, by simp [copy], by simp [copy], ⟨rfl, rfl, rfl, rfl⟩⟩
  | cons c rest ih =>
    intro s h
    have hle := h.length_le
    unfold copy
    dsimp only
    split
    · rename_i hfull
      have hn := h.full.mp hfull
      exact ⟨h, by simp [hn], by simp, ⟨rfl, rfl, rfl, rfl⟩⟩
    · rename_i hroom
      have hn := mt h.full.mpr hroom
      have hbuf := push_buffered h hroom c
      obtain ⟨hs, hcount, hbytes, hbeside⟩ := ih (push_sound h hroom c)
      have hpush : s.Beside (s.push c) := ⟨rfl, rfl, rfl, rfl⟩
      refine ⟨hs, ?_, ?_, hpush.trans hbeside⟩
      · rw [hbuf] at hcount
        simp only [List.length_append, List.length_cons, List.length_nil] at hcount ⊢
        change (copy (s.push c) rest).1 + 1 = _
        omega
      · change (copy (s.push c) rest).2.buffered = s.buffered ++ (c :: rest).take ((copy (s.push c) rest).1 + 1)
        rw [hbytes, hbuf, List.take_succ_cons, List.append_assoc]
        rfl

/-! ## Sending -/

/-- The attribute buffer after the turns of the loop of `sendNext`, from some bytes in it on: it holds the first 20 of the
buffered bytes, or all of them. -/
theorem fillValue_spec (fuel : Nat) : ∀ {s : UARTTransmit} (next : Nat), s.txBufferTail < s.txBufferSize →
    s.txBufferHead < s.txBufferSize → next = (s.txBufferTail + s.txValueSize) % s.txBufferSize →
    s.txValueSize ≤ s.buffered.length → s.txValueSize ≤ MICROBIT_UART_S_ATTRSIZE →
    MICROBIT_UART_S_ATTRSIZE ≤ s.txValueSize + fuel →
    (List.range s.txValueSize).map s.value = s.buffered.take s.txValueSize → ∃ value size,
      s.fillValue next fuel = { s with value, txValueSize := size } ∧
        size = min MICROBIT_UART_S_ATTRSIZE s.buffered.length ∧
        (List.range size).map value = s.buffered.take size := by
  induction fuel with
  | zero => exact fun _ _ _ _ hlen hle hfuel hval => ⟨_, _, rfl, by omega, hval⟩
  | succ fuel ih =>
    intro s next ht hh hnext hlen hle hfuel hval
    by_cases hgo : s.txValueSize < MICROBIT_UART_S_ATTRSIZE ∧ next ≠ s.txBufferHead
    · have hlt : s.txValueSize < s.buffered.length := by
        refine Nat.lt_of_le_of_ne hlen fun heq => hgo.2 ?_
        rw [hnext, heq, buffered_length]
        exact add_count ht hh
      have hbyte : s.buffered[s.txValueSize] = s.txBuffer next := by
        rw [hnext]
        simp [buffered, cells]
      have hval' : (List.range (s.txValueSize + 1)).map (Function.update s.value s.txValueSize (s.txBuffer next)) =
          s.buffered.take (s.txValueSize + 1) := by
        have hsame : (List.range s.txValueSize).map (Function.update s.value s.txValueSize (s.txBuffer next)) =
            (List.range s.txValueSize).map s.value :=
          List.map_congr_left fun k hk => Function.update_of_ne (Nat.ne_of_lt (List.mem_range.mp hk)) _ _
        rw [List.range_succ, List.map_append, hsame, hval, List.take_succ_eq_append_getElem hlt, hbyte]
        simp
      obtain ⟨value, size, heq, hmin, hmap⟩ := ih
        (s := { s with
          value := Function.update s.value s.txValueSize (s.txBuffer next)
          txValueSize := s.txValueSize + 1 })
        ((next + 1) % s.txBufferSize) ht hh (by rw [hnext, Nat.mod_add_mod]; rfl) hlt hgo.1 (by dsimp only; omega) hval'
      refine ⟨value, size, ?_, hmin, hmap⟩
      rw [fillValue, if_pos hgo, heq]
    · refine ⟨_, _, by rw [fillValue, if_neg hgo], ?_, hval⟩
      by_cases hfull : s.txValueSize = MICROBIT_UART_S_ATTRSIZE
      · omega
      · -- The loop has come to the head, so all that is buffered has been copied.
        have hend : (s.txBufferTail + s.txValueSize) % s.txBufferSize = s.txBufferHead := by
          rw [← hnext]
          exact not_not.mp fun hne => hgo ⟨Nat.lt_of_le_of_ne hle hfull, hne⟩
        have hdrop := count_drop ht hh (buffered_length s ▸ hlen)
        rw [hend, count_self] at hdrop
        rw [buffered_length] at hlen ⊢
        omega

/-- What `sendNext` puts into an empty attribute buffer. -/
theorem fillValue_start (h : s.Sound n) (hzero : s.txValueSize = 0) (hne : s.txBufferTail ≠ s.txBufferHead) :
    ∃ value size, s.fillValue s.txBufferTail MICROBIT_UART_S_ATTRSIZE = { s with value, txValueSize := size } ∧
      size = min MICROBIT_UART_S_ATTRSIZE s.buffered.length ∧
      (List.range size).map value = s.buffered.take size ∧ 0 < size := by
  have hpos : 0 < s.buffered.length := List.length_pos_iff.mpr (mt h.buffered_eq_nil.mp hne)
  obtain ⟨value, size, heq, hmin, hval⟩ := fillValue_spec MICROBIT_UART_S_ATTRSIZE s.txBufferTail
    h.tail_lt h.head_lt (by rw [hzero, Nat.add_zero, Nat.mod_eq_of_lt h.tail_lt]) (by omega) (by omega) (by omega) (by simp [hzero])
  refine ⟨value, size, heq, hmin, hval, ?_⟩
  rw [hmin]
  exact Nat.lt_min.mpr ⟨by decide, hpos⟩

/-- `sendNext` sends nothing while an indication is in flight, or there is nothing to send, or nobody to send it to; else
it sends the first 20 bytes of the buffer, or all of them. -/
theorem sendNext_spec (h : s.Sound n) : s.sendNext.Sound n ∧ s.sendNext.buffered = s.buffered ∧ s.Beside s.sendNext ∧
    (s.connected = true → s.indicateEnabled = true → s.inFlight = [] → s.buffered ≠ [] →
      s.sendNext.inFlight = [s.buffered.take MICROBIT_UART_S_ATTRSIZE]) := by
  unfold sendNext
  split
  · rename_i hstay
    refine ⟨h, rfl, ⟨rfl, rfl, rfl, rfl⟩, fun _ _ hfl hne => ?_⟩
    rcases h.flight with ⟨hzero, -⟩ | ⟨-, -, -, hone, -⟩
    · exact absurd (h.buffered_eq_nil.mpr (hstay.resolve_left (not_not.mpr hzero))) hne
    · rw [hone] at hfl
      exact absurd hfl (List.cons_ne_nil _ _)
  · rename_i hgo
    obtain ⟨hzero, hne⟩ := not_or.mp hgo
    have hzero : s.txValueSize = 0 := Decidable.not_not.mp hzero
    split
    · rename_i hoff
      refine ⟨h, rfl, ⟨rfl, rfl, rfl, rfl⟩, fun hc he _ _ => ?_⟩
      rw [hc, he] at hoff
      exact absurd hoff (by decide)
    · have hflight : s.inFlight = [] := by
        rcases h.flight with h | h
        · exact h.2
        · omega
      obtain ⟨value, size, heq, hmin, hval, hpos⟩ := fillValue_start h hzero hne
      rw [heq]
      have hinFlight : s.inFlight ++ [(List.range size).map value] = [s.buffered.take size] := by
        rw [hflight, hval]
        rfl
      refine ⟨⟨h.size, h.tail_lt, h.head_lt, Or.inr ⟨hpos, by simp only [indicateChrValue]; omega, ?_, hinFlight, hval⟩,
        h.fibers⟩, rfl, ⟨rfl, rfl, rfl, rfl⟩, fun _ _ _ _ => ?_⟩
      · change size ≤ s.buffered.length
        omega
      · change s.inFlight ++ [(List.range size).map value] = _
        rw [hinFlight, hmin, ← List.take_take, List.take_length]

/-! ## The steps -/

/-- Changing what the invariant does not read. -/
theorem Sound.congr {s' : UARTTransmit} (h : s.Sound n) (hbuf : s'.txBuffer = s.txBuffer)
    (hhead : s'.txBufferHead = s.txBufferHead) (htail : s'.txBufferTail = s.txBufferTail)
    (hsize : s'.txBufferSize = s.txBufferSize) (hvs : s'.txValueSize = s.txValueSize) (hv : s'.value = s.value)
    (hfl : s'.inFlight = s.inFlight) (hf : ∀ f ∈ s'.fibers, f.bytesWritten ≤ f.buf.length) : s'.Sound n := by
  have hb : s'.buffered = s.buffered := by
    unfold buffered
    rw [hbuf, hhead, htail, hsize]
  refine ⟨hsize.trans h.size, ?_, ?_, ?_, hf⟩
  · rw [htail, hsize]
    exact h.tail_lt
  · rw [hhead, hsize]
    exact h.head_lt
  · exact h.flight.append (by rw [hb, List.append_nil]) hvs hv hfl

/-- `send` in ASYNC mode puts in what fits and returns its number. -/
theorem sendAsync_spec (h : s.Sound n) (buf : List UInt8) : (s.sendAsync buf).2.Sound n ∧
    (s.sendAsync buf).2.taken = s.taken ++ buf.take ((s.sendAsync buf).1.getD 0) ∧
    (s.connected = true → s.indicateEnabled = true → buf ≠ [] →
      (s.sendAsync buf).1 = some (min buf.length (n - s.buffered.length))) := by
  unfold sendAsync
  split
  · rename_i hempty
    refine ⟨h, by simp, fun _ _ hne => ?_⟩
    exact absurd (List.length_pos_iff.mpr hne) (by omega)
  · split
    · rename_i hoff
      refine ⟨h, by simp, fun hc he _ => ?_⟩
      rw [hc, he] at hoff
      exact absurd hoff (by decide)
    · obtain ⟨hs, hcount, hbytes, hbeside⟩ := copy_spec buf h
      obtain ⟨hs', hbuf, hbeside', -⟩ := sendNext_spec hs
      refine ⟨hs', ?_, fun _ _ _ => congrArg some hcount⟩
      unfold taken
      rw [hbeside'.confirmed, hbeside.confirmed, hbuf, hbytes, List.append_assoc]
      rfl

/-- A turn of a sender that sleeps puts in what fits of the bytes it has left, and suspends it with their number added. -/
theorem sleepTurn_spec (h : s.Sound n) (f : SendFiber) (hf : f.bytesWritten ≤ f.buf.length) :
    let k := min (f.buf.length - f.bytesWritten) (n - s.buffered.length)
    (s.sleepTurn f).Sound n ∧ (s.sleepTurn f).fibers = s.fibers ++ [{ f with bytesWritten := f.bytesWritten + k }] ∧
      (s.sleepTurn f).taken = s.taken ++ (f.buf.take (f.bytesWritten + k)).drop f.bytesWritten := by
  obtain ⟨hs, hcount, hbytes, hbeside⟩ := copy_spec (f.buf.drop f.bytesWritten) h
  have hwait : ({ (s.copy (f.buf.drop f.bytesWritten)).2 with waitingForEmpty := true } : UARTTransmit).Sound n :=
    hs.congr rfl rfl rfl rfl rfl rfl rfl hs.fibers
  obtain ⟨hs', hbuf, hbeside', -⟩ := sendNext_spec hwait
  rw [List.length_drop] at hcount
  have hfibers : (s.sleepTurn f).fibers = s.fibers ++ [{ f with
      bytesWritten := f.bytesWritten + min (f.buf.length - f.bytesWritten) (n - s.buffered.length) }] := by
    unfold sleepTurn
    dsimp only
    rw [hbeside'.fibers, hcount]
    exact congrArg (· ++ _) hbeside.fibers
  refine ⟨hs'.congr rfl rfl rfl rfl rfl rfl rfl ?_, hfibers, ?_⟩
  · intro g hg
    rw [hfibers] at hg
    rcases List.mem_append.mp hg with hg | hg
    · exact h.fibers g hg
    · obtain rfl := List.mem_singleton.mp hg
      dsimp only
      omega
  · have htaken : (s.sleepTurn f).taken = s.taken ++ (f.buf.drop f.bytesWritten).take
        (min (f.buf.length - f.bytesWritten) (n - s.buffered.length)) := by
      have hold : (s.sleepTurn f).buffered = (s.copy (f.buf.drop f.bytesWritten)).2.buffered := hbuf
      have hconf : (s.sleepTurn f).confirmed = (s.copy (f.buf.drop f.bytesWritten)).2.confirmed := hbeside'.confirmed
      unfold taken
      rw [hold, hconf, hbeside.confirmed, hbytes, hcount, List.append_assoc]
    rw [htaken, List.drop_take, Nat.add_sub_cancel_left]

/-- `send` in SYNC_SLEEP mode suspends its fiber with the number of bytes that fitted. -/
theorem sendSleep_spec (h : s.Sound n) (buf : List UInt8) :
    s.sendSleep buf = s ∨ (s.sendSleep buf).Sound n ∧
      (s.sendSleep buf).fibers = s.fibers ++ [⟨buf, min buf.length (n - s.buffered.length)⟩] ∧
      (s.sendSleep buf).taken = s.taken ++ buf.take (min buf.length (n - s.buffered.length)) := by
  unfold sendSleep
  split
  · exact Or.inl rfl
  · split
    · exact Or.inl rfl
    · right
      simpa using sleepTurn_spec h ⟨buf, 0⟩ (Nat.zero_le _)

/-- What `schedule()` returning does to the sender number `i`. -/
structure Resumed (s : UARTTransmit) (n i : Nat) (f : SendFiber) : Prop where
  returns : f.bytesWritten = f.buf.length ∧ s.buffered = [] ∨ ¬(s.connected = true ∧ s.indicateEnabled = true) →
    (s.resume i).1 = some f.bytesWritten ∧ (s.resume i).2.fibers = s.fibers.eraseIdx i ∧ (s.resume i).2.taken = s.taken
  goesOn : ¬(f.bytesWritten = f.buf.length ∧ s.buffered = []) → s.connected = true → s.indicateEnabled = true →
    (s.resume i).1 = none ∧ (s.resume i).2.fibers = s.fibers.eraseIdx i ++
      [{ f with bytesWritten := f.bytesWritten + min (f.buf.length - f.bytesWritten) (n - s.buffered.length) }] ∧
    (s.resume i).2.taken = s.taken ++ (f.buf.take (f.bytesWritten +
      min (f.buf.length - f.bytesWritten) (n - s.buffered.length))).drop f.bytesWritten

/-- A resumed sender returns its count when all its bytes are confirmed or nobody is there to read them, and else takes
another turn. -/
theorem resume_spec (h : s.Sound n) (i : Nat) :
    (s.resume i).2.Sound n ∧ ∀ f, s.fibers[i]? = some f → Resumed s n i f := by
  cases hf : s.fibers[i]? with
  | none =>
    have heq : s.resume i = (none, s) := by
      unfold resume
      rw [hf]
    rw [heq]
    exact ⟨h, nofun⟩
  | some f =>
    have hle := h.fibers f (List.mem_of_getElem? hf)
    have h' : ({ s with fibers := s.fibers.eraseIdx i, waitingForEmpty := false } : UARTTransmit).Sound n :=
      h.congr rfl rfl rfl rfl rfl rfl rfl fun g hg => h.fibers g (List.mem_of_mem_eraseIdx hg)
    have hdone : (f.bytesWritten = f.buf.length ∧ s.txBufferTail = s.txBufferHead) ↔
        (f.bytesWritten = f.buf.length ∧ s.buffered = []) := by
      rw [h.buffered_eq_nil]
    have heq : s.resume i =
        if f.bytesWritten = f.buf.length ∧ s.txBufferTail = s.txBufferHead then
          (some f.bytesWritten, { s with fibers := s.fibers.eraseIdx i, waitingForEmpty := false })
        else if s.connected && s.indicateEnabled then
          (none, { s with fibers := s.fibers.eraseIdx i, waitingForEmpty := false }.sleepTurn f)
        else (some f.bytesWritten, { s with fibers := s.fibers.eraseIdx i, waitingForEmpty := false }) := by
      unfold resume
      rw [hf]
    obtain ⟨hturn, hfibers, htaken⟩ := sleepTurn_spec h' f hle
    by_cases hend : f.bytesWritten = f.buf.length ∧ s.txBufferTail = s.txBufferHead
    · rw [if_pos hend] at heq
      refine ⟨heq ▸ h', fun g hg => ?_⟩
      obtain rfl := Option.some.inj hg
      exact ⟨fun _ => by rw [heq]; exact ⟨rfl, rfl, rfl⟩, fun hno => absurd (hdone.mp hend) hno⟩
    · rw [if_neg hend] at heq
      by_cases hon : s.connected = true ∧ s.indicateEnabled = true
      · rw [if_pos (by simp [hon])] at heq
        refine ⟨heq ▸ hturn, fun g hg => ?_⟩
        obtain rfl := Option.some.inj hg
        refine ⟨fun hor => ?_, fun _ _ _ => by rw [heq]; exact ⟨rfl, hfibers, htaken⟩⟩
        exact absurd hor (not_or.mpr ⟨mt hdone.mpr hend, not_not.mpr hon⟩)
      · rw [if_neg (by simpa using hon)] at heq
        refine ⟨heq ▸ h', fun g hg => ?_⟩
        obtain rfl := Option.some.inj hg
        exact ⟨fun _ => by rw [heq]; exact ⟨rfl, rfl, rfl⟩, fun _ hc he => absurd ⟨hc, he⟩ hon⟩

/-- A confirmation moves the bytes in flight from the buffered to the confirmed ones. -/
theorem onConfirmation_spec (h : s.Sound n) : s.onConfirmation.Sound n ∧ s.onConfirmation.taken = s.taken ∧
    s.onConfirmation.confirmed = s.confirmed ++ s.inFlight.flatten := by
  unfold onConfirmation
  rcases h.flight with ⟨-, hfl⟩ | ⟨-, -, hlen, hfl, -⟩
  · rw [hfl]
    exact ⟨h, rfl, (List.append_nil _).symm⟩
  · have hle : s.txValueSize ≤ count s.txBufferSize s.txBufferTail s.txBufferHead := by
      rwa [buffered_length] at hlen
    have hsplit : s.buffered = s.buffered.take s.txValueSize ++
        cells s.txBuffer s.txBufferSize ((s.txBufferTail + s.txValueSize) % s.txBufferSize)
          (count s.txBufferSize ((s.txBufferTail + s.txValueSize) % s.txBufferSize) s.txBufferHead) := by
      have hparts : cells s.txBuffer _ _ _ = _ ++ _ := cells_count_split h.tail_lt h.head_lt hle
      rw [buffered, hparts, List.take_left' (cells_length _ _ _ _)]
    obtain ⟨t, ht⟩ : ∃ t : UARTTransmit, t = { s with
        inFlight := []
        confirmed := s.confirmed ++ s.buffered.take s.txValueSize
        txBufferTail := (s.txBufferTail + s.txValueSize) % s.txBufferSize
        txValueSize := 0 } := ⟨_, rfl⟩
    have h' : t.Sound n := by
      rw [ht]
      exact ⟨h.size, Nat.mod_lt _ (Nat.zero_lt_of_lt h.tail_lt), h.head_lt, Or.inl ⟨rfl, rfl⟩, h.fibers⟩
    have htaken : t.taken = s.taken := by
      unfold taken
      rw [hsplit, ← List.append_assoc, ht]
      rfl
    have hconf : t.confirmed = s.confirmed ++ [s.buffered.take s.txValueSize].flatten := by
      rw [ht]
      simp
    rw [hfl]
    dsimp only
    split
    · obtain ⟨hs, hbuf, hbeside, -⟩ := sendNext_spec h'
      rw [ht] at hs hbuf hbeside hconf htaken
      refine ⟨hs, ?_, hbeside.confirmed.trans hconf⟩
      rw [← htaken, taken, hbeside.confirmed, hbuf]
      rfl
    · rw [ht] at h' htaken hconf
      exact ⟨h', htaken, hconf⟩

/-- The end of a connection empties the buffer. -/
theorem onDisconnect_spec (h : s.Sound n) : s.onDisconnect.Sound n ∧ s.onDisconnect.taken = [] :=
  ⟨⟨h.size, Nat.zero_lt_of_lt h.tail_lt, Nat.zero_lt_of_lt h.tail_lt, Or.inl ⟨rfl, rfl⟩, h.fibers⟩,
    by simp [onDisconnect, taken, buffered]⟩

/-! ## What `send` counts as written -/

/-- The bytes that `send` counts as written in a step: of its argument, those up to the number it returns, or up to the
number its fiber is suspended with and behind the number it was suspended with before. -/
def counted (s : UARTTransmit) : Step → List UInt8
  | .sendAsync buf => buf.take ((s.sendAsync buf).1.getD 0)
  | .sendSleep buf => ((s.sendSleep buf).fibers.drop s.fibers.length).flatMap fun f => f.buf.take f.bytesWritten
  | .resume i =>
    match s.fibers[i]? with
    | none => []
    | some f => ((s.resume i).2.fibers.drop (s.fibers.length - 1)).flatMap fun g =>
        (g.buf.take g.bytesWritten).drop f.bytesWritten
  | _ => []

/-- The bytes counted as written in the present connection, after a step. -/
def recorded (s : UARTTransmit) (w : List UInt8) : Step → List UInt8
  | .disconnect => []
  | st => w ++ s.counted st

/-- The bytes counted as written in the present connection, after a sequence of steps. -/
def written (s : UARTTransmit) (w : List UInt8) : List Step → List UInt8
  | [] => w
  | st :: steps => (s.step st).written (s.recorded w st) steps

/-- A resumed sender adds to the connection what it counts. -/
theorem resume_taken (h : s.Sound n) (i : Nat) : (s.resume i).2.taken = s.taken ++ s.counted (.resume i) := by
  cases hf : s.fibers[i]? with
  | none =>
    have heq : s.resume i = (none, s) := by
      unfold resume
      rw [hf]
    simp [counted, hf, heq]
  | some f =>
    have hlen : (s.fibers.eraseIdx i).length = s.fibers.length - 1 :=
      List.length_eraseIdx_of_lt (List.getElem?_eq_some_iff.mp hf).1
    have hcounted : s.counted (.resume i) = ((s.resume i).2.fibers.drop (s.fibers.eraseIdx i).length).flatMap fun g =>
        (g.buf.take g.bytesWritten).drop f.bytesWritten := by
      simp only [counted, hf, hlen]
    have hres := (resume_spec h i).2 f hf
    by_cases hdone : f.bytesWritten = f.buf.length ∧ s.buffered = [] ∨ ¬(s.connected = true ∧ s.indicateEnabled = true)
    · obtain ⟨-, hfibers, htaken⟩ := hres.returns hdone
      rw [hcounted, htaken, hfibers]
      simp
    · obtain ⟨hnot, hon⟩ := not_or.mp hdone
      obtain ⟨-, hfibers, htaken⟩ := hres.goesOn hnot (not_not.mp hon).1 (not_not.mp hon).2
      rw [hcounted, htaken, hfibers]
      simp

/-- One step keeps the buffer sound, and the connection takes exactly the bytes the step counts. -/
theorem step_spec (h : s.Sound n) (st : Step) :
    (s.step st).Sound n ∧ ∀ w, s.taken = w → (s.step st).taken = s.recorded w st := by
  cases st with
  | connect => exact ⟨h.congr rfl rfl rfl rfl rfl rfl rfl h.fibers, fun w hw => hw.trans (List.append_nil _).symm⟩
  | disconnect => exact ⟨(onDisconnect_spec h).1, fun _ _ => (onDisconnect_spec h).2⟩
  | enable on => exact ⟨h.congr rfl rfl rfl rfl rfl rfl rfl h.fibers, fun w hw => hw.trans (List.append_nil _).symm⟩
  | sendAsync buf =>
    obtain ⟨hs, htaken, -⟩ := sendAsync_spec h buf
    exact ⟨hs, fun w hw => by rw [← hw]; exact htaken⟩
  | sendSleep buf =>
    rcases sendSleep_spec h buf with hsame | ⟨hs, hfibers, htaken⟩
    · simp only [step, recorded, counted, hsame, List.drop_length]
      exact ⟨h, fun w hw => hw.trans (List.append_nil _).symm⟩
    · refine ⟨hs, fun w hw => ?_⟩
      simp only [step, recorded, counted, hfibers, htaken, List.drop_left, hw]
      simp
  | resume i => exact ⟨(resume_spec h i).1, fun w hw => by rw [← hw]; exact resume_taken h i⟩
  | sendNext =>
    obtain ⟨hs, hbuf, hbeside, -⟩ := sendNext_spec h
    have htaken : s.sendNext.taken = s.taken := by
      rw [taken, hbuf, hbeside.confirmed]
      rfl
    exact ⟨hs, fun w hw => by rw [← hw]; exact htaken.trans (List.append_nil _).symm⟩
  | confirmation =>
    obtain ⟨hs, htaken, -⟩ := onConfirmation_spec h
    exact ⟨hs, fun w hw => by rw [← hw]; exact htaken.trans (List.append_nil _).symm⟩

/-- Every step keeps the ring sound. -/
theorem step_sound (h : s.Sound n) (st : Step) : (s.step st).Sound n := (step_spec h st).1

/-- A run keeps the buffer sound, and the connection has taken exactly the bytes counted in it. -/
theorem run_spec (steps : List Step) : ∀ {s : UARTTransmit} {w : List UInt8}, s.Sound n → s.taken = w →
    (s.run steps).Sound n ∧ (s.run steps).taken = s.written w steps := by
  induction steps with
  | nil => exact fun h hw => ⟨h, hw⟩
  | cons st steps ih => exact fun h hw => ih (step_sound h st) ((step_spec h st).2 _ hw)

/-- A new ring is sound. -/
theorem new_sound (h : n ≤ 254) : (new n).Sound n := by
  have hsize : (new n).txBufferSize = n + 1 := Nat.mod_eq_of_lt (by omega)
  refine ⟨hsize, ?_, ?_, Or.inl ⟨rfl, rfl⟩, nofun⟩
  · rw [hsize]
    exact Nat.succ_pos n
  · rw [hsize]
    exact Nat.succ_pos n

/-- What the senders and the client can rely on next: `send` counts and takes as many of its bytes as there is room for,
`sendNext` sends the first 20 bytes of the buffer, or all of them, if it may, and a confirmation is one of the bytes in
flight. -/
structure Serves (s : UARTTransmit) (n : Nat) : Prop where
  async : s.connected = true → s.indicateEnabled = true → ∀ buf, buf ≠ [] →
    (s.sendAsync buf).1 = some (min buf.length (n - s.buffered.length))
  sleep : s.connected = true → s.indicateEnabled = true → ∀ buf, buf ≠ [] →
    (s.sendSleep buf).fibers = s.fibers ++ [⟨buf, min buf.length (n - s.buffered.length)⟩]
  resume : ∀ i f, s.fibers[i]? = some f → Resumed s n i f
  next : s.connected = true → s.indicateEnabled = true → s.inFlight = [] → s.buffered ≠ [] →
    s.sendNext.inFlight = [s.buffered.take MICROBIT_UART_S_ATTRSIZE]
  confirmation : s.onConfirmation.confirmed = s.confirmed ++ s.inFlight.flatten

/-- A sound ring serves what the theorem says. -/
theorem Sound.serves (h : s.Sound n) : s.Serves n := by
  refine ⟨fun hc he buf hne => (sendAsync_spec h buf).2.2 hc he hne, fun hc he buf hne => ?_,
    fun i => (resume_spec h i).2, (sendNext_spec h).2.2.2, (onConfirmation_spec h).2.2⟩
  have hlen : ¬buf.length < 1 := Nat.not_lt.mpr (List.length_pos_iff.mpr hne)
  have heq : s.sendSleep buf = s.sleepTurn ⟨buf, 0⟩ := by
    unfold sendSleep
    rw [if_neg hlen, hc, he]
    rfl
  rw [heq]
  simpa using (sleepTurn_spec h ⟨buf, 0⟩ (Nat.zero_le _)).2.1

/-- The UART service sends what it was given. Whatever senders, confirmations and connections do in whichever order, the
bytes confirmed in the present connection followed by those buffered are the bytes counted as written by `send`, in order;
at most one indication is unconfirmed, of 1 to 20 bytes, which are at the front of the buffer and still in the attribute
buffer; and the next step serves whoever takes it. -/
theorem uart_indications (n : Nat) (hn : n ≤ 254) (steps : List Step) :
    ((new n).run steps).confirmed ++ ((new n).run steps).buffered = (new n).written [] steps ∧
      ((new n).run steps).inFlight.length ≤ 1 ∧
      (∀ bytes ∈ ((new n).run steps).inFlight, bytes ≠ [] ∧ bytes.length ≤ MICROBIT_UART_S_ATTRSIZE ∧
        bytes <+: ((new n).run steps).buffered ∧ bytes = (List.range bytes.length).map ((new n).run steps).value) ∧
      (∀ f ∈ ((new n).run steps).fibers, f.bytesWritten ≤ f.buf.length) ∧ ((new n).run steps).Serves n := by
  obtain ⟨h, htaken⟩ := run_spec steps (new_sound hn) rfl
  refine ⟨htaken, ?_⟩
  generalize (new n).run steps = s at h
  rcases h.flight with ⟨-, hfl⟩ | ⟨hpos, hle, hlen, hfl, hval⟩
  · rw [hfl]
    exact ⟨Nat.zero_le _, fun bytes hb => absurd hb (List.not_mem_nil), h.fibers, h.serves⟩
  · rw [hfl]
    refine ⟨Nat.le_refl _, fun bytes hb => ?_, h.fibers, h.serves⟩
    obtain rfl := List.mem_singleton.mp hb
    have hlength : (s.buffered.take s.txValueSize).length = s.txValueSize := by
      rw [List.length_take]
      omega
    refine ⟨List.ne_nil_of_length_pos (by omega), by omega, List.take_prefix _ _, ?_⟩
    rw [hlength, hval]

/-- Three bytes sent through a buffer of two, one of them after a confirmation. -/
def threeSent : List Step := [.connect, .enable true, .sendSleep [1, 2, 3], .confirmation, .resume 0]

/-- `uart_indications` for three bytes: two are confirmed, the third is in flight, and the sender is suspended with all
three counted. -/
theorem uart_indications_three :
    (new 2).written [] threeSent = [1, 2, 3] ∧ ((new 2).run threeSent).confirmed = [1, 2] ∧
      ((new 2).run threeSent).buffered = [3] ∧ ((new 2).run threeSent).inFlight = [[3]] ∧
      ((new 2).run threeSent).confirmed ++ ((new 2).run threeSent).buffered = (new 2).written [] threeSent ∧
      ((new 2).run threeSent).inFlight.length ≤ 1 ∧
      (∀ f ∈ ((new 2).run threeSent).fibers, f.bytesWritten ≤ f.buf.length) ∧
      ((new 2).run threeSent).onConfirmation.confirmed = [1, 2] ++ [3] := by
  obtain ⟨hwritten, hone, -, hfibers, hserves⟩ := uart_indications 2 (by decide) threeSent
  exact ⟨by decide, by decide, by decide, by decide, hwritten, hone, hfibers, hserves.confirmation⟩

end UARTTransmit

end CodalMicrobit

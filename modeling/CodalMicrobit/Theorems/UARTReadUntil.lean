import CodalMicrobit.Theorems.UARTReaders

/-!
# Waiting for a delimiter

A fiber that waited in `readUntil` takes the byte behind which the head stands for the delimiter. That is right where the
delimiter was the last byte stored before the fiber has its turn, unless it lies in the last cell of the ring: then the head
is 0, and the fiber returns nothing.
-/

namespace CodalMicrobit

open Ring

namespace UARTService

variable {s : UARTService} {n : Nat}

/-- What was raised while the bytes `bs` were accepted: a delimiter match exactly when one of them is a delimiter. -/
structure Raised (s s' : UARTService) (bs : List UInt8) : Prop where
  delimeters : s'.delimeters = s.delimeters
  events : ∃ es, s'.events = s.events ++ es ∧
    (UARTEvent.MICROBIT_UART_S_EVT_DELIM_MATCH ∈ es ↔ ∃ c ∈ bs, c ∈ s.delimeters)

theorem Raised.trans {s s' s'' : UARTService} {bs bs' : List UInt8} (h : Raised s s' bs) (h' : Raised s' s'' bs') :
    Raised s s'' (bs ++ bs') := by
  obtain ⟨es, hes, hmem⟩ := h.events
  obtain ⟨es', hes', hmem'⟩ := h'.events
  refine ⟨h'.delimeters.trans h.delimeters, es ++ es', by rw [hes', hes, List.append_assoc], ?_⟩
  rw [List.mem_append, hmem, hmem', h.delimeters]
  constructor
  · rintro (⟨c, hc, hd⟩ | ⟨c, hc, hd⟩)
    · exact ⟨c, List.mem_append_left _ hc, hd⟩
    · exact ⟨c, List.mem_append_right _ hc, hd⟩
  · rintro ⟨c, hc, hd⟩
    exact (List.mem_append.mp hc).imp (fun hc => ⟨c, hc, hd⟩) fun hc => ⟨c, hc, hd⟩

/-- A byte that arrives raises its events. -/
theorem receive_raised (h : s.Sound n) (c : UInt8) :
    ∃ bs, Grew s (s.receive c) bs ∧ Raised s (s.receive c) bs := by
  have hgrew := receive_grew h c
  refine ⟨_, hgrew, ?_⟩
  have hfull := next_eq_tail h.tail_lt h.head_lt
  have hlen : s.unread.length = count s.rxBufferSize s.rxBufferTail s.rxBufferHead := cells_length _ _ _ _
  have hlt := h.count_lt
  have hsize := h.size
  have hmatched : UARTEvent.MICROBIT_UART_S_EVT_DELIM_MATCH ∈
      (s.delimeters.filter (· == c)).map (fun _ => UARTEvent.MICROBIT_UART_S_EVT_DELIM_MATCH) ↔ c ∈ s.delimeters := by
    simp
  unfold receive
  by_cases hf : (s.rxBufferHead + 1) % s.rxBufferSize = s.rxBufferTail
  · have := hfull.mp hf
    rw [if_neg (show ¬ s.unread.length < n by omega), if_neg (not_not.mpr hf)]
    exact ⟨rfl, [.MICROBIT_UART_S_EVT_RX_FULL], rfl, by simp⟩
  · have := mt hfull.mpr hf
    rw [if_pos (show s.unread.length < n by omega), if_pos hf]
    dsimp only
    split
    · refine ⟨rfl, _, List.append_assoc _ _ _, ?_⟩
      rw [List.mem_append, hmatched]
      simp
    · refine ⟨rfl, _, rfl, ?_⟩
      rw [hmatched]
      simp

/-- A write of the peer raises the events of its bytes. -/
theorem onDataWritten_raised (data : List UInt8) : ∀ {s : UARTService}, s.Sound n →
    ∃ bs, Grew s (s.onDataWritten data) bs ∧ Raised s (s.onDataWritten data) bs := by
  induction data with
  | nil => exact fun h => ⟨[], Grew.refl h, rfl, [], (List.append_nil _).symm, by simp⟩
  | cons c data ih =>
    intro s h
    obtain ⟨bs, hg, hr⟩ := receive_raised h c
    obtain ⟨bs', hg', hr'⟩ := ih (hg.sound h)
    exact ⟨_, hg.trans hg', hr.trans hr'⟩

/-- The bytes of the unread ones are those before and those that were accepted since. -/
theorem readUntilWoken_spec (h : s.Sound n) (hpos : 0 < s.unread.length) (w : Nat → Gap) (w' : Gap) :
    (s.rxBufferHead = 0 → s.readUntilWoken s.rxBufferTail w w' = ([], { s with delimeters := [] })) ∧
    (s.rxBufferHead ≠ 0 → (s.readUntilWoken s.rxBufferTail w w').1 = s.unread.dropLast ∧
      Took s (s.readUntilWoken s.rxBufferTail w w').2 n s.unread) := by
  unfold readUntilWoken
  dsimp only
  constructor
  · intro hzero
    rw [if_neg (by omega)]
  · intro hhead
    have hcleared : Grew s { s with delimeters := [] } [] :=
      ⟨rfl, rfl, h.head_lt, rfl, (List.append_nil _).symm, (List.append_nil _).symm⟩
    have hplace := h.place_head
    have hlen := h.unread_length
    have hsize := h.size
    have ht := h.tail_lt
    have hindex : ((s.rxBufferHead : Int) - 1).toNat = (s.rxBufferTail + (s.unread.length - 1)) % s.rxBufferSize := by
      rw [mod_eq (by omega)] at hplace ⊢
      split at hplace <;> split <;> omega
    rw [if_pos (by omega), hindex]
    obtain ⟨htext, htook⟩ := takeUntil_took (hcleared.sound h) (show s.unread.length - 1 < s.unread.length by omega) w w'
    have hall := (hcleared.took h).trans htook
    have hlast : s.unread.take (s.unread.length - 1) ++ [s.unread[s.unread.length - 1]] = s.unread := by
      rw [← List.take_succ_eq_append_getElem, Nat.sub_add_cancel hpos, List.take_length]
    rw [List.nil_append] at hall
    rw [List.dropLast_eq_take]
    have hgoal : Took s _ n (s.unread.take (s.unread.length - 1) ++ [s.unread[s.unread.length - 1]]) := hall
    rw [hlast] at hgoal
    exact ⟨htext, hgoal⟩

/-- Where no packets arrive, looking for a delimiter changes nothing. -/
theorem findDelimeter_quiet (delims : ManagedString) (fuel : Nat) : ∀ (s : UARTService) (localTail : Nat),
    (s.findDelimeter delims localTail (fun _ => []) fuel).2 = s := by
  induction fuel with
  | zero => exact fun s localTail => rfl
  | succ fuel ih =>
    intro s localTail
    rw [findDelimeter]
    dsimp only
    split
    · split
      · rfl
      · exact ih _ _
    · rfl

/-- Where no unread byte is a delimiter, none is found. -/
theorem findDelimeter_none (h : s.Sound n) {delims : ManagedString} (hno : ∀ b ∈ s.unread, b ∉ delims) :
    s.findDelimeter delims s.rxBufferTail (fun _ => []) s.rxBufferSize = (none, s) := by
  have hquiet := findDelimeter_quiet delims s.rxBufferSize s s.rxBufferTail
  obtain ⟨⟨r, s'⟩, hfind⟩ : ∃ r, s.findDelimeter delims s.rxBufferTail (fun _ => []) s.rxBufferSize = r := ⟨_, rfl⟩
  rw [hfind] at hquiet ⊢
  obtain rfl : s' = s := hquiet
  have hstart : (s'.rxBufferTail + 0) % s'.rxBufferSize = s'.rxBufferTail := by
    rw [Nat.add_zero, Nat.mod_eq_of_lt h.tail_lt]
  obtain ⟨bs, -, -, hsome⟩ := findDelimeter_spec delims s'.rxBufferSize (fun _ => []) h (Nat.zero_le _) (Nat.le_refl _)
    (by simp) r s' (by rw [hstart]; exact hfind)
  cases r with
  | none => rfl
  | some i =>
    obtain ⟨j, hj, -, hd, -⟩ := hsome i rfl
    exact absurd hd (hno _ (List.getElem_mem hj))

end UARTService

namespace UARTReaders

/-- The packets arrive one after the other. -/
def packets (ps : List (List UInt8)) : List ReaderStep := ps.map fun data => .async (.packet data)

/-- The service when a fiber has called `readUntil` and the packets have arrived while it waits. -/
def waited (r : UARTReaders) (delims : ManagedString) (ps : List (List UInt8)) : UARTReaders :=
  (r.step (.readUntil delims (fun _ => []) (fun _ => []) [])).run (packets ps)

/-- The fiber returns the bytes `a` and ends; these and `d` are consumed, and what comes after them stays unread. -/
def Returns (before after : UARTReaders) (n : Nat) (a : List UInt8) (d : UInt8) : Prop :=
  after.returned = before.returned ++ a ∧ after.fibers = [] ∧ UARTService.Took before.uart after.uart n (a ++ [d])

/-- `d` is the first delimiter among the bytes, with `a` before it and `b` behind it. -/
def FirstDelimeter (delims : ManagedString) (bytes a : List UInt8) (d : UInt8) (b : List UInt8) : Prop :=
  bytes = a ++ d :: b ∧ (∀ x ∈ a, x ∉ delims) ∧ d ∈ delims

variable {r : UARTReaders} {n : Nat}

/-- While one fiber waits for a delimiter, packets only add their bytes; it is woken when one of them is a delimiter. -/
theorem run_packets (ps : List (List UInt8)) : ∀ {r : UARTReaders} {k : Nat} {woken : Bool}, r.uart.Sound n →
    r.fibers = [⟨.readUntil k, woken⟩] → ∃ bs woken', UARTService.Grew r.uart (r.run (packets ps)).uart bs ∧
      (r.run (packets ps)).returned = r.returned ∧ (r.run (packets ps)).fibers = [⟨.readUntil k, woken'⟩] ∧
      ((∃ c ∈ bs, c ∈ r.uart.delimeters) → woken' = true) ∧ (woken = true → woken' = true) := by
  induction ps with
  | nil =>
    intro r k woken h hf
    exact ⟨[], woken, UARTService.Grew.refl h, rfl, hf, by simp, id⟩
  | cons data ps ih =>
    intro r k woken h hf
    obtain ⟨bs, hg, hraised⟩ := UARTService.onDataWritten_raised data h
    obtain ⟨es, hes, hmem⟩ := hraised.events
    have hone : (r.step (.async (.packet data))).fibers =
        [⟨.readUntil k, woken || es.contains .MICROBIT_UART_S_EVT_DELIM_MATCH⟩] := by
      change r.fibers.map (·.hear ((r.uart.onDataWritten data).events.drop r.uart.events.length)) ++ [] = _
      rw [hf, hes, List.drop_left]
      rfl
    obtain ⟨bs', woken', hg', hret, hfib, hdelim, hstays⟩ := ih (hg.sound h) hone
    refine ⟨bs ++ bs', woken', hg.trans hg', hret.trans (List.append_nil _), hfib, ?_, fun hw => hstays (by simp [hw])⟩
    rintro ⟨c, hc, hd⟩
    rcases List.mem_append.mp hc with hc | hc
    · have hin := hmem.mpr ⟨c, hc, hd⟩
      exact hstays (by simp [hin])
    · refine hdelim ⟨c, hc, ?_⟩
      change c ∈ (r.uart.onDataWritten data).delimeters
      rw [hraised.delimeters]
      exact hd

/-- The fiber waits with the tail it saw, the bytes of the packets come behind the unread ones, and it has been woken if
there is a delimiter among them. -/
theorem waited_spec (h : r.uart.Sound n) (hfibers : r.fibers = []) {delims : ManagedString}
    (hno : ∀ b ∈ r.uart.unread, b ∉ delims) (ps : List (List UInt8)) :
    (r.waited delims ps).uart.Sound n ∧
      ((∃ d ∈ (r.waited delims ps).uart.unread, d ∈ delims) →
        (r.waited delims ps).fibers = [⟨.readUntil (r.waited delims ps).uart.rxBufferTail, true⟩]) := by
  have hstep : r.step (.readUntil delims (fun _ => []) (fun _ => []) []) =
      { r with
        uart := { r.uart with delimeters := delims }
        fibers := [⟨.readUntil r.uart.rxBufferTail, false⟩] } := by
    unfold UARTReaders.step UARTService.readUntilSleep
    dsimp only
    rw [UARTService.findDelimeter_none h hno]
    unfold settle
    rw [hfibers]
    simp [UARTService.eventOn, UARTService.arrive]
  unfold waited
  rw [hstep]
  have hstart : UARTService.Grew r.uart { r.uart with delimeters := delims } [] :=
    ⟨rfl, rfl, h.head_lt, rfl, (List.append_nil _).symm, (List.append_nil _).symm⟩
  obtain ⟨bs, woken', hg, -, hfib, hdelim, -⟩ := run_packets ps
    (r := { r with
      uart := { r.uart with delimeters := delims }
      fibers := [⟨.readUntil r.uart.rxBufferTail, false⟩] }) (hstart.sound h) rfl
  refine ⟨hg.sound (hstart.sound h), ?_⟩
  rintro ⟨d, hd, hmem⟩
  rw [hg.unread] at hd
  have hnew : d ∈ bs := by
    rcases List.mem_append.mp hd with hd | hd
    · exact absurd hmem (hno d hd)
    · exact hd
  rw [hfib, hdelim ⟨d, hnew, hmem⟩, hg.tail]

/-- A blocking `readUntil` returns what it should exactly when the first delimiter is the last byte that was stored before
the fiber has its turn, and does not lie in the last cell of the ring. -/
theorem readUntil_returns_iff (r : UARTReaders) (n : Nat) (h : r.uart.Sound n) (hfibers : r.fibers = [])
    (delims : ManagedString) (hno : ∀ b ∈ r.uart.unread, b ∉ delims) (ps : List (List UInt8)) (w : Nat → Gap) (w' : Gap)
    (a b : List UInt8) (d : UInt8) (hfirst : FirstDelimeter delims (r.waited delims ps).uart.unread a d b) :
    Returns (r.waited delims ps) ((r.waited delims ps).step (.resume 0 w w')) n a d ↔
      b = [] ∧ (r.waited delims ps).uart.rxBufferHead ≠ 0 := by
  obtain ⟨hline, -, hd⟩ := hfirst
  obtain ⟨hs, hwoken⟩ := waited_spec h hfibers hno ps
  have hfib := hwoken ⟨d, by rw [hline]; simp, hd⟩
  generalize r.waited delims ps = before at hs hfib hline ⊢
  have hlen := congrArg List.length hline
  rw [List.length_append, List.length_cons] at hlen
  obtain ⟨hzero, hnonzero⟩ := UARTService.readUntilWoken_spec hs (by omega) w w'
  have hstep : before.step (.resume 0 w w') =
      { uart := (before.uart.readUntilWoken before.uart.rxBufferTail w w').2
        fibers := []
        returned := before.returned ++ (before.uart.readUntilWoken before.uart.rxBufferTail w w').1 } := by
    unfold UARTReaders.step
    rw [hfib]
    rfl
  unfold Returns
  rw [hstep]
  dsimp only
  by_cases hhead : before.uart.rxBufferHead = 0
  · refine iff_of_false (fun hret => ?_) fun hright => hright.2 hhead
    have hconsumed := hret.2.2.consumed
    rw [hzero hhead] at hconsumed
    have := congrArg List.length hconsumed
    simp at this
  · obtain ⟨htext, htook⟩ := hnonzero hhead
    rw [htext, hline]
    rw [hline] at htook
    constructor
    · rintro ⟨hret, -, -⟩
      have := congrArg List.length hret
      simp only [List.length_append, List.length_dropLast, List.length_cons] at this
      exact ⟨List.eq_nil_of_length_eq_zero (by omega), hhead⟩
    · rintro ⟨rfl, -⟩
      rw [List.dropLast_concat]
      exact ⟨rfl, rfl, htook⟩

/-- A line that ends with its packet. -/
theorem readUntil_returns_line :
    (new 3 (-1)).uart.Sound 3 ∧ (new 3 (-1)).fibers = [] ∧ (∀ b ∈ (new 3 (-1)).uart.unread, b ∉ ([10] : ManagedString)) ∧
      FirstDelimeter [10] ((new 3 (-1)).waited [10] [[1, 10]]).uart.unread [1] 10 [] ∧
      (Returns ((new 3 (-1)).waited [10] [[1, 10]])
        (((new 3 (-1)).waited [10] [[1, 10]]).step (.resume 0 (fun _ => []) [])) 3 [1] 10 ↔
        ([] : List UInt8) = [] ∧ ((new 3 (-1)).waited [10] [[1, 10]]).uart.rxBufferHead ≠ 0) := by
  have hsound : (new 3 (-1)).uart.Sound 3 := UARTService.new_sound (by decide) (-1)
  have hno : ∀ b ∈ (new 3 (-1)).uart.unread, b ∉ ([10] : ManagedString) := by decide +kernel
  have hfirst : FirstDelimeter [10] ((new 3 (-1)).waited [10] [[1, 10]]).uart.unread [1] 10 [] := by
    unfold FirstDelimeter
    decide +kernel
  exact ⟨hsound, rfl, hno, hfirst,
    readUntil_returns_iff (new 3 (-1)) 3 hsound rfl [10] hno [[1, 10]] (fun _ => []) [] [1] [] 10 hfirst⟩

/-- A packet that goes on behind the delimiter: the fiber returns the delimiter with the line, and drops the last byte. -/
theorem readUntil_returns_more :
    FirstDelimeter [10] ((new 3 (-1)).waited [10] [[1, 10, 2]]).uart.unread [1] 10 [2] ∧
      ¬ Returns ((new 3 (-1)).waited [10] [[1, 10, 2]])
        (((new 3 (-1)).waited [10] [[1, 10, 2]]).step (.resume 0 (fun _ => []) [])) 3 [1] 10 := by
  refine ⟨by unfold FirstDelimeter; decide +kernel, ?_⟩
  rintro ⟨hret, -, -⟩
  exact absurd hret (by decide +kernel)

end UARTReaders

end CodalMicrobit

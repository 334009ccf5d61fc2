import CodalMicrobit.Theorems.UARTReaders
import CodalMicrobit.Theorems.UARTIndications
import CodalMicrobit.Bluetooth.UARTMemory

/-!
# Both rings stay in their memory

Every operation of the service takes its indices modulo the size of the ring, so they stay below it whatever fibers and
packets do, even where a fiber takes a byte that is not there. This rests on the sizes alone: a capacity of 255 wraps to a
ring of size 0.
-/

namespace CodalMicrobit

namespace UARTService

/-- The indices are below the size of the ring. -/
structure InRing (s : UARTService) (cells : Nat) : Prop where
  size : s.rxBufferSize = cells
  tail_lt : s.rxBufferTail < cells
  head_lt : s.rxBufferHead < cells

variable {s : UARTService} {cells : Nat}

/-- A head inside the ring needs a cell. -/
theorem InRing.pos (h : s.InRing cells) : 0 < cells := Nat.zero_lt_of_lt h.tail_lt

/-- A byte from the radio leaves the positions inside the ring. -/
theorem receive_inRing (h : s.InRing cells) (c : UInt8) : (s.receive c).InRing cells := by
  have hmod : (s.rxBufferHead + 1) % s.rxBufferSize < cells := by
    rw [h.size]
    exact Nat.mod_lt _ h.pos
  unfold receive
  dsimp only
  split
  · split
    · exact ⟨h.size, h.tail_lt, hmod⟩
    · exact ⟨h.size, h.tail_lt, hmod⟩
  · exact ⟨h.size, h.tail_lt, h.head_lt⟩

/-- A write of the peer leaves the positions inside the ring. -/
theorem onDataWritten_inRing (data : List UInt8) (h : s.InRing cells) : (s.onDataWritten data).InRing cells := by
  induction data generalizing s with
  | nil => exact h
  | cons c data ih => exact ih (receive_inRing h c)

/-- Whatever arrives between two statements, the positions stay inside the ring. -/
theorem arrive_inRing (gap : Gap) (h : s.InRing cells) : (s.arrive gap).InRing cells := by
  induction gap generalizing s with
  | nil => exact h
  | cons data gap ih => exact ih (onDataWritten_inRing data h)

/-- The tail is moved modulo the ring's size. -/
theorem moveTail_inRing (k : Nat) (h : s.InRing cells) : (s.moveTail k).InRing cells := by
  refine ⟨h.size, ?_, h.head_lt⟩
  change (s.rxBufferTail + k) % s.rxBufferSize < cells
  rw [h.size]
  exact Nat.mod_lt _ h.pos

/-- Taking a byte leaves the positions inside the ring. -/
theorem takeByte_inRing (h : s.InRing cells) (w : Nat → Gap) : (s.takeByte w).2.InRing cells :=
  moveTail_inRing 1 (arrive_inRing _ (arrive_inRing _ h))

/-- `getc` leaves the positions inside the ring. -/
theorem getc_inRing (h : s.InRing cells) (w : Nat → Gap) : (s.getc w).2.InRing cells := by
  unfold getc
  split
  · exact h
  · exact takeByte_inRing h w

/-- `read` leaves the positions inside the ring. -/
theorem read_inRing (len : Nat) (h : s.InRing cells) (w : Nat → Gap) : (s.read len w).2.InRing cells := by
  induction len generalizing s w with
  | zero => exact h
  | succ len ih =>
    have hgetc := getc_inRing (arrive_inRing (w 0) h) fun k => w (k + 1)
    unfold read
    obtain ⟨⟨c, s₁⟩, hc⟩ : ∃ r, (s.arrive (w 0)).getc (fun k => w (k + 1)) = r := ⟨_, rfl⟩
    rw [hc] at hgetc ⊢
    cases c with
    | none => exact hgetc
    | some c => exact ih hgetc _

/-- The search for a delimiter leaves the positions inside the ring. -/
theorem findDelimeter_inRing (delims : ManagedString) (fuel : Nat) (h : s.InRing cells) (localTail : Nat)
    (w : Nat → Gap) : (s.findDelimeter delims localTail w fuel).2.InRing cells := by
  induction fuel generalizing s localTail w with
  | zero => exact h
  | succ fuel ih =>
    unfold findDelimeter
    dsimp only
    split
    · split
      · exact arrive_inRing _ (arrive_inRing _ h)
      · exact ih (arrive_inRing _ (arrive_inRing _ h)) _ _
    · exact arrive_inRing _ h

/-- The copy out of the ring leaves the positions inside it. -/
theorem circularCopy_inRing (fuel : Nat) (h : s.InRing cells) (tailPosition headPosition : Nat) (w : Nat → Gap) :
    (s.circularCopy tailPosition headPosition w fuel).2.InRing cells := by
  induction fuel generalizing s tailPosition w with
  | zero => exact h
  | succ fuel ih =>
    unfold circularCopy
    split
    · exact ih (arrive_inRing _ h) _ _
    · exact h

/-- Taking the bytes up to a delimiter leaves the positions inside the ring. -/
theorem takeUntil_inRing (h : s.InRing cells) (preservedTail foundIndex : Nat) (w : Nat → Gap) (w' : Gap) :
    (s.takeUntil preservedTail foundIndex w w').2.InRing cells :=
  moveTail_inRing _ (arrive_inRing _ (circularCopy_inRing _ h _ _ _))

/-- `readUntil` leaves the positions inside the ring. -/
theorem readUntil_inRing (h : s.InRing cells) (delims : ManagedString) (w w' : Nat → Gap) (w'' : Gap) :
    (s.readUntil delims w w' w'').2.InRing cells := by
  have hfind := findDelimeter_inRing delims s.rxBufferSize h s.rxBufferTail w
  unfold readUntil
  dsimp only
  obtain ⟨⟨found, s₁⟩, hf⟩ : ∃ r, s.findDelimeter delims s.rxBufferTail w s.rxBufferSize = r := ⟨_, rfl⟩
  rw [hf] at hfind ⊢
  cases found with
  | none => exact hfind
  | some i => exact takeUntil_inRing hfind s.rxBufferTail i w' w''

/-- Every call leaves the positions inside the ring. -/
theorem perform_inRing (h : s.InRing cells) (a : UARTAction) : (s.perform a).2.InRing cells := by
  cases a with
  | packet data => exact onDataWritten_inRing data h
  | getc w => exact getc_inRing h w
  | read len w => exact read_inRing len h w
  | readUntil delims w w' w'' => exact readUntil_inRing h delims w w' w''

/-- `eventAfter` leaves the positions inside the ring. -/
theorem eventAfter_inRing (h : s.InRing cells) (len : Int) (w : Nat → Gap) : (s.eventAfter len w).InRing cells := by
  have hstart := arrive_inRing (w 0) h
  exact arrive_inRing _ ⟨hstart.size, hstart.tail_lt, hstart.head_lt⟩

/-- `eventOn` leaves the positions inside the ring. -/
theorem eventOn_inRing (h : s.InRing cells) (delims : ManagedString) (w : Nat → Gap) : (s.eventOn delims w).InRing cells := by
  have hstart := arrive_inRing (w 0) h
  exact arrive_inRing _ ⟨hstart.size, hstart.tail_lt, hstart.head_lt⟩

/-- A `getc` that may sleep leaves the positions inside the ring. -/
theorem getcSleep_inRing (h : s.InRing cells) (w : Nat → Gap) : (s.getcSleep w).2.InRing cells := by
  unfold getcSleep
  split
  · exact takeByte_inRing h w
  · exact eventAfter_inRing (arrive_inRing (w 0) h) 1 fun k => w (k + 1)

/-- The loop of `read` over single bytes leaves the positions inside the ring. -/
theorem readBytes_inRing (left : Nat) (h : s.InRing cells) (w : Nat → Gap) : (s.readBytes left w).2.2.InRing cells := by
  induction left generalizing s w with
  | zero => exact h
  | succ left ih =>
    have hgetc := getcSleep_inRing h w
    unfold readBytes
    obtain ⟨⟨c, s₁⟩, hc⟩ : ∃ r, s.getcSleep w = r := ⟨_, rfl⟩
    rw [hc] at hgetc ⊢
    cases c with
    | none => exact hgetc
    | some c => exact ih hgetc _

/-- Counting the unread bytes leaves the positions inside the ring. -/
theorem rxBufferedSize_inRing (h : s.InRing cells) (gap : Gap) : (s.rxBufferedSize gap).2.InRing cells := by
  unfold rxBufferedSize
  dsimp only
  split
  · exact arrive_inRing _ h
  · exact arrive_inRing _ h

/-- A `read` that may sleep leaves the positions inside the ring. -/
theorem readSleep_inRing (h : s.InRing cells) (len : Nat) (w : Nat → Gap) : (s.readSleep len w).2.2.InRing cells := by
  have hfirst := arrive_inRing (w 1) (rxBufferedSize_inRing h (w 0))
  unfold readSleep
  dsimp only
  split
  · exact eventAfter_inRing (arrive_inRing (w 3) (rxBufferedSize_inRing hfirst (w 2))) _ fun k => w (k + 4)
  · exact readBytes_inRing len hfirst _

/-- A `readUntil` that may sleep leaves the positions inside the ring. -/
theorem readUntilSleep_inRing (h : s.InRing cells) (delims : ManagedString) (w w' : Nat → Gap) (w'' : Gap) :
    (s.readUntilSleep delims w w' w'').2.2.InRing cells := by
  have hfind := findDelimeter_inRing delims s.rxBufferSize h s.rxBufferTail w
  unfold readUntilSleep
  dsimp only
  obtain ⟨⟨found, s₁⟩, hf⟩ : ∃ r, s.findDelimeter delims s.rxBufferTail w s.rxBufferSize = r := ⟨_, rfl⟩
  rw [hf] at hfind ⊢
  cases found with
  | none => exact eventOn_inRing hfind _ _
  | some i => exact takeUntil_inRing hfind _ _ _ _

/-- A `readUntil` that was woken leaves the positions inside the ring. -/
theorem readUntilWoken_inRing (h : s.InRing cells) (preservedTail : Nat) (w : Nat → Gap) (w' : Gap) :
    (s.readUntilWoken preservedTail w w').2.InRing cells := by
  have hcleared : ({ s with delimeters := [] } : UARTService).InRing cells := ⟨h.size, h.tail_lt, h.head_lt⟩
  unfold readUntilWoken
  dsimp only
  split
  · exact takeUntil_inRing hcleared preservedTail _ w w'
  · exact hcleared

/-- A fiber that goes on leaves the positions inside the ring. -/
theorem resume_inRing (h : s.InRing cells) (w : Nat → Gap) (w' : Gap) (b : Blocked) : (s.resume w w' b).2.2.InRing cells := by
  cases b with
  | getc => exact takeByte_inRing h w
  | read len => exact readBytes_inRing len h w
  | readGetc left => exact readBytes_inRing left (takeByte_inRing h w) _
  | readUntil preservedTail => exact readUntilWoken_inRing h preservedTail w w'

end UARTService

/-- Every step of the fibers leaves the positions inside the ring. -/
theorem UARTReaders.step_inRing {s : UARTReaders} {cells : Nat} (h : s.uart.InRing cells) (a : ReaderStep) :
    (s.step a).uart.InRing cells := by
  cases a with
  | async action => exact UARTService.perform_inRing h action
  | getc w =>
    have hgetc := UARTService.getcSleep_inRing h w
    unfold UARTReaders.step
    dsimp only
    obtain ⟨⟨c, uart⟩, hc⟩ : ∃ r, s.uart.getcSleep w = r := ⟨_, rfl⟩
    rw [hc] at hgetc ⊢
    cases c with
    | none => exact hgetc
    | some c => exact hgetc
  | read len w => exact UARTService.readSleep_inRing h len w
  | readUntil delims w w' w'' => exact UARTService.readUntilSleep_inRing h delims w w' w''
  | resume i w w' =>
    unfold UARTReaders.step
    dsimp only
    split
    · exact h
    · split
      · exact UARTService.resume_inRing h w w' _
      · exact h

namespace MicroBitUARTService

/-- The sizes are not zero, the indices are below them, and the four parts lie apart from each other in the allocated memory;
each ring has the cells for the bytes that were asked for and for the one that stays free, and each attribute its size. -/
structure Intact (rxBufferSize txBufferSize : UInt8) (s : MicroBitUARTService) : Prop where
  rx_size : s.rx.uart.rxBufferSize ≠ 0
  rx_indices : s.rx.uart.rxBufferHead < s.rx.uart.rxBufferSize ∧ s.rx.uart.rxBufferTail < s.rx.uart.rxBufferSize
  tx_size : s.tx.txBufferSize ≠ 0
  tx_indices : s.tx.txBufferHead < s.tx.txBufferSize ∧ s.tx.txBufferTail < s.tx.txBufferSize
  apart : s.areas.Pairwise Area.Apart
  inside : ∀ a ∈ s.areas, a.start + a.length ≤ s.size
  rx_cells : rxBufferSize.toNat < s.rxBuffer.length ∧ s.rxBuffer.length = s.rx.uart.rxBufferSize
  tx_cells : txBufferSize.toNat < s.txBuffer.length ∧ s.txBuffer.length = s.tx.txBufferSize
  attributes : s.rxAttribute.length = MICROBIT_UART_S_ATTRSIZE ∧ s.txAttribute.length = MICROBIT_UART_S_ATTRSIZE

/-- What the steps of the two parts keep. -/
structure Kept (rxBufferSize txBufferSize : UInt8) (rxBuffHeadMatch : Int) (s : MicroBitUARTService) : Prop where
  rx : s.rx.uart.InRing (rxBufferSize.toNat + 1)
  tx : s.tx.Sound txBufferSize.toNat
  layout : { new rxBufferSize txBufferSize rxBuffHeadMatch with rx := s.rx, tx := s.tx } = s

variable {rxBufferSize txBufferSize : UInt8} {rxBuffHeadMatch : Int}

/-- A new service satisfies the invariant. -/
theorem new_kept (hrx : rxBufferSize.toNat ≤ 254) (htx : txBufferSize.toNat ≤ 254) :
    Kept rxBufferSize txBufferSize rxBuffHeadMatch (new rxBufferSize txBufferSize rxBuffHeadMatch) := by
  have hsound := UARTService.new_sound hrx rxBuffHeadMatch
  exact ⟨⟨hsound.size, hsound.size ▸ hsound.tail_lt, hsound.size ▸ hsound.head_lt⟩, UARTTransmit.new_sound htx, rfl⟩

/-- Every step keeps the invariant. -/
theorem step_kept {s : MicroBitUARTService} (h : Kept rxBufferSize txBufferSize rxBuffHeadMatch s) (a : Step) :
    Kept rxBufferSize txBufferSize rxBuffHeadMatch (s.step a) := by
  obtain ⟨hrx, htx, hlayout⟩ := h
  cases a with
  | receive a => exact ⟨UARTReaders.step_inRing hrx a, htx, by rw [step, ← hlayout]⟩
  | transmit a => exact ⟨hrx, UARTTransmit.step_sound htx a, by rw [step, ← hlayout]⟩

/-- A run keeps the invariant. -/
theorem run_kept (steps : List Step) {s : MicroBitUARTService} (h : Kept rxBufferSize txBufferSize rxBuffHeadMatch s) :
    Kept rxBufferSize txBufferSize rxBuffHeadMatch (s.run steps) := by
  induction steps generalizing s with
  | nil => exact h
  | cons a steps ih => exact ih (step_kept h a)

/-- Below 255 the next byte value is one more. -/
theorem toNat_add_one {n : UInt8} (h : n.toNat ≤ 254) : (n + 1).toNat = n.toNat + 1 := by
  have h1 : (1 : UInt8).toNat = 1 := by decide
  rw [UInt8.toNat_add, h1]
  omega

/-- In a layout of two rings that did not wrap everything has its place. -/
theorem Kept.intact {s : MicroBitUARTService} (h : Kept rxBufferSize txBufferSize rxBuffHeadMatch s)
    (hrx : rxBufferSize.toNat ≤ 254) (htx : txBufferSize.toNat ≤ 254) : Intact rxBufferSize txBufferSize s := by
  obtain ⟨hring, hsound, hlayout⟩ := h
  have hrxCells := toNat_add_one hrx
  have htxCells := toNat_add_one htx
  have hrxSize := hring.size
  have htxSize := hsound.size
  have hrxTail := hring.tail_lt
  have hrxHead := hring.head_lt
  rw [← hlayout]
  unfold new
  refine ⟨?_, ?_, ?_, ⟨hsound.head_lt, hsound.tail_lt⟩, ?_, ?_, ?_, ?_, rfl, rfl⟩
  · change s.rx.uart.rxBufferSize ≠ 0
    omega
  · change s.rx.uart.rxBufferHead < s.rx.uart.rxBufferSize ∧ s.rx.uart.rxBufferTail < s.rx.uart.rxBufferSize
    omega
  · change s.tx.txBufferSize ≠ 0
    omega
  · simp only [areas, List.pairwise_cons, List.forall_mem_cons, Area.Apart]
    simp only [List.not_mem_nil, false_imp_iff, implies_true, List.Pairwise.nil, and_true]
    omega
  · simp only [areas, List.forall_mem_cons, List.not_mem_nil, false_imp_iff, implies_true, and_true]
    omega
  · change rxBufferSize.toNat < (rxBufferSize + 1).toNat ∧ (rxBufferSize + 1).toNat = s.rx.uart.rxBufferSize
    omega
  · change txBufferSize.toNat < (txBufferSize + 1).toNat ∧ (txBufferSize + 1).toNat = s.tx.txBufferSize
    omega

/-- Every state of the service is intact exactly when neither capacity is 255. -/
theorem intact_iff (rxBufferSize txBufferSize : UInt8) (rxBuffHeadMatch : Int) :
    (∀ steps, Intact rxBufferSize txBufferSize ((new rxBufferSize txBufferSize rxBuffHeadMatch).run steps)) ↔
      rxBufferSize ≠ 255 ∧ txBufferSize ≠ 255 := by
  constructor
  · intro h
    have hnew := h []
    constructor
    · rintro rfl
      exact hnew.rx_size (by change (255 + 1) % 2 ^ 8 = 0; decide)
    · rintro rfl
      exact hnew.tx_size (by change (255 + 1) % 2 ^ 8 = 0; decide)
  · rintro ⟨hrx, htx⟩ steps
    have hbound : ∀ n : UInt8, n ≠ 255 → n.toNat ≤ 254 := by
      intro n hn
      have hlt := n.toNat_lt
      have hne : n.toNat ≠ 255 := fun h => hn (UInt8.toNat_inj.mp h)
      omega
    exact (run_kept steps (new_kept (hbound _ hrx) (hbound _ htx))).intact (hbound _ hrx) (hbound _ htx)

/-- A receive buffer for 255 bytes: the ring has no cell. -/
theorem intact_255 : ¬ Intact 255 20 ((new 255 20 (-1)).run []) :=
  fun h => h.rx_size (by decide)

end MicroBitUARTService

end CodalMicrobit

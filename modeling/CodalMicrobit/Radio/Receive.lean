import CodalMicrobit.Radio.Datagram

/-!
# The receive path of the radio

The interrupt of the radio puts the frame it received into a queue and gives the hardware a new buffer; the idle callback
takes the frames off and passes them on, datagrams into a second queue from which the user takes them. The interrupt can
come between any two instructions of the callback, except while `recv` has it disabled.
-/

namespace CodalMicrobit

/-- `MICROBIT_RADIO_MAXIMUM_RX_BUFFERS` -/
def MICROBIT_RADIO_MAXIMUM_RX_BUFFERS : Nat := 4

/-- A frame on the heap, with the number of its arrival, which is not part of it. -/
structure HeapFrame where
  address : Nat
  buf : FrameBuffer
  arrival : Nat

/-- Why a frame was dropped: its arrival, and the length of the queue that had no room for it. -/
inductive Loss where
  | rxQueue (arrival length : Nat)
  | noMemory (arrival : Nat)
  | datagramQueue (arrival length : Nat)

/-- The arrival of the frame. -/
def Loss.arrival : Loss → Nat
  | .rxQueue k _ | .noMemory k | .datagramQueue k _ => k

/-- How far `idleCallback` has come. `p` is its local variable; `packet` is that of the handler it has called. -/
inductive CallbackPoint where
  | outside
  | test
  | datagram (p : Nat)
  | queueing (p : Nat) (packet : HeapFrame)
  | event (p : Nat)
  | firing (p : Nat) (packet : HeapFrame)
  | check (p : Nat)

/-- The receiving part of `MicroBitRadio`, with the queue of its datagram service. `rxBuf` is the address of the buffer the
hardware writes to. The arrivals, the frames given to the user and the frames dropped are a record that no operation
reads. -/
structure Radio where
  rxQueue : List HeapFrame := []
  queueDepth : Nat := 0
  rxBuf : Option Nat := none
  datagramQueue : List HeapFrame := []
  callback : CallbackPoint := .outside
  arrivals : List FrameBuffer := []
  delivered : List HeapFrame := []
  lost : List Loss := []

namespace Radio

/-- The interrupt: the hardware has written `buf` into its buffer, and `queueRxBuf` queues it. `newRxBuf` is what `new`
returns: an address, or nothing for NULL. -/
def queueRxBuf (s : Radio) (buf : FrameBuffer) (newRxBuf : Option Nat) : Radio :=
  match s.rxBuf with
  | none => s
  | some rxBuf =>
    let arrival := s.arrivals.length
    let s := { s with arrivals := s.arrivals ++ [buf] }
    if s.queueDepth ≥ MICROBIT_RADIO_MAXIMUM_RX_BUFFERS then
      { s with lost := s.lost ++ [.rxQueue arrival s.rxQueue.length] }
    else
      match newRxBuf with
      | none => { s with lost := s.lost ++ [.noMemory arrival] }
      | some newRxBuf =>
        { s with
          rxQueue := s.rxQueue ++ [⟨rxBuf, buf, arrival⟩]
          queueDepth := s.queueDepth + 1
          rxBuf := some newRxBuf }

/-- `MicroBitRadio::recv`, which no interrupt divides. -/
def recv (s : Radio) : Option HeapFrame × Radio :=
  match s.rxQueue with
  | [] => (none, s)
  | p :: rest => (some p, { s with rxQueue := rest, queueDepth := s.queueDepth - 1 })

/-- `MicroBitRadioDatagram::packetReceived`, from where it has the packet. The depth it computes is the number of links of
its queue, one less than the frames in it. -/
def datagramReceived (s : Radio) (packet : HeapFrame) : Radio :=
  if s.datagramQueue.length - 1 ≥ MICROBIT_RADIO_MAXIMUM_RX_BUFFERS then
    { s with lost := s.lost ++ [.datagramQueue packet.arrival s.datagramQueue.length] }
  else { s with datagramQueue := s.datagramQueue ++ [packet] }

/-- `MicroBitRadioDatagram::recv`, called by the user. -/
def datagramRecv (s : Radio) : Radio :=
  match s.datagramQueue with
  | [] => s
  | p :: rest => { s with datagramQueue := rest, delivered := s.delivered ++ [p] }

/-- `idleCallback`, from one point to the next. -/
def idle (s : Radio) : Radio :=
  match s.callback with
  | .outside => { s with callback := .test }
  | .test =>
    match s.rxQueue with
    | [] => { s with callback := .outside }
    | p :: _ =>
      if p.buf.protocol = MICROBIT_RADIO_PROTOCOL_DATAGRAM then { s with callback := .datagram p.address }
      else if p.buf.protocol = MICROBIT_RADIO_PROTOCOL_EVENTBUS then { s with callback := .event p.address }
      else { s with callback := .check p.address }
  | .datagram p =>
    match s.recv with
    | (none, s) => s
    | (some packet, s) => { s with callback := .queueing p packet }
  | .queueing p packet => { s.datagramReceived packet with callback := .check p }
  | .event p =>
    match s.recv with
    | (none, s) => s
    | (some packet, s) => { s with callback := .firing p packet }
  | .firing p _ => { s with callback := .check p }
  | .check p =>
    -- the frame is still there: nobody has taken it
    if s.rxQueue.head?.map (·.address) = some p then { s.recv.2 with callback := .test }
    else { s with callback := .test }

/-- The packet a handler has in hand. -/
def held (s : Radio) : List HeapFrame :=
  match s.callback with
  | .queueing _ packet | .firing _ packet => [packet]
  | _ => []

/-- The frames on their way to the user, in the order in which they will reach a handler or have done so. -/
def waiting (s : Radio) : List HeapFrame := s.datagramQueue ++ s.held ++ s.rxQueue

/-- The addresses in use. -/
def live (s : Radio) : List Nat := s.rxBuf.toList ++ s.waiting.map (·.address)

/-- What can happen: an interrupt, for which `new` returns an address that is not in use or fails; the idle callback goes on;
the user asks for a datagram. -/
inductive Step : Radio → Radio → Prop where
  | interrupt (s : Radio) (buf : FrameBuffer) (newRxBuf : Option Nat) (hnew : ∀ a, newRxBuf = some a → a ∉ s.live) :
      Step s (s.queueRxBuf buf newRxBuf)
  | idle (s : Radio) : Step s s.idle
  | recv (s : Radio) : Step s s.datagramRecv

/-- The states a radio can come to after `enable`. -/
inductive Reachable : Radio → Prop where
  | enable (rxBuf : Nat) : Reachable { rxBuf := some rxBuf }
  | step {s s' : Radio} : Reachable s → Step s s' → Reachable s'

end Radio

end CodalMicrobit

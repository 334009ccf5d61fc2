import CodalMicrobit.Lib.Broadcast
import CodalMicrobit.Radio.Receive

/-!
# Micro:bits that share a radio channel

The radio carries datagrams, and the events of the message bus for which the program has registered. An event that a
micro:bit raises is put into a frame by `eventReceived`, once for each registration that matches it, and the others fire it
on their own bus. `suppressForwarding` is to keep them from sending it again.
-/

namespace CodalMicrobit

open Nor

/-- `MICROBIT_RADIO_DEFAULT_GROUP` -/
def MICROBIT_RADIO_DEFAULT_GROUP : UInt8 := 0

/-- `MICROBIT_RADIO_DEFAULT_FREQUENCY` -/
def MICROBIT_RADIO_DEFAULT_FREQUENCY : Nat := 7

/-- The message bus and its `Event`, which are not part of this repository. `size` is `sizeof(Event)`, `bytes` is an event as it lies
in memory, with the bytes between its members as they happen to be, and `read` is the event that lies there. `matching` is the
number of the registrations of `eventReceived` that match an event. -/
structure MessageBus where
  Event : Type
  Bus : Type
  size : Nat
  bytes : Event → Memory → List UInt8
  read : List UInt8 → Event
  matching : Bus → Event → Nat

/-- What the radio relies on: an event has room in a packet, and is the one that lies in a copy of its bytes. -/
structure MessageBus.Lawful (B : MessageBus) : Prop where
  size_le : B.size + MICROBIT_RADIO_HEADER_SIZE - 1 ≤ MICROBIT_RADIO_MAX_PACKET_SIZE
  bytes_length : ∀ e padding, (B.bytes e padding).length = B.size
  read_bytes : ∀ e padding, B.read (B.bytes e padding) = e

/-- A call of `eventReceived` that the message bus has still to make. The number is that of the raise the call comes from,
and is not part of it; an event that came over the radio has none. -/
structure Call (B : MessageBus) where
  event : B.Event
  raise : Option Nat

/-- A micro:bit, as far as its radio goes, while Bluetooth is not running. The events fired on arrival, with the number of the
arrival, are a record that no operation reads. -/
structure Node (B : MessageBus) where
  radio : Radio
  messageBus : B.Bus
  group : UInt8 := MICROBIT_RADIO_DEFAULT_GROUP
  band : Nat := MICROBIT_RADIO_DEFAULT_FREQUENCY
  suppressForwarding : Bool := false
  calls : List (Call B) := []
  fired : List (Nat × B.Event) := []

section

variable {B : MessageBus}

namespace MicroBitRadioEvent

/-- The frame that `eventReceived` fills in. It is a local variable: `stack` is what its memory held before. -/
def frame (stack : FrameBuffer) (e : B.Event) (padding : Memory) : FrameBuffer :=
  let length := UInt8.ofNat (B.size + MICROBIT_RADIO_HEADER_SIZE - 1)
  let buf := put stack 0 [length, 1, 0, MICROBIT_RADIO_PROTOCOL_EVENTBUS]
  put buf FrameBuffer.payloadAt (B.bytes e padding)

/-- The event in the payload of a packet. -/
def event (p : FrameBuffer) : B.Event := B.read (slice p FrameBuffer.payloadAt B.size)

/-- `eventReceived`: what is transmitted, if anything is. -/
def eventReceived (s : Node B) (bleRunning : Bool) (stack : FrameBuffer) (e : B.Event) (padding : Memory) :
    Option Transmission :=
  if s.suppressForwarding then none else (MicroBitRadio.send bleRunning (some (frame stack e padding))).2

end MicroBitRadioEvent

namespace Node

/-- `fire`: the registrations are with `MESSAGE_BUS_LISTENER_IMMEDIATE`, so the bus makes the calls before it returns. -/
def fire (s : Node B) (e : B.Event) (raise : Option Nat) : Node B :=
  { s with calls := List.replicate (B.matching s.messageBus e) ⟨e, raise⟩ ++ s.calls }

/-- `MicroBitRadio::setGroup` -/
def setGroup (s : Node B) (bleRunning : Bool) (group : UInt8) : ErrorCode × Node B :=
  if bleRunning then (.DEVICE_NOT_SUPPORTED, s) else (.DEVICE_OK, { s with group })

/-- `MicroBitRadio::setFrequencyBand` -/
def setFrequencyBand (s : Node B) (bleRunning : Bool) (band : Int) : ErrorCode × Node B :=
  if bleRunning then (.DEVICE_NOT_SUPPORTED, s)
  else if band < 0 ∨ band > 100 then (.DEVICE_INVALID_PARAMETER, s)
  else (.DEVICE_OK, { s with band := band.toNat })

/-- `MicroBitRadio::idleCallback`, from one point to the next, with the parts of `MicroBitRadioEvent::packetReceived` before
and behind the call of `fire`. -/
def idle (s : Node B) : Node B :=
  let radio := s.radio.idle
  match s.radio.callback, radio.callback with
  | .event _, .firing _ packet =>
    let e := MicroBitRadioEvent.event packet.buf
    let s := { s with radio, suppressForwarding := true, fired := s.fired ++ [(packet.arrival, e)] }
    s.fire e none
  | .firing _ _, _ => { s with radio, suppressForwarding := false }
  | _, _ => { s with radio }

end Node

end

/-- What a frame on the air is: a call of `eventReceived`, a datagram, or a frame of another protocol. -/
inductive Cause where
  | event (raise : Option Nat)
  | datagram (data : List UInt8)
  | other
  deriving DecidableEq

/-- A transmission, and the micro:bits that were in the group and on the band of the sender then. -/
structure Sent (ι : Type) where
  sender : ι
  cause : Cause
  air : Transmission
  audience : ι → Bool

/-- An event that a program raised, and the number of the registrations that matched it then. -/
structure Raise (ι : Type) (B : MessageBus) where
  node : ι
  event : B.Event
  registered : Nat

/-- Micro:bits within reach of each other. -/
structure Network (ι : Type) (B : MessageBus) where
  nodes : ι → Node B
  medium : Broadcast.Medium ι (Sent ι) := {}
  raised : List (Raise ι B) := []

namespace Network

variable {ι : Type} [DecidableEq ι] {B : MessageBus}

/-- The radios whose address and frequency let them hear what a micro:bit sends now. -/
def audience (net : Network ι B) (i j : ι) : Bool :=
  j ≠ i && (net.nodes j).group == (net.nodes i).group && (net.nodes j).band == (net.nodes i).band

/-- What a call that uses the radio put on the air, if anything: it reaches those who hear it. The sender's own receiver is
started anew. -/
def broadcast (net : Network ι B) (i : ι) (cause : Cause) (air : Option Transmission) (hears : ι → Bool) : Network ι B :=
  match air with
  | none => net
  | some air =>
    { net with
      medium := (net.medium.drop i).send ⟨i, cause, air, net.audience i⟩ fun j => net.audience i j && hears j }

/-- What happens on one micro:bit. -/
def on (net : Network ι B) (i : ι) (s : Node B) : Network ι B := { net with nodes := Function.update net.nodes i s }

/-- A program raises an event. -/
def raise (net : Network ι B) (i : ι) (e : B.Event) : Network ι B :=
  let s := (net.nodes i).fire e (some net.raised.length)
  { net.on i s with raised := net.raised ++ [⟨i, e, B.matching (net.nodes i).messageBus e⟩] }

/-- The message bus makes the next call. -/
def call (net : Network ι B) (i : ι) (stack : FrameBuffer) (padding : Memory) (hears : ι → Bool) : Network ι B :=
  let s := net.nodes i
  match s.calls with
  | [] => net
  | c :: calls =>
    (net.on i { s with calls }).broadcast i (.event c.raise)
      (MicroBitRadioEvent.eventReceived s false stack c.event padding) hears

/-- `RADIO_IRQHandler`, when a frame has come whole: the buffer held `old` before. -/
def interrupt (net : Network ι B) (i : ι) (old : FrameBuffer) (newRxBuf : Option Nat) : Network ι B :=
  match (net.medium.receiver i).bind (net.medium.sent[·]?) with
  | none => net
  | some t =>
    let s := net.nodes i
    { net.on i { s with radio := s.radio.queueRxBuf (MicroBitRadio.receive old t.air) newRxBuf } with
      medium := net.medium.take i }

/-- What can happen: a program raises an event, sends a datagram or a frame of another protocol, takes a datagram, changes the
registrations on its bus or moves to another group or band; the message bus makes a call; a frame comes whole, or is lost; the idle
callback goes on, after the calls it has to wait for. -/
inductive Step : Network ι B → Network ι B → Prop where
  | raise (net : Network ι B) (i : ι) (e : B.Event) : Step net (net.raise i e)
  | call (net : Network ι B) (i : ι) (stack : FrameBuffer) (padding : Memory) (hears : ι → Bool) :
      Step net (net.call i stack padding hears)
  | datagram (net : Network ι B) (i : ι) (stack : FrameBuffer) (data : List UInt8) (hears : ι → Bool) :
      Step net (net.broadcast i (.datagram data) (MicroBitRadioDatagram.sendData false stack data).air hears)
  | other (net : Network ι B) (i : ι) (f : FrameBuffer) (hears : ι → Bool)
      (hd : f.protocol ≠ MICROBIT_RADIO_PROTOCOL_DATAGRAM) (he : f.protocol ≠ MICROBIT_RADIO_PROTOCOL_EVENTBUS) :
      Step net (net.broadcast i .other (MicroBitRadio.send false (some f)).2 hears)
  | recv (net : Network ι B) (i : ι) :
      Step net (net.on i { net.nodes i with radio := (net.nodes i).radio.datagramRecv })
  | listen (net : Network ι B) (i : ι) (messageBus : B.Bus) : Step net (net.on i { net.nodes i with messageBus })
  | setGroup (net : Network ι B) (i : ι) (group : UInt8) : Step net (net.on i ((net.nodes i).setGroup false group).2)
  | setFrequencyBand (net : Network ι B) (i : ι) (band : Int) :
      Step net (net.on i ((net.nodes i).setFrequencyBand false band).2)
  | interrupt (net : Network ι B) (i : ι) (old : FrameBuffer) (newRxBuf : Option Nat)
      (hnew : ∀ a, newRxBuf = some a → a ∉ (net.nodes i).radio.live) : Step net (net.interrupt i old newRxBuf)
  | lose (net : Network ι B) (i : ι) : Step net { net with medium := net.medium.drop i }
  | idle (net : Network ι B) (i : ι) (hcalls : (net.nodes i).calls = []) : Step net (net.on i (net.nodes i).idle)

/-- The states the micro:bits can come to after each has enabled its radio. -/
inductive Reachable : Network ι B → Prop where
  | enable (rxBuf : ι → Nat) (group : ι → UInt8) (band : ι → Nat) (messageBus : ι → B.Bus) :
      Reachable { nodes := fun i =>
        { radio := { rxBuf := some (rxBuf i) }, messageBus := messageBus i, group := group i, band := band i } }
  | step {net net' : Network ι B} : Reachable net → Step net net' → Reachable net'

end Network

end CodalMicrobit

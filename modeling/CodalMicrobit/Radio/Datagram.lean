import CodalMicrobit.FSCache

/-!
# Datagrams over the radio

A datagram travels in one frame: a length byte, three header bytes and at most 32 bytes of payload, in the order in which
they lie in memory. Here are the tests on the way out, what the hardware puts on the air, and what the peer reads back.
-/

namespace CodalMicrobit

open Nor

/-- `MICROBIT_RADIO_MAX_PACKET_SIZE` -/
def MICROBIT_RADIO_MAX_PACKET_SIZE : Nat := 32

/-- `MICROBIT_RADIO_HEADER_SIZE` -/
def MICROBIT_RADIO_HEADER_SIZE : Nat := 4

/-- `MICROBIT_RADIO_PROTOCOL_DATAGRAM` -/
def MICROBIT_RADIO_PROTOCOL_DATAGRAM : UInt8 := 1

/-- `MICROBIT_RADIO_PROTOCOL_EVENTBUS` -/
def MICROBIT_RADIO_PROTOCOL_EVENTBUS : UInt8 := 2

/-- `FrameBuffer`, as the memory that starts at its address: the length of the bytes that follow it, version, group,
protocol, and the payload. Behind the payload lie `next` and `rssi`. -/
abbrev FrameBuffer := Memory

namespace FrameBuffer

/-- The offsets of the fields. -/
def payloadAt : Nat := MICROBIT_RADIO_HEADER_SIZE

def nextAt : Nat := MICROBIT_RADIO_HEADER_SIZE + MICROBIT_RADIO_MAX_PACKET_SIZE

def length (f : FrameBuffer) : Nat := (f 0).toNat

def protocol (f : FrameBuffer) : UInt8 := f 3

end FrameBuffer

/-- What one transmission puts on the air. -/
structure Transmission where
  length : UInt8
  bytes : List UInt8

namespace MicroBitRadio

/-- The hardware's part: the length byte, and as many of the bytes after it as `PCNF1.MAXLEN` allows. -/
def transmit (f : FrameBuffer) : Transmission where
  length := f 0
  bytes := slice f 1 (min f.length MICROBIT_RADIO_MAX_PACKET_SIZE)

/-- The receiving hardware's part: the buffer keeps what it held behind the bytes that came. -/
def receive (rxBuf : FrameBuffer) (p : Transmission) : FrameBuffer := put rxBuf 0 (p.length :: p.bytes)

/-- `MicroBitRadio::send`: what is transmitted, if anything is. -/
def send (bleRunning : Bool) (buffer : Option FrameBuffer) : ErrorCode × Option Transmission :=
  if bleRunning then (.DEVICE_NOT_SUPPORTED, none)
  else
    match buffer with
    | none => (.DEVICE_INVALID_PARAMETER, none)
    | some f =>
      if f.length > MICROBIT_RADIO_MAX_PACKET_SIZE + MICROBIT_RADIO_HEADER_SIZE - 1 then
        (.DEVICE_INVALID_PARAMETER, none)
      else (.DEVICE_OK, some (transmit f))

end MicroBitRadio

namespace MicroBitRadioDatagram

/-- What a call of `send` does: its result, the frame on its stack as the call leaves it, and what went on the air. -/
structure Sent where
  code : ErrorCode
  buf : FrameBuffer
  air : Option Transmission

/-- `send`. The frame is a local variable: `stack` is what its memory, and the memory behind it, held before. -/
def send (bleRunning : Bool) (stack : FrameBuffer) (buffer : Option Memory) (len : Int) : Sent :=
  match buffer with
  | none => ⟨.DEVICE_INVALID_PARAMETER, stack, none⟩
  | some buffer =>
    if len < 0 ∨ len > MICROBIT_RADIO_MAX_PACKET_SIZE + MICROBIT_RADIO_HEADER_SIZE - 1 then
      ⟨.DEVICE_INVALID_PARAMETER, stack, none⟩
    else
      let length := UInt8.ofNat (len.toNat + MICROBIT_RADIO_HEADER_SIZE - 1)
      let buf := put stack 0 [length, 1, 0, MICROBIT_RADIO_PROTOCOL_DATAGRAM]
      let buf := put buf FrameBuffer.payloadAt (slice buffer 0 len.toNat)
      let (code, air) := MicroBitRadio.send bleRunning (some buf)
      ⟨code, buf, air⟩

/-- `send` of a `PacketBuffer` or a `ManagedString`. -/
def sendData (bleRunning : Bool) (stack : FrameBuffer) (data : List UInt8) : Sent :=
  send bleRunning stack (some fun k => data.getD k 0) data.length

/-- An `int` where the parameter is a `size_t`, of 32 bits. -/
def size_t (l : Int) : Nat := (l % 2 ^ 32).toNat

/-- `recv`, of the frame at the head of the queue: the number of bytes, and the bytes copied into the caller's buffer. -/
def recv (p : FrameBuffer) (len : Int) : Int × List UInt8 :=
  let l := min len (p.length - (MICROBIT_RADIO_HEADER_SIZE - 1 : Nat))
  (l, slice p FrameBuffer.payloadAt (size_t l))

end MicroBitRadioDatagram

end CodalMicrobit

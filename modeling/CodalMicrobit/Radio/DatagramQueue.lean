import CodalMicrobit.Radio.Receive

/-!
# The queue of datagrams

The part of `MicroBitRadioDatagram` between the radio and the user: `packetReceived` counts as it walks to the last frame of
its queue, and the two functions called `recv` take the first frame off and copy its payload out, as long as the frame's
own length byte says it is.
-/

namespace CodalMicrobit

open Nor

/-- A frame in the queue, with the signal strength that lies behind its payload. -/
structure QueuedFrame where
  buf : FrameBuffer
  rssi : Int

/-- `PacketBuffer`, as what its pointer leads to. -/
structure PacketBuffer where
  length : UInt8
  rssi : Int
  payload : List UInt8

/-- `PacketBuffer::init`. Without data the payload is what the allocated memory held before. -/
def PacketBuffer.init (heap : Memory) (data : Option Memory) (length rssi : Int) : PacketBuffer :=
  let length := if length < 0 then 0 else length.toNat
  { length := UInt8.ofNat length
    rssi := rssi
    payload := slice (data.getD heap) 0 length }

/-- `PacketBuffer::EmptyPacket`, which is one byte long. -/
def PacketBuffer.EmptyPacket (heap : Memory) : PacketBuffer := .init heap none 1 0

/-- The queue. The lengths it had when it dropped a frame are a record that no operation reads. -/
structure DatagramQueue where
  rxQueue : List QueuedFrame := []
  dropped : List Nat := []

namespace DatagramQueue

/-- The loop of `packetReceived`, over the frames that follow the one `p` points to. -/
def walk (queueDepth : Nat) : List QueuedFrame → Nat
  | [] => queueDepth
  | _ :: rest => walk (queueDepth + 1) rest

/-- `MicroBitRadioDatagram::packetReceived`, and whether it raises `MICROBIT_RADIO_EVT_DATAGRAM`. -/
def packetReceived (s : DatagramQueue) (packet : QueuedFrame) : Bool × DatagramQueue :=
  match s.rxQueue with
  | [] => (true, { s with rxQueue := [packet] })
  | _ :: rest =>
    let queueDepth := walk 0 rest
    if queueDepth ≥ MICROBIT_RADIO_MAXIMUM_RX_BUFFERS then
      (false, { s with dropped := s.dropped ++ [s.rxQueue.length] })
    else (true, { s with rxQueue := s.rxQueue ++ [packet] })

/-- `MicroBitRadioDatagram::recv` into the caller's buffer: the result and the bytes copied. `buf` is false for NULL. -/
def recv (s : DatagramQueue) (buf : Bool) (len : Int) : Except ErrorCode (Int × List UInt8) × DatagramQueue :=
  match s.rxQueue with
  | [] => (.error .DEVICE_INVALID_PARAMETER, s)
  | p :: rest =>
    if buf = false ∨ len < 0 then (.error .DEVICE_INVALID_PARAMETER, s)
    else (.ok (MicroBitRadioDatagram.recv p.buf len), { s with rxQueue := rest })

/-- The packet that `MicroBitRadioDatagram::recv` makes of a frame. -/
def packet (heap : Memory) (p : QueuedFrame) : PacketBuffer :=
  .init heap (some fun k => p.buf (FrameBuffer.payloadAt + k)) (p.buf.length - (MICROBIT_RADIO_HEADER_SIZE - 1 : Nat)) p.rssi

/-- `MicroBitRadioDatagram::recv` of a `PacketBuffer`. -/
def recvPacket (s : DatagramQueue) (heap : Memory) : PacketBuffer × DatagramQueue :=
  match s.rxQueue with
  | [] => (.EmptyPacket heap, s)
  | p :: rest => (packet heap p, { s with rxQueue := rest })

/-- The calls of the radio and of the user. -/
inductive Call where
  | packetReceived (packet : QueuedFrame)
  | recv (buf : Bool) (len : Int)
  | recvPacket (heap : Memory)

/-- What a call leaves. -/
def after (s : DatagramQueue) : Call → DatagramQueue
  | .packetReceived packet => (s.packetReceived packet).2
  | .recv buf len => (s.recv buf len).2
  | .recvPacket heap => (s.recvPacket heap).2

/-- What the calls leave of the empty queue. -/
def run (calls : List Call) : DatagramQueue := calls.foldl after {}

end DatagramQueue

end CodalMicrobit

import CodalMicrobit.Lib.Ring
import CodalMicrobit.Log.Text

/-!
# The receiving side of the UART service

`MicroBitUARTService` puts the bytes of a packet into a ring buffer when the packet arrives, which is at any time, and
its user takes them out with `getc`, `read` and `readUntil`. All three are modelled in their ASYNC mode, the one that
never blocks. A packet can arrive between any two accesses of the reader to the buffer: each operation is given the
packets that arrive in its gaps.
-/

namespace CodalMicrobit

/-- An event that `onDataWritten` raises. -/
inductive UARTEvent where
  | MICROBIT_UART_S_EVT_DELIM_MATCH
  | MICROBIT_UART_S_EVT_HEAD_MATCH
  | MICROBIT_UART_S_EVT_RX_FULL
  deriving DecidableEq, Repr

/-- The receiving part of `MicroBitUARTService`. Beside the members, it carries the record of the bytes that were put
into the buffer (`accepted`) and of those the tail was moved past (`consumed`), which no operation reads. -/
structure UARTService where
  rxBuffer : Nat → UInt8 := fun _ => 0
  rxBufferHead : Nat := 0
  rxBufferTail : Nat := 0
  rxBufferSize : Nat
  delimeters : ManagedString := []
  rxBuffHeadMatch : Int
  events : List UARTEvent := []
  accepted : List UInt8 := []
  consumed : List UInt8 := []

/-- The packets that arrive between two accesses to the buffer. -/
abbrev Gap := List (List UInt8)

namespace UARTService

/-- The constructor. It leaves `rxBuffHeadMatch` as the memory happens to be; the size is a `uint8_t`. -/
def new (rxBufferSize : Nat) (rxBuffHeadMatch : Int) : UARTService :=
  { rxBufferSize := (rxBufferSize + 1) % 2 ^ 8, rxBuffHeadMatch }

/-- `isReadable` -/
def isReadable (s : UARTService) : Bool := s.rxBufferTail != s.rxBufferHead

/-! ## Packets -/

/-- One turn of the loop of `onDataWritten`. -/
def receive (s : UARTService) (c : UInt8) : UARTService :=
  let newHead := (s.rxBufferHead + 1) % s.rxBufferSize
  if newHead ≠ s.rxBufferTail then
    let matched := (s.delimeters.filter (· == c)).map fun _ => UARTEvent.MICROBIT_UART_S_EVT_DELIM_MATCH
    let s := { s with
      events := s.events ++ matched
      rxBuffer := Function.update s.rxBuffer s.rxBufferHead c
      rxBufferHead := newHead
      accepted := s.accepted ++ [c] }
    if (newHead : Int) = s.rxBuffHeadMatch then
      { s with rxBuffHeadMatch := -1, events := s.events ++ [.MICROBIT_UART_S_EVT_HEAD_MATCH] }
    else s
  else { s with events := s.events ++ [.MICROBIT_UART_S_EVT_RX_FULL] }

/-- `onDataWritten`, for the characteristic of the receiver. -/
def onDataWritten (s : UARTService) (data : List UInt8) : UARTService := data.foldl receive s

/-- The packets of a gap arrive. -/
def arrive (s : UARTService) (gap : Gap) : UARTService := gap.foldl onDataWritten s

/-! ## Reading -/

/-- Move the tail past `k` bytes. -/
def moveTail (s : UARTService) (k : Nat) : UARTService :=
  { s with
    rxBufferTail := (s.rxBufferTail + k) % s.rxBufferSize
    consumed := s.consumed ++ Ring.cells s.rxBuffer s.rxBufferSize s.rxBufferTail k }

/-- `getc(ASYNC)`: a byte, or nothing for `MICROBIT_NO_DATA`. `w` gives the packets of the gap before the byte is loaded
and of the one before the tail is stored. -/
def getc (s : UARTService) (w : Nat → Gap) : Option UInt8 × UARTService :=
  if !s.isReadable then (none, s)
  else
    let s := s.arrive (w 0)
    let c := s.rxBuffer s.rxBufferTail
    let s := s.arrive (w 1)
    (some c, s.moveTail 1)

/-- `read(buf, len, ASYNC)`: what it puts into the buffer. `w` gives the packets of the gaps, three for each byte. -/
def read (s : UARTService) (len : Nat) (w : Nat → Gap) : List UInt8 × UARTService :=
  match len with
  | 0 => ([], s)
  | len + 1 =>
    match (s.arrive (w 0)).getc (fun k => w (k + 1)) with
    | (none, s) => ([], s)
    | (some c, s) =>
      let (rest, s) := s.read len fun k => w (k + 3)
      (c :: rest, s)

/-- The loop of `readUntil` over the stored bytes, from `localTail` on: the place of the first delimiter. `fuel` bounds
the turns. -/
def findDelimeter (s : UARTService) (delimeters : ManagedString) (localTail : Nat) (w : Nat → Gap) :
    Nat → Option Nat × UARTService
  | 0 => (none, s)
  | fuel + 1 =>
    let s := s.arrive (w 0)
    if localTail ≠ s.rxBufferHead then
      let s := s.arrive (w 1)
      let c := s.rxBuffer localTail
      if delimeters.contains c then (some localTail, s)
      else s.findDelimeter delimeters ((localTail + 1) % s.rxBufferSize) (fun k => w (k + 2)) fuel
    else (none, s)

/-- `circularCopy`, of the bytes from `tailPosition` up to `headPosition`. `fuel` bounds the turns. -/
def circularCopy (s : UARTService) (tailPosition headPosition : Nat) (w : Nat → Gap) :
    Nat → List UInt8 × UARTService
  | 0 => ([], s)
  | fuel + 1 =>
    if tailPosition ≠ headPosition then
      let s := s.arrive (w 0)
      let c := s.rxBuffer tailPosition
      let (rest, s) := s.circularCopy ((tailPosition + 1) % s.rxBufferSize) headPosition (fun k => w (k + 1)) fuel
      (c :: rest, s)
    else ([], s)

/-- The end of `readUntil`, which takes the bytes from `preservedTail` up to `foundIndex`, and the one there. -/
def takeUntil (s : UARTService) (preservedTail foundIndex : Nat) (w : Nat → Gap) (w' : Gap) :
    ManagedString × UARTService :=
  let localBuffSize :=
    if preservedTail > foundIndex then s.rxBufferSize - preservedTail + foundIndex else foundIndex - preservedTail
  let (localBuff, s) := s.circularCopy preservedTail foundIndex w s.rxBufferSize
  (localBuff.take localBuffSize, (s.arrive w').moveTail (localBuffSize + 1))

/-- `readUntil(delimeters, ASYNC)`. `w`, `w'` and `w''` give the packets that arrive while it looks for a delimiter, while
it copies, and before it stores the tail. -/
def readUntil (s : UARTService) (delimeters : ManagedString) (w w' : Nat → Gap) (w'' : Gap) :
    ManagedString × UARTService :=
  let preservedTail := s.rxBufferTail
  match s.findDelimeter delimeters preservedTail w s.rxBufferSize with
  | (none, s) => ([], s)
  | (some foundIndex, s) =>
    let localBuffSize :=
      if preservedTail > foundIndex then s.rxBufferSize - preservedTail + foundIndex else foundIndex - preservedTail
    let (localBuff, s) := s.circularCopy preservedTail foundIndex w' s.rxBufferSize
    (localBuff.take localBuffSize, (s.arrive w'').moveTail (localBuffSize + 1))

/-! ## Runs -/

end UARTService

/-- What can happen next: a packet arrives, or the reader makes a call, with packets arriving in its gaps. -/
inductive UARTAction where
  | packet (data : List UInt8)
  | getc (w : Nat → Gap)
  | read (len : Nat) (w : Nat → Gap)
  | readUntil (delimeters : ManagedString) (w w' : Nat → Gap) (w'' : Gap)

namespace UARTService

/-- The service after an action, and the bytes a call returns. -/
def perform (s : UARTService) : UARTAction → List UInt8 × UARTService
  | .packet data => ([], s.onDataWritten data)
  | .getc w => ((s.getc w).1.toList, (s.getc w).2)
  | .read len w => s.read len w
  | .readUntil delimeters w w' w'' => s.readUntil delimeters w w' w''

/-- The service after a sequence of actions. -/
def run (s : UARTService) (actions : List UARTAction) : UARTService := actions.foldl (fun s a => (s.perform a).2) s

/-- The bytes that were accepted and not yet consumed, as they lie in the buffer. -/
def unread (s : UARTService) : List UInt8 :=
  Ring.cells s.rxBuffer s.rxBufferSize s.rxBufferTail (Ring.count s.rxBufferSize s.rxBufferTail s.rxBufferHead)

end UARTService

end CodalMicrobit

import CodalMicrobit.Bluetooth.UARTService

/-!
# Fibers that wait for bytes

In SYNC_SLEEP mode `getc`, `read` and `readUntil` give up the processor in `eventAfter` or `eventOn` when the buffer has not
what they look for. The event that `onDataWritten` raises wakes all the fibers that wait for it, and each goes on when the
scheduler comes to it: as the scheduler is cooperative, from there to its return or to its next wait. Packets arrive at any
time, and more of them while a woken fiber has not had its turn.
-/

namespace CodalMicrobit

/-- Where a fiber waits, with its local variables. -/
inductive Blocked where
  | getc
  /-- In `read`, before its loop. -/
  | read (len : Nat)
  /-- In a `getc` of the loop of `read`, which has so many bytes to go after this one. -/
  | readGetc (left : Nat)
  | readUntil (preservedTail : Nat)
  deriving DecidableEq

/-- The event it waits for. -/
def Blocked.event : Blocked → UARTEvent
  | .getc | .read _ | .readGetc _ => .MICROBIT_UART_S_EVT_HEAD_MATCH
  | .readUntil _ => .MICROBIT_UART_S_EVT_DELIM_MATCH

/-- What a fiber does up to its return or its next wait: the bytes it got, where it waits if it does, and the service. -/
abbrev Segment := List UInt8 × Option Blocked × UARTService

namespace UARTService

/-- `rxBufferedSize`; packets can arrive between its test and the second time it reads the head. -/
def rxBufferedSize (s : UARTService) (gap : Gap) : Int × UARTService :=
  let s' := s.arrive gap
  if s.rxBufferTail > s.rxBufferHead then (s.rxBufferSize - s.rxBufferTail + s'.rxBufferHead, s')
  else (s'.rxBufferHead - s.rxBufferTail, s')

/-- `eventAfter`, up to the wait. -/
def eventAfter (s : UARTService) (len : Int) (w : Nat → Gap) : UARTService :=
  let rxBuffHeadMatch := (s.rxBufferHead + len).tmod s.rxBufferSize
  let s := s.arrive (w 0)
  { s with rxBuffHeadMatch }.arrive (w 1)

/-- `eventOn`, up to the wait. -/
def eventOn (s : UARTService) (delimeters : ManagedString) (w : Nat → Gap) : UARTService :=
  let s := s.arrive (w 0)
  { s with delimeters }.arrive (w 1)

/-- The end of `getc`, which does not look at the head. -/
def takeByte (s : UARTService) (w : Nat → Gap) : UInt8 × UARTService :=
  let s := s.arrive (w 0)
  let c := s.rxBuffer s.rxBufferTail
  let s := s.arrive (w 1)
  (c, s.moveTail 1)

/-- `getc(SYNC_SLEEP)`: a byte, or nothing where it waits. -/
def getcSleep (s : UARTService) (w : Nat → Gap) : Option UInt8 × UARTService :=
  if s.isReadable then
    let (c, s) := s.takeByte w
    (some c, s)
  else (none, (s.arrive (w 0)).eventAfter 1 fun k => w (k + 1))

/-- The loop of `read(buf, len, SYNC_SLEEP)`, with so many bytes to go. -/
def readBytes (s : UARTService) (left : Nat) (w : Nat → Gap) : Segment :=
  match left with
  | 0 => ([], none, s)
  | left + 1 =>
    match s.getcSleep w with
    | (none, s) => ([], some (.readGetc left), s)
    | (some c, s) =>
      let (rest, blocked, s) := s.readBytes left fun k => w (k + 3)
      (c :: rest, blocked, s)

/-- `read(buf, len, SYNC_SLEEP)` -/
def readSleep (s : UARTService) (len : Nat) (w : Nat → Gap) : Segment :=
  let (buffered, s) := s.rxBufferedSize (w 0)
  if len > buffered then
    let (buffered, s) := (s.arrive (w 1)).rxBufferedSize (w 2)
    ([], some (.read len), (s.arrive (w 3)).eventAfter (len - buffered) fun k => w (k + 4))
  else (s.arrive (w 1)).readBytes len fun k => w (k + 2)

/-- `readUntil(delimeters, SYNC_SLEEP)`. `w`, `w'` and `w''` are as for the other mode. -/
def readUntilSleep (s : UARTService) (delimeters : ManagedString) (w w' : Nat → Gap) (w'' : Gap) : Segment :=
  let preservedTail := s.rxBufferTail
  match s.findDelimeter delimeters preservedTail w s.rxBufferSize with
  | (none, s) => ([], some (.readUntil preservedTail), s.eventOn delimeters w')
  | (some foundIndex, s) =>
    let (bytes, s) := s.takeUntil preservedTail foundIndex w' w''
    (bytes, none, s)

/-- `readUntil` after its wait: it takes the last byte that was stored for the delimiter. -/
def readUntilWoken (s : UARTService) (preservedTail : Nat) (w : Nat → Gap) (w' : Gap) : ManagedString × UARTService :=
  let foundIndex : Int := s.rxBufferHead - 1
  let s := { s with delimeters := [] }
  if foundIndex ≥ 0 then s.takeUntil preservedTail foundIndex.toNat w w' else ([], s)

/-- A fiber goes on after its wait. -/
def resume (s : UARTService) (w : Nat → Gap) (w' : Gap) : Blocked → Segment
  | .getc =>
    let (c, s) := s.takeByte w
    ([c], none, s)
  | .read len => s.readBytes len w
  | .readGetc left =>
    let (c, s) := s.takeByte w
    let (rest, blocked, s) := s.readBytes left fun k => w (k + 2)
    (c :: rest, blocked, s)
  | .readUntil preservedTail =>
    let (bytes, s) := s.readUntilWoken preservedTail w w'
    (bytes, none, s)

end UARTService

/-- A fiber that waits, or was woken and has not had its turn. -/
structure ReadFiber where
  blocked : Blocked
  woken : Bool := false
  deriving DecidableEq

/-- The event wakes the fiber, if it is the one it waits for. -/
def ReadFiber.hear (f : ReadFiber) (events : List UARTEvent) : ReadFiber :=
  { f with woken := f.woken || events.contains f.blocked.event }

/-- The service with the fibers that wait for bytes. The bytes that the fibers got are a record that no operation reads. -/
structure UARTReaders where
  uart : UARTService
  fibers : List ReadFiber := []
  returned : List UInt8 := []

/-- What can happen: a packet arrives, or a fiber makes a call in ASYNC mode; a fiber makes a call in SYNC_SLEEP mode; a fiber
that was woken has its turn. -/
inductive ReaderStep where
  | async (action : UARTAction)
  | getc (w : Nat → Gap)
  | read (len : Nat) (w : Nat → Gap)
  | readUntil (delimeters : ManagedString) (w w' : Nat → Gap) (w'' : Gap)
  | resume (i : Nat) (w : Nat → Gap) (w' : Gap)

namespace UARTReaders

/-- After a segment: the events it raised wake the fibers that waited before it, and its own fiber may now wait. -/
def settle (s : UARTReaders) (segment : Segment) : UARTReaders :=
  let (bytes, blocked, uart) := segment
  { uart
    fibers := s.fibers.map (·.hear (uart.events.drop s.uart.events.length)) ++ blocked.toList.map ({ blocked := · })
    returned := s.returned ++ bytes }

/-- The service after a step. -/
def step (s : UARTReaders) : ReaderStep → UARTReaders
  | .async action =>
    let (bytes, uart) := s.uart.perform action
    s.settle (bytes, none, uart)
  | .getc w =>
    match s.uart.getcSleep w with
    | (none, uart) => s.settle ([], some .getc, uart)
    | (some c, uart) => s.settle ([c], none, uart)
  | .read len w => s.settle (s.uart.readSleep len w)
  | .readUntil delimeters w w' w'' => s.settle (s.uart.readUntilSleep delimeters w w' w'')
  | .resume i w w' =>
    match s.fibers[i]? with
    | none => s
    | some f =>
      if f.woken then { s with fibers := s.fibers.eraseIdx i }.settle (s.uart.resume w w' f.blocked) else s

/-- The service after a sequence of steps. -/
def run (s : UARTReaders) (steps : List ReaderStep) : UARTReaders := steps.foldl step s

end UARTReaders

end CodalMicrobit

import CodalMicrobit.Lib.Ring
import CodalMicrobit.Log.Text

/-!
# The transmitting side of the UART service

`MicroBitUARTService` sends what is in its ring buffer in indications of up to 20 bytes, one at a time: the next goes out
when the client has confirmed the last one. A sender in ASYNC mode puts in what fits and returns; one in SYNC_SLEEP mode
gives up the processor with bytes left, and goes on whenever its fiber is scheduled again.
-/

namespace CodalMicrobit

/-- `MICROBIT_UART_S_ATTRSIZE` -/
def MICROBIT_UART_S_ATTRSIZE : Nat := 20

/-- A fiber that `send` has suspended in `schedule()`: its local variables. -/
structure SendFiber where
  buf : List UInt8
  bytesWritten : Nat

/-- The transmitting part of `MicroBitUARTService`, the state of the connection, and the suspended senders. `inFlight` are
the indications the client has not confirmed. Beside these it carries a record of the present connection, which no
operation reads: the bytes of the indications that were confirmed. -/
structure UARTTransmit where
  txBuffer : Nat → UInt8 := fun _ => 0
  txBufferHead : Nat := 0
  txBufferTail : Nat := 0
  txBufferSize : Nat
  value : Nat → UInt8 := fun _ => 0
  txValueSize : Nat := 0
  waitingForEmpty : Bool := false
  connected : Bool := false
  indicateEnabled : Bool := false
  fibers : List SendFiber := []
  inFlight : List (List UInt8) := []
  confirmed : List UInt8 := []

namespace UARTTransmit

/-- The constructor; the size is a `uint8_t`. -/
def new (txBufferSize : Nat) : UARTTransmit := { txBufferSize := (txBufferSize + 1) % 2 ^ 8 }

/-- The loop of `sendNext`, which copies the next bytes into the attribute buffer; `fuel` bounds the turns. -/
def fillValue (s : UARTTransmit) (txBufferNext : Nat) : Nat → UARTTransmit
  | 0 => s
  | fuel + 1 =>
    if s.txValueSize < MICROBIT_UART_S_ATTRSIZE ∧ txBufferNext ≠ s.txBufferHead then
      { s with
        value := Function.update s.value s.txValueSize (s.txBuffer txBufferNext)
        txValueSize := s.txValueSize + 1 }.fillValue ((txBufferNext + 1) % s.txBufferSize) fuel
    else s

/-- `indicateChrValue`: the stack takes the indication. -/
def indicateChrValue (s : UARTTransmit) : UARTTransmit :=
  { s with inFlight := s.inFlight ++ [(List.range s.txValueSize).map s.value] }

/-- `sendNext` -/
def sendNext (s : UARTTransmit) : UARTTransmit :=
  if s.txValueSize ≠ 0 ∨ s.txBufferTail = s.txBufferHead then s
  else if !s.connected || !s.indicateEnabled then s
  else (s.fillValue s.txBufferTail MICROBIT_UART_S_ATTRSIZE).indicateChrValue

/-- The inner loop of `send`: put in what fits. The number of bytes it counts as written. -/
def copy (s : UARTTransmit) : List UInt8 → Nat × UARTTransmit
  | [] => (0, s)
  | c :: rest =>
    let nextHead := (s.txBufferHead + 1) % s.txBufferSize
    if nextHead = s.txBufferTail then (0, s)
    else
      let (k, s) := { s with
        txBuffer := Function.update s.txBuffer s.txBufferHead c
        txBufferHead := nextHead }.copy rest
      (k + 1, s)

/-- `send(buf, length, ASYNC)`: the number of bytes written, or nothing where the code is an error. -/
def sendAsync (s : UARTTransmit) (buf : List UInt8) : Option Nat × UARTTransmit :=
  if buf.length < 1 then (none, s)
  else if !s.connected || !s.indicateEnabled then (none, s)
  else
    let (bytesWritten, s) := s.copy buf
    (some bytesWritten, s.sendNext)

/-- A turn of the outer loop of `send` in SYNC_SLEEP mode, up to `schedule()`. -/
def sleepTurn (s : UARTTransmit) (f : SendFiber) : UARTTransmit :=
  let (k, s) := s.copy (f.buf.drop f.bytesWritten)
  let s := { s with waitingForEmpty := true }.sendNext
  { s with fibers := s.fibers ++ [{ f with bytesWritten := f.bytesWritten + k }] }

/-- `send(buf, length, SYNC_SLEEP)`, up to `schedule()`. -/
def sendSleep (s : UARTTransmit) (buf : List UInt8) : UARTTransmit :=
  if buf.length < 1 then s
  else if !s.connected || !s.indicateEnabled then s
  else s.sleepTurn ⟨buf, 0⟩

/-- `schedule()` returns in the sender number `i`: `send` ends with the number of bytes written, or takes another turn. -/
def resume (s : UARTTransmit) (i : Nat) : Option Nat × UARTTransmit :=
  match s.fibers[i]? with
  | none => (none, s)
  | some f =>
    let s := { s with fibers := s.fibers.eraseIdx i, waitingForEmpty := false }
    if f.bytesWritten = f.buf.length ∧ s.txBufferTail = s.txBufferHead then (some f.bytesWritten, s)
    else if s.connected && s.indicateEnabled then (none, s.sleepTurn f)
    else (some f.bytesWritten, s)

/-- `onConfirmation`, for the oldest indication in flight. -/
def onConfirmation (s : UARTTransmit) : UARTTransmit :=
  match s.inFlight with
  | [] => s
  | bytes :: inFlight =>
    let s := { s with
      inFlight
      confirmed := s.confirmed ++ bytes
      txBufferTail := (s.txBufferTail + s.txValueSize) % s.txBufferSize
      txValueSize := 0 }
    if !s.waitingForEmpty then s.sendNext else s

/-- The connection ends: `onDisconnect`, and the client's choice of indications is forgotten. What was in flight will not
be confirmed any more, and the record of the connection is closed. -/
def onDisconnect (s : UARTTransmit) : UARTTransmit :=
  { s with
    txValueSize := 0
    txBufferTail := 0
    txBufferHead := 0
    connected := false
    indicateEnabled := false
    inFlight := []
    confirmed := [] }

/-- What can happen to the transmitter. -/
inductive Step where
  | connect
  | disconnect
  | enable (on : Bool)
  | sendAsync (buf : List UInt8)
  | sendSleep (buf : List UInt8)
  | resume (i : Nat)
  | sendNext
  | confirmation

/-- The transmitter after a step. -/
def step (s : UARTTransmit) : Step → UARTTransmit
  | .connect => { s with connected := true }
  | .disconnect => s.onDisconnect
  | .enable on => { s with indicateEnabled := on }
  | .sendAsync buf => (s.sendAsync buf).2
  | .sendSleep buf => s.sendSleep buf
  | .resume i => (s.resume i).2
  | .sendNext => s.sendNext
  | .confirmation => s.onConfirmation

/-- The transmitter after a sequence of steps. -/
def run (s : UARTTransmit) (steps : List Step) : UARTTransmit := steps.foldl step s

/-- The bytes in the buffer that are not confirmed. -/
def buffered (s : UARTTransmit) : List UInt8 :=
  Ring.cells s.txBuffer s.txBufferSize s.txBufferTail (Ring.count s.txBufferSize s.txBufferTail s.txBufferHead)

end UARTTransmit

end CodalMicrobit

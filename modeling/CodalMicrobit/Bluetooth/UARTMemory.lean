import CodalMicrobit.Bluetooth.UARTReaders
import CodalMicrobit.Bluetooth.UARTTransmit

/-!
# The memory of the UART service

The constructor of `MicroBitUARTService` allocates both rings and the attributes of both characteristics at once. Its
parameters are 8-bit numbers, and it adds 1 to each before it uses them: for the layout, and as the sizes of the rings.
-/

namespace CodalMicrobit

/-- A part of the allocated memory, from an offset on. -/
structure Area where
  start : Nat
  length : Nat

/-- No byte is in both. -/
def Area.Apart (a b : Area) : Prop := a.start + a.length ≤ b.start ∨ b.start + b.length ≤ a.start

/-- `MicroBitUARTService`: its receiving and its transmitting part, which share no variables, the number of bytes that were
allocated, and where in them its pointers lead. -/
structure MicroBitUARTService where
  rx : UARTReaders
  tx : UARTTransmit
  size : Nat
  rxBuffer : Area
  rxAttribute : Area
  txBuffer : Area
  txAttribute : Area

namespace MicroBitUARTService

/-- The constructor. `rxBuffHeadMatch` is what the memory of that member happens to hold. -/
def new (rxBufferSize txBufferSize : UInt8) (rxBuffHeadMatch : Int) : MicroBitUARTService :=
  let rx := UARTReaders.mk (.new rxBufferSize.toNat rxBuffHeadMatch) [] []
  let tx := UARTTransmit.new txBufferSize.toNat
  let rxBufferSize := (rxBufferSize + 1).toNat
  let txBufferSize := (txBufferSize + 1).toNat
  let txBuffer := rxBufferSize + MICROBIT_UART_S_ATTRSIZE
  { rx
    tx
    size := rxBufferSize + txBufferSize + 2 * MICROBIT_UART_S_ATTRSIZE
    rxBuffer := ⟨0, rxBufferSize⟩
    rxAttribute := ⟨rxBufferSize, MICROBIT_UART_S_ATTRSIZE⟩
    txBuffer := ⟨txBuffer, txBufferSize⟩
    txAttribute := ⟨txBuffer + txBufferSize, MICROBIT_UART_S_ATTRSIZE⟩ }

/-- The four parts. -/
def areas (s : MicroBitUARTService) : List Area := [s.rxBuffer, s.rxAttribute, s.txBuffer, s.txAttribute]

/-- What can happen to the service. -/
inductive Step where
  | receive (step : ReaderStep)
  | transmit (step : UARTTransmit.Step)

/-- The service after a step. -/
def step (s : MicroBitUARTService) : Step → MicroBitUARTService
  | .receive step => { s with rx := s.rx.step step }
  | .transmit step => { s with tx := s.tx.step step }

/-- The service after a sequence of steps. -/
def run (s : MicroBitUARTService) (steps : List Step) : MicroBitUARTService := steps.foldl step s

end MicroBitUARTService

end CodalMicrobit

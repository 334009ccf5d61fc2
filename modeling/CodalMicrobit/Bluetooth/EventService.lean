import Mathlib.Data.UInt
import Mathlib.Tactic.Common

/-!
# The event service

`MicroBitEventService` mirrors the message bus over Bluetooth. A client writes the events it wants to hear of, which
registers a listener for each, and reads, one at a time, the events that this micro:bit wants to hear of. An idle callback
tidies up when the client is gone.
-/

namespace CodalMicrobit

/-- `MicroBitListener`: what the service reads of it. -/
structure MicroBitListener where
  id : UInt16
  value : UInt16
  deriving DecidableEq, Repr

/-- The message bus, by the operations of `EventModel` that the service calls. `listen` and `ignore` are those of the
callback `onMicroBitEvent` of the service, and `owned` are the listeners registered with it. -/
structure EventModel (Bus : Type) where
  listen : Bus → UInt16 → UInt16 → Bus
  ignore : Bus → UInt16 → UInt16 → Bus
  elementAt : Bus → Nat → Option MicroBitListener
  owned : Bus → List MicroBitListener

/-- `MICROBIT_ID_ANY` -/
def MICROBIT_ID_ANY : UInt16 := 0

/-- `MICROBIT_EVT_ANY` -/
def MICROBIT_EVT_ANY : UInt16 := 0

/-- `ignore` with ANY and ANY removes every listener of the service. -/
def EventModel.IgnoresAny {Bus : Type} (M : EventModel Bus) : Prop :=
  ∀ b, M.owned (M.ignore b MICROBIT_ID_ANY MICROBIT_EVT_ANY) = []

/-- `MicroBitEventService` and the connection it serves. Beside the members it carries a record that no operation reads:
the requirements registered and the reads answered since an idle callback last ran without a connection, the reads of the
present connection, and whether an idle callback has run since the last one ended. -/
structure EventService (Bus : Type) where
  messageBus : Bus
  messageBusListenerOffset : UInt16 := 0
  connected : Bool := false
  requirements : Nat := 0
  reads : Nat := 0
  readsInConnection : Nat := 0
  idled : Bool := false

namespace EventService

variable {Bus : Type} (M : EventModel Bus)

/-- The `EventServiceEvent`s in the data of a write: the type and the reason of each, the low byte first. -/
def events : List UInt8 → List (UInt16 × UInt16)
  | t0 :: t1 :: r0 :: r1 :: data =>
    (t0.toUInt16 ||| t1.toUInt16 <<< 8, r0.toUInt16 ||| r1.toUInt16 <<< 8) :: events data
  | _ => []

/-- `onDataWritten`, for the characteristic of the client's requirements. -/
def onDataWritten (s : EventService Bus) (data : List UInt8) : EventService Bus :=
  { s with
    messageBus := (events data).foldl (fun b e => M.listen b e.1 e.2) s.messageBus
    requirements := s.requirements + (events data).length }

/-- The bytes of an `EventServiceEvent`. -/
def reply (l : MicroBitListener) : List UInt8 :=
  [l.id.toUInt8, (l.id >>> 8).toUInt8, l.value.toUInt8, (l.value >>> 8).toUInt8]

/-- `onDataRead`, for the characteristic of the micro:bit's requirements: the value the client reads, empty behind the
last listener. -/
def onDataRead (s : EventService Bus) : List UInt8 × EventService Bus :=
  (((M.elementAt s.messageBus s.messageBusListenerOffset.toNat).map reply).getD [],
    { s with
      messageBusListenerOffset := s.messageBusListenerOffset + 1
      reads := s.reads + 1
      readsInConnection := s.readsInConnection + 1 })

/-- `idleCallback` -/
def idleCallback (s : EventService Bus) : EventService Bus :=
  if !s.connected then
    let s := { s with reads := 0, requirements := 0, idled := true }
    if s.messageBusListenerOffset > 0 then
      { s with
        messageBusListenerOffset := 0
        messageBus := M.ignore s.messageBus MICROBIT_ID_ANY MICROBIT_EVT_ANY }
    else s
  else s

/-- What can happen to the service. -/
inductive Step where
  | connect
  | disconnect
  | write (data : List UInt8)
  | read
  | idle

/-- The service after a step. The stack delivers writes and reads only within a connection, and there is one connection
at a time. -/
def step (s : EventService Bus) : Step → EventService Bus
  | .connect => if s.connected then s else { s with connected := true, readsInConnection := 0, idled := false }
  | .disconnect => { s with connected := false }
  | .write data => if s.connected then s.onDataWritten M data else s
  | .read => if s.connected then (s.onDataRead M).2 else s
  | .idle => s.idleCallback M

/-- The service after a sequence of steps. -/
def run (s : EventService Bus) (steps : List Step) : EventService Bus := steps.foldl (step M) s

end EventService

end CodalMicrobit

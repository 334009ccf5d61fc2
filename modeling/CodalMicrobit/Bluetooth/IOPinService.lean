import CodalMicrobit.FileSystem.Defs

/-!
# The IO pin service

`MicroBitIOPinService` lets a Bluetooth client read and drive the pins of the edge connector. Two characteristics say of each pin
whether it is analog and whether it is an input, and two more take writes that drive pins.
-/

namespace CodalMicrobit

open Nor

/-- `MICROBIT_IO_PIN_SERVICE_PINCOUNT` -/
def MICROBIT_IO_PIN_SERVICE_PINCOUNT : Nat := 19

/-- `IOData` -/
structure IOData where
  pin : UInt8
  value : UInt8
  deriving DecidableEq, Repr

/-- `IOPWMData` -/
structure IOPWMData where
  pin : UInt8
  value : UInt16
  period : UInt32
  deriving DecidableEq, Repr

/-- The characteristics of the service: `mbbs_cIdxADC` and `mbbs_cIdxIO` with the configuration of the pins, `mbbs_cIdxPWM` and
`mbbs_cIdxDATA`. -/
inductive PinCharacteristic where
  | adcConfiguration
  | ioConfiguration
  | pwm
  | data
  deriving DecidableEq, Repr

/-- `microbit_ble_evt_write_t`, with a length that fits its field. -/
structure PinWrite where
  handle : PinCharacteristic
  data : List UInt8
  len : data.length < 2 ^ 16

/-- What is asked of a `MicroBitPin`. -/
inductive PinCall where
  | getDigitalValue
  | getAnalogValue
  | setDigitalValue (value : Nat)
  | setAnalogValue (value : Nat)
  | setAnalogPeriodUs (period : Nat)
  deriving DecidableEq, Repr

/-- A call of a pin of the edge connector. -/
structure PinAccess where
  pin : Nat
  call : PinCall
  deriving DecidableEq, Repr

/-- `MicroBitIOPinService`. What it reads back of the pins for its client is left out. -/
structure IOPinService where
  ioPinServiceADCharacteristicBuffer : UInt32 := 0
  ioPinServiceIOCharacteristicBuffer : UInt32 := 0

namespace IOPinService

/-- The number of the pin that `edgePin` returns. -/
def edgePin (index : Int) : Nat := if index < 0 ∨ index ≥ MICROBIT_IO_PIN_SERVICE_PINCOUNT then 0 else index.toNat

/-- The pairs in the data of a write, as long as there are two bytes left. -/
def ioData : List UInt8 → List IOData
  | pin :: value :: data => ⟨pin, value⟩ :: ioData data
  | _ => []

/-- The fields of the PWM data at the given index. -/
def pwmField (data : List UInt8) (i : Nat) : IOPWMData :=
  let m : Memory := (data.getD · 0)
  { pin := m (7 * i), value := (readU16 m (7 * i + 1)).toUInt16, period := (readU32 m (7 * i + 3)).toUInt32 }

/-- The PWM data that a write is taken for. The number of fields is kept in a byte. -/
def pwmData (data : List UInt8) : List IOPWMData :=
  let len := data.length
  let is_valid_length := len > 0 ∧ len % 7 = 0
  if is_valid_length then
    let field_count := (len / 7).toUInt8
    (List.range field_count.toNat).map (pwmField data)
  else []

/-- What the PWM characteristic does with a field. -/
def setPWM (e : IOPWMData) : List PinAccess :=
  [⟨edgePin e.pin.toNat, .setAnalogValue e.value.toNat⟩, ⟨edgePin e.pin.toNat, .setAnalogPeriodUs e.period.toNat⟩]

/-! `1 << i` is a parameter: the language defines it below the width of `int` only, and pins are bytes. -/

variable (shl : Nat → UInt32) (s : IOPinService)

/-- `isDigital` -/
def isDigital (i : Nat) : Bool := s.ioPinServiceADCharacteristicBuffer &&& shl i == 0

/-- `isAnalog` -/
def isAnalog (i : Nat) : Bool := s.ioPinServiceADCharacteristicBuffer &&& shl i != 0

/-- `isActiveInput` -/
def isActiveInput (i : Nat) : Bool := s.ioPinServiceIOCharacteristicBuffer &&& shl i != 0

/-- Dropping the selected pins into input mode. -/
def selectInputs : List PinAccess :=
  (List.range MICROBIT_IO_PIN_SERVICE_PINCOUNT).flatMap fun i =>
    (if s.isDigital shl i && s.isActiveInput shl i then [⟨edgePin i, .getDigitalValue⟩] else []) ++
      (if s.isAnalog shl i && s.isActiveInput shl i then [⟨edgePin i, .getAnalogValue⟩] else [])

/-- What the Data characteristic does with a pair. -/
def setPin (e : IOData) : List PinAccess :=
  if !s.isActiveInput shl e.pin.toNat then
    if s.isDigital shl e.pin.toNat then [⟨edgePin e.pin.toNat, .setDigitalValue e.value.toNat⟩]
    else [⟨edgePin e.pin.toNat, .setAnalogValue (if e.value = 255 then 1023 else e.value.toNat <<< 2)⟩]
  else []

/-- `onDataWritten`: the calls of pins, in their order, and the service after it. -/
def onDataWritten (params : PinWrite) : List PinAccess × IOPinService :=
  let value := (readU32 (params.data.getD · 0) 0).toUInt32
  match params.handle with
  | .ioConfiguration =>
    if params.data.length ≥ 4 then
      let s := { s with ioPinServiceIOCharacteristicBuffer := value }
      (s.selectInputs shl, s)
    else ([], s)
  | .adcConfiguration =>
    if params.data.length ≥ 4 then
      let s := { s with ioPinServiceADCharacteristicBuffer := value }
      (s.selectInputs shl, s)
    else ([], s)
  | .pwm => ((pwmData params.data).flatMap setPWM, s)
  | .data => ((ioData params.data).flatMap (s.setPin shl), s)

end IOPinService

end CodalMicrobit

import Mathlib.Data.UInt
import Mathlib.Data.List.Chain

/-!
# The thermometer

`MicroBitThermometer` samples the temperature of the processor when it is asked for it and in the background, but not more often than
once a sample period. It keeps the time of the next sample as an `unsigned long`, which has 32 bits.
-/

namespace CodalMicrobit

/-- `MICROBIT_THERMOMETER_PERIOD` -/
def MICROBIT_THERMOMETER_PERIOD : UInt32 := 1000

/-- `MicroBitThermometer`, as it is constructed. -/
structure MicroBitThermometer where
  sampleTime : UInt32 := 0
  samplePeriod : UInt32 := MICROBIT_THERMOMETER_PERIOD
  temperature : Int16 := 0

/-- What a call of `updateSample` finds: the system time when it asks if a sample is needed, the reading of the sensor, and the
system time after it. -/
structure SampleCall where
  asked : UInt64
  processorTemperature : Int32 := 0
  taken : UInt64
  ordered : asked ≤ taken := by decide

namespace MicroBitThermometer

variable (s : MicroBitThermometer)

/-- `isSampleNeeded` -/
def isSampleNeeded (now : UInt64) : Bool := now ≥ s.sampleTime.toUInt64

/-- `updateSample`: the thermometer after it, and whether it has sent the event of an update. -/
def updateSample (c : SampleCall) : MicroBitThermometer × Bool :=
  if s.isSampleNeeded c.asked then
    ({ s with
      temperature := (c.processorTemperature / 4).toInt16
      sampleTime := (c.taken + s.samplePeriod.toUInt64).toUInt32 }, true)
  else (s, false)

/-- The calls of a run that take a sample. -/
def samples (s : MicroBitThermometer) : List SampleCall → List SampleCall
  | [] => []
  | c :: calls =>
    let (t, sampled) := s.updateSample c
    if sampled then c :: t.samples calls else t.samples calls

end MicroBitThermometer

end CodalMicrobit

import CodalMicrobit.FSCache

/-!
# Deep sleep

`simpleDeepSleep` of the power manager turns the time until the wake-up into a budget of timer ticks, and sleeps until that
is used up or another interrupt comes. The timer counts to 32 bits, so a long sleep takes several turns; times are counted
to 64 bits.
-/

namespace CodalMicrobit

/-- `CODAL_TIMESTAMP`, in microseconds. -/
abbrev CODAL_TIMESTAMP := UInt64

/-- `CONFIG_MINIMUM_DEEP_SLEEP_TIME`, in milliseconds. -/
def CONFIG_MINIMUM_DEEP_SLEEP_TIME : UInt64 := 100

namespace MicroBitPowerManager

/-- `canDeepSleep`, at the time it reads from the timer. `sysTimer` and `wakeUpPin` are false for NULL; `count` is the
number of wake-up sources that the components report. -/
def canDeepSleep (sysTimer : Bool) (timeEntry : CODAL_TIMESTAMP) (wakeOnTime : Bool) (wakeUpTime : CODAL_TIMESTAMP)
    (wakeUpSources : Bool) (count : Nat) (wakeUpPin : Bool) : ErrorCode :=
  if sysTimer = false then .DEVICE_NOT_SUPPORTED
  else if wakeOnTime then
    if wakeUpTime < timeEntry ∨ wakeUpTime - timeEntry < CONFIG_MINIMUM_DEEP_SLEEP_TIME * 1000 then .DEVICE_INVALID_STATE
    else .DEVICE_OK
  else if wakeUpSources then
    if count = 0 then .DEVICE_INVALID_STATE else .DEVICE_OK
  else if wakeUpPin = false then .DEVICE_INVALID_STATE
  else .DEVICE_OK

def usPerTick : UInt64 := 1

def ticksPerMS : UInt32 := 1000

def ticksMax : UInt32 := 0xFFFFFFFF - ticksPerMS * 1000

/-- `totalTicks`, from the times on entry and after the power-down. -/
def totalTicks (wakeUpTime timeEntry timeStart : CODAL_TIMESTAMP) : UInt64 :=
  wakeUpTime - timeEntry - (timeStart - timeEntry) * 2 / usPerTick - 13

/-- How a `__WFI()` ended: what the timer was captured at, and whether it was the timer that interrupted. -/
structure Wake where
  tick1 : UInt32
  timer : Bool

/-- The variables of the loop. The intervals that were programmed are a record, latest first; `ended` says that the loop was
left. -/
structure Sleep where
  tick0 : UInt32
  sleepTicks : UInt64 := 0
  programmed : List UInt32 := []
  ended : Bool := false

namespace Sleep

/-- A turn of the loop up to `__WFI()`. -/
def arm (wakeOnTime : Bool) (totalTicks : UInt64) (s : Sleep) : Sleep :=
  if wakeOnTime then
    if s.sleepTicks ≥ totalTicks then { s with ended := true }
    else
      let remain64 := totalTicks - s.sleepTicks
      let remain := if remain64 > ticksMax.toUInt64 then ticksMax else remain64.toUInt32
      { s with programmed := remain :: s.programmed }
  else { s with programmed := ticksMax :: s.programmed }

/-- The rest of the turn. -/
def resume (s : Sleep) (w : Wake) : Sleep :=
  let ticks := w.tick1 - s.tick0
  { s with
    tick0 := w.tick1
    sleepTicks := s.sleepTicks + ticks.toUInt64
    ended := !w.timer }

/-- From one `__WFI()` to the next; nothing happens once the loop was left. -/
def turn (wakeOnTime : Bool) (totalTicks : UInt64) (s : Sleep) (w : Wake) : Sleep :=
  if s.ended then s
  else
    let s := s.resume w
    if s.ended then s else s.arm wakeOnTime totalTicks

/-- The loop, for as long as it is known how the processor was woken. -/
def run (wakeOnTime : Bool) (totalTicks : UInt64) (tickStart : UInt32) (wakes : List Wake) : Sleep :=
  wakes.foldl (turn wakeOnTime totalTicks) (arm wakeOnTime totalTicks { tick0 := tickStart })

end Sleep

end MicroBitPowerManager

end CodalMicrobit

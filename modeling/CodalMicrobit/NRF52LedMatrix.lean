import Mathlib.Data.Nat.Count
import CodalMicrobit.Flash
import CodalMicrobit.FSCache

/-!
# The LED matrix

`NRF52LEDMatrix` lights one row of the matrix at a time. A timer interrupts at the end of each time slot. While a slot lasts, the
timer switches the columns off by itself, through the PPI and the GPIOTE, when the pixels have been lit as long as they are bright.
In the modes that sense light, one more slot measures how long the sense pin takes to rise.
-/

namespace CodalMicrobit

/-- `NRF52_LED_MATRIX_CLOCK_FREQUENCY` -/
def NRF52_LED_MATRIX_CLOCK_FREQUENCY : Nat := 16000000

/-- `NRF52_LED_MATRIX_FREQUENCY` -/
def NRF52_LED_MATRIX_FREQUENCY : Nat := 60

/-- `NRF52_LED_MATRIX_MAXIMUM_COLUMNS` -/
def NRF52_LED_MATRIX_MAXIMUM_COLUMNS : Nat := 5

/-- `NRF52_LED_MATRIX_LIGHTSENSE_STROBES` -/
def NRF52_LED_MATRIX_LIGHTSENSE_STROBES : Nat := 4

/-- `DisplayMode` -/
inductive DisplayMode where
  | DISPLAY_MODE_BLACK_AND_WHITE
  | DISPLAY_MODE_GREYSCALE
  | DISPLAY_MODE_BLACK_AND_WHITE_LIGHT_SENSE
  | DISPLAY_MODE_GREYSCALE_LIGHT_SENSE
  deriving DecidableEq

/-- `MatrixPoint` -/
structure MatrixPoint where
  x : Nat
  y : Nat

/-- `MatrixMap`, of a matrix that can be driven: its columns have a GPIOTE channel each, its rows are counted in a byte, and every
line has a pin of its own. A pin is given by its name. -/
structure MatrixMap where
  width : Nat
  height : Nat
  rows : Nat
  columns : Nat
  rowPins : Nat → Nat
  columnPins : Nat → Nat
  map : Nat → MatrixPoint
  rows_pos : 0 < rows := by decide
  rows_lt : rows < 255 := by decide
  columns_le : columns ≤ NRF52_LED_MATRIX_MAXIMUM_COLUMNS := by decide
  rowPins_lt : ∀ r < rows, rowPins r < 64 := by decide
  columnPins_lt : ∀ c < columns, columnPins c < 64 := by decide
  rowPins_inj : ∀ r < rows, ∀ r' < rows, r ≠ r' → rowPins r ≠ rowPins r' := by decide
  columnPins_inj : ∀ c < columns, ∀ c' < columns, c ≠ c' → columnPins c ≠ columnPins c' := by decide
  apart : ∀ r < rows, ∀ c < columns, rowPins r ≠ columnPins c := by decide

/-- What a pin does to the line it is connected to: nothing while it is an input. -/
inductive Drive where
  | none
  | low
  | high
  deriving DecidableEq

/-- An event that the PPI can wait for: the timer reaches a compare register, or the pin of a GPIOTE channel rises. -/
inductive PPIEvent where
  | EVENTS_COMPARE (register : Nat)
  | EVENTS_IN (channel : Nat)
  deriving DecidableEq

/-- A task that the PPI can start: the pin of a GPIOTE channel is set, or the timer is captured in a compare register. -/
inductive PPITask where
  | TASKS_SET (channel : Nat)
  | TASKS_CAPTURE (register : Nat)
  deriving DecidableEq

/-- `NRF52LEDMatrix`: the members, the two bits of `status` that the driver uses, the bitmap, and the registers of the timer, the
GPIOTE, the PPI and the pins. `timer` says whether the timer runs and interrupts. -/
structure NRF52LEDMatrix (M : MatrixMap) where
  mode : DisplayMode
  brightness : Nat
  image : Nat → UInt8 := fun _ => 0
  strobeRow : Nat := 0
  timeslots : Nat := 0
  enabled : Bool := false
  timerPeriod : Nat := 0
  quantum : Nat := 0
  lightLevel : Nat := 0
  statusReset : Bool := false
  statusLightReady : Bool := false
  wasEnabled : Bool := false
  timer : Bool := false
  CC : Nat → Nat := fun _ => 0
  CONFIG : Nat → BitVec 32 := fun _ => 0
  EEP : Nat → Option PPIEvent := fun _ => none
  TEP : Nat → Option PPITask := fun _ => none
  CHEN : Nat → Bool := fun _ => false
  pins : Nat → Drive := fun _ => .none

/-- `gpiote[column]`, which is `NRF52_LEDMATRIX_GPIOTE_CHANNEL_BASE + column`. -/
def gpiote (column : Nat) : Nat := 1 + column

/-- `ppi[column]`, which is `NRF52_LEDMATRIX_PPI_CHANNEL_BASE + column`. -/
def ppi (column : Nat) : Nat := 3 + column

/-- The bit of `CONFIG` with the initial level of the pin, `OUTINIT`. -/
def OUTINIT : BitVec 32 := 0x00100000

/-- The mode adds a slot that senses light. -/
def DisplayMode.senses (mode : DisplayMode) : Bool :=
  mode == .DISPLAY_MODE_BLACK_AND_WHITE_LIGHT_SENSE || mode == .DISPLAY_MODE_GREYSCALE_LIGHT_SENSE

/-- The mode shows every pixel that is not zero with full brightness. -/
def DisplayMode.clips (mode : DisplayMode) : Bool :=
  mode == .DISPLAY_MODE_BLACK_AND_WHITE || mode == .DISPLAY_MODE_BLACK_AND_WHITE_LIGHT_SENSE

namespace NRF52LEDMatrix

variable {M : MatrixMap} (s : NRF52LEDMatrix M)

/-- `setDigitalValue`: the pin is an output with this level. -/
def setDigitalValue (pin : Nat) (value : Bool) : NRF52LEDMatrix M :=
  { s with pins := Function.update s.pins pin (if value then .high else .low) }

/-- `getDigitalValue`: the pin is an input. -/
def getDigitalValue (pin : Nat) : NRF52LEDMatrix M := { s with pins := Function.update s.pins pin .none }

/-- A turn of the loop of `setDisplayMode`: the timer sets the pin of the column when it reaches the compare register of the
column. -/
def allocate (channel : Nat) : NRF52LEDMatrix M :=
  { s with
    CONFIG := Function.update s.CONFIG (gpiote channel) (0x00010003 ||| BitVec.ofNat 32 (M.columnPins channel) <<< 8)
    EEP := Function.update s.EEP (ppi channel) (some (.EVENTS_COMPARE (channel + 1)))
    TEP := Function.update s.TEP (ppi channel) (some (.TASKS_SET (gpiote channel)))
    CHEN := Function.update s.CHEN (ppi channel) true }

/-- `setDisplayMode` -/
def setDisplayMode (mode : DisplayMode) : NRF52LEDMatrix M :=
  let s :=
    if !s.enabled || s.statusReset then { (List.range M.columns).foldl allocate s with statusReset := false }
    else s
  let timeslots := M.rows % 2 ^ 8
  let timeslots := if mode.senses then (timeslots + 1) % 2 ^ 8 else timeslots
  let timerPeriod := NRF52_LED_MATRIX_CLOCK_FREQUENCY / (NRF52_LED_MATRIX_FREQUENCY * timeslots)
  { s with
    timeslots
    timerPeriod
    quantum := timerPeriod * s.brightness / (256 * 255)
    CC := Function.update s.CC 0 timerPeriod
    mode }

/-- `enable` -/
def enable : NRF52LEDMatrix M :=
  if s.enabled then s
  else
    let s := s.setDisplayMode s.mode
    let s := (List.range M.rows).foldl (fun s row => s.getDigitalValue (M.rowPins row)) s
    let s := (List.range M.columns).foldl (fun s col => s.getDigitalValue (M.columnPins col)) s
    { s with timer := true, enabled := true }

/-- A turn of the first loop of `disable`: the GPIOTE lets go of the pin of the column. -/
def release (column : Nat) : NRF52LEDMatrix M := { s with CONFIG := Function.update s.CONFIG (gpiote column) 0 }

/-- `disable` -/
def disable : NRF52LEDMatrix M :=
  if !s.enabled then s
  else
    let s : NRF52LEDMatrix M := { s with timer := false }
    let s := (List.range M.columns).foldl release s
    let s := (List.range M.columns).foldl (fun s column => s.getDigitalValue (M.columnPins column)) s
    let s := (List.range M.rows).foldl (fun s row => s.getDigitalValue (M.rowPins row)) s
    { s with statusLightReady := false, enabled := false }

/-- How bright the LED of a row and a column is to be, before the brightness of the display is applied. -/
def level (row column : Nat) : Nat :=
  let p := M.map (row + column * M.rows)
  let value := (s.image (p.y * M.width + p.x)).toNat
  if s.mode.clips then if value ≠ 0 then 255 else 0 else value

/-- A turn of the loop of `render` over the columns of a row. -/
def strobeColumn (column : Nat) : NRF52LEDMatrix M :=
  let value := s.level s.strobeRow column * s.quantum
  { s with
    CC := Function.update s.CC (column + 1) value
    CONFIG := Function.update s.CONFIG (gpiote column)
      (if value ≠ 0 then s.CONFIG (gpiote column) &&& ~~~OUTINIT else s.CONFIG (gpiote column) ||| OUTINIT) }

/-- A turn of the loop of `render` before light is sensed. -/
def senseColumn (column : Nat) : NRF52LEDMatrix M :=
  { s with
    CONFIG := Function.update s.CONFIG (gpiote column) 0
    CC := Function.update s.CC (column + 1) (s.timerPeriod * NRF52_LED_MATRIX_LIGHTSENSE_STROBES) }.setDigitalValue
      (M.columnPins column) true

/-- `render`, at the end of a slot: the first half completes the slot. -/
def completeSlot : NRF52LEDMatrix M :=
  if s.strobeRow < M.rows then s.setDigitalValue (M.rowPins s.strobeRow) false
  else
    { s with
      lightLevel := u32sub 255 (u32 (255 * s.CC 1) / (s.timerPeriod * NRF52_LED_MATRIX_LIGHTSENSE_STROBES))
      statusLightReady := true
      statusReset := true }.setDisplayMode s.mode

/-- What `render` does in a slot of a row. -/
def strobe : NRF52LEDMatrix M :=
  ((List.range M.columns).foldl strobeColumn s).setDigitalValue (M.rowPins s.strobeRow) true

/-- What `render` does in the slot that senses light. The sense pin is that of the first row. -/
def sense : NRF52LEDMatrix M :=
  let s : NRF52LEDMatrix M := { s with CC := Function.update s.CC 0 (s.timerPeriod * NRF52_LED_MATRIX_LIGHTSENSE_STROBES) }
  let s := ((List.range M.columns).foldl senseColumn s).setDigitalValue (M.rowPins 0) false
  { s with
    CONFIG := Function.update s.CONFIG (gpiote 0) (0x00010001 ||| BitVec.ofNat 32 (M.rowPins 0) <<< 8)
    EEP := Function.update s.EEP (ppi 0) (some (.EVENTS_IN (gpiote 0)))
    TEP := Function.update s.TEP (ppi 0) (some (.TASKS_CAPTURE 1)) }

/-- The rest of `render` begins the next slot. -/
def beginSlot : NRF52LEDMatrix M :=
  let s : NRF52LEDMatrix M := { s with strobeRow := (s.strobeRow + 1) % s.timeslots }
  if s.strobeRow < M.rows then s.strobe else s.sense

/-- `render` -/
def render : NRF52LEDMatrix M := s.completeSlot.beginSlot

/-- `setBrightness`. The display refuses what is not a byte. -/
def setBrightness (b : Int) : ErrorCode × NRF52LEDMatrix M :=
  if b < 0 ∨ 255 < b then (.DEVICE_INVALID_PARAMETER, s)
  else (.DEVICE_OK, { s with brightness := b.toNat, quantum := s.timerPeriod * b.toNat / (256 * 255) })

/-- `readLightLevel`, up to where the fiber sleeps or the level is returned. -/
def readLightLevel : NRF52LEDMatrix M :=
  let s :=
    if s.mode = .DISPLAY_MODE_BLACK_AND_WHITE then
      { s.setDisplayMode .DISPLAY_MODE_BLACK_AND_WHITE_LIGHT_SENSE with statusLightReady := false }
    else s
  if s.mode = .DISPLAY_MODE_GREYSCALE then
    { s.setDisplayMode .DISPLAY_MODE_GREYSCALE_LIGHT_SENSE with statusLightReady := false }
  else s

/-- `setSleep` -/
def setSleep (doSleep : Bool) : NRF52LEDMatrix M :=
  let s := if doSleep then { s with wasEnabled := s.enabled }.disable else s
  if !doSleep && s.wasEnabled then s.enable else s

/-- The constructor, with what the pins do before it. -/
def create (M : MatrixMap) (mode : DisplayMode) (brightness : Nat) (pins : Nat → Drive) : NRF52LEDMatrix M :=
  { mode, brightness, pins : NRF52LEDMatrix M }.enable

/-! ## The hardware -/

/-- The pin of a GPIOTE channel rises: the PPI channel that waits for it captures the timer. -/
def edge (column tick : Nat) : NRF52LEDMatrix M :=
  if s.timer ∧ s.CONFIG (gpiote column) &&& 3 = 1 ∧ s.CHEN (ppi column) ∧ s.EEP (ppi column) = some (.EVENTS_IN (gpiote column)) then
    match s.TEP (ppi column) with
    | some (.TASKS_CAPTURE register) => { s with CC := Function.update s.CC register tick }
    | _ => s
  else s

/-- The GPIOTE channel of a column has this pin. -/
def Holds (pin column : Nat) : Prop :=
  s.CONFIG (gpiote column) &&& 3 ≠ 0 ∧ s.CONFIG (gpiote column) >>> 8 &&& 63 = BitVec.ofNat 32 pin

instance (pin column : Nat) : Decidable (s.Holds pin column) := inferInstanceAs (Decidable (_ ∧ _))

/-- The PPI has set the pin of a GPIOTE channel by this tick of the slot. -/
def isSet (channel tick : Nat) : Bool :=
  (List.range M.columns).any fun column =>
    s.CHEN (ppi column) && s.TEP (ppi column) == some (.TASKS_SET channel) &&
      match s.EEP (ppi column) with
      | some (.EVENTS_COMPARE register) => s.CC register ≤ tick
      | _ => false

/-- What a pin does at a tick of a slot that begins with the registers as they are: a GPIOTE channel that has the pin drives it as
a task, or reads it. -/
def drive (pin tick : Nat) : Drive :=
  match (List.range M.columns).find? fun column => s.Holds pin column with
  | some column =>
    if s.CONFIG (gpiote column) &&& 3 = 3 then
      if s.CONFIG (gpiote column) &&& OUTINIT ≠ 0 ∨ s.isSet (gpiote column) tick then .high else .low
    else .none
  | none => s.pins pin

/-- The LED of a row and a column is lit: the row drives it and the column sinks the current. -/
def lit (row column tick : Nat) : Bool := s.drive (M.rowPins row) tick == .high && s.drive (M.columnPins column) tick == .low

/-- For how many ticks of the slot an LED is lit. The slot lasts until the timer reaches its first compare register. -/
def exposure (row column : Nat) : Nat := Nat.count (s.lit row column · = true) (s.CC 0)

/-! ## Runs -/

/-- What can happen to the display: a call, a change of the image, the end of a slot, or a rise of a pin. -/
inductive Event where
  | setDisplayMode (mode : DisplayMode)
  | enable
  | disable
  | setBrightness (b : Int)
  | readLightLevel
  | setSleep (doSleep : Bool)
  | draw (image : Nat → UInt8)
  | interrupt
  | edge (column tick : Nat)

/-- The timer interrupts only while it runs. It counts past the end of the slot, until `render` clears it. -/
def Possible : Event → Prop
  | .interrupt => s.timer = true
  | .edge column tick => column < M.columns ∧ tick < 2 ^ 32
  | _ => True

/-- What an event does. -/
def step : Event → NRF52LEDMatrix M
  | .setDisplayMode mode => s.setDisplayMode mode
  | .enable => s.enable
  | .disable => s.disable
  | .setBrightness b => (s.setBrightness b).2
  | .readLightLevel => s.readLightLevel
  | .setSleep doSleep => s.setSleep doSleep
  | .draw image => { s with image }
  | .interrupt => s.render
  | .edge column tick => s.edge column tick

/-- A run of events, each possible when it happens. -/
inductive Run : NRF52LEDMatrix M → List Event → NRF52LEDMatrix M → Prop
  | nil (s : NRF52LEDMatrix M) : Run s [] s
  | cons {s t : NRF52LEDMatrix M} {e : Event} {es : List Event} (he : s.Possible e) (h : Run (s.step e) es t) : Run s (e :: es) t

/-- The states that a display comes to. -/
def Reachable : Prop :=
  ∃ mode brightness pins es, brightness ≤ 255 ∧ Run (create M mode brightness pins) es s

end NRF52LEDMatrix

/-! ## The display of the micro:bit -/

/-- `ledMatrixPositions` -/
def ledMatrixPositions : List MatrixPoint :=
  [⟨0, 0⟩, ⟨0, 1⟩, ⟨0, 2⟩, ⟨0, 3⟩, ⟨0, 4⟩,
   ⟨1, 0⟩, ⟨1, 1⟩, ⟨1, 2⟩, ⟨1, 3⟩, ⟨1, 4⟩,
   ⟨2, 0⟩, ⟨2, 1⟩, ⟨2, 2⟩, ⟨2, 3⟩, ⟨2, 4⟩,
   ⟨3, 0⟩, ⟨3, 1⟩, ⟨3, 2⟩, ⟨3, 3⟩, ⟨3, 4⟩,
   ⟨4, 0⟩, ⟨4, 1⟩, ⟨4, 2⟩, ⟨4, 3⟩, ⟨4, 4⟩]

/-- `ledMatrixMap`, with the pins of `ledRowPins` and `ledColPins`. -/
def ledMatrixMap : MatrixMap where
  width := 5
  height := 5
  rows := 5
  columns := 5
  rowPins row := [21, 22, 15, 24, 19].getD row 0
  columnPins column := [28, 11, 31, 37, 30].getD column 0
  map i := ledMatrixPositions.getD i ⟨0, 0⟩

end CodalMicrobit

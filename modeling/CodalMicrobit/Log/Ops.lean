import CodalMicrobit.Log.Defs

/-!
# The operations of a log

Appending text, collecting rows of key and value pairs, and the calls a user of the log can make. An operation that
returns gives the log it leaves; one that blocks or never ends gives a `Fault`.
-/

namespace CodalMicrobit

open Nor

namespace Log

variable {g : Geometry}

/-! ## Appending text -/

/-- `spaceOnPage`: the bytes from `dataEnd` to the end of its page. -/
def spaceOnPage (s : Log g) : Nat := g.getPageSize - s.dataEnd % g.getPageSize

/-- Erase the next page ready for use, if a text of `l` bytes fills the current one. -/
def eraseNextPage (s : Log g) (l : Nat) : Log g :=
  if s.spaceOnPage ≤ l ∧ s.dataEnd + s.spaceOnPage < s.logEnd then
    s.erasePage .data ((s.dataEnd / g.getPageSize + 1) * g.getPageSize)
  else s

/-- Move the end of the data. -/
def setDataEnd (s : Log g) (a : Nat) : Log g := { s with dataEnd := a }

/-- One turn of the loop of `logString`: write what fits on the current page, and move `dataEnd` on. -/
def writeTurn (s : Log g) (data : List UInt8) : Log g :=
  let lengthToWrite := min data.length s.spaceOnPage
  let s := s.eraseNextPage data.length
  (s.setCache .data (s.cache.write s.dataEnd (data.take lengthToWrite)).2).setDataEnd (s.dataEnd + lengthToWrite)

/-- The loop of `logString` that writes the text page by page. `fuel` bounds the turns. -/
def writeData (s : Log g) (data : List UInt8) (fuel : Nat) : Except Fault (Log g) :=
  if data = [] then .ok s
  else
    match fuel with
    | 0 => .error .diverges
    | fuel + 1 => (s.writeTurn data).writeData (data.drop (min data.length s.spaceOnPage)) fuel

/-- The number a journal entry records: the length of the text, down to a whole number of cache blocks. -/
def journalLength (s : Log g) : Nat :=
  (s.dataEnd - s.dataStart) / CONFIG_MICROBIT_LOG_CACHE_BLOCK_SIZE * CONFIG_MICROBIT_LOG_CACHE_BLOCK_SIZE

/-- Move the journal head on by one entry. On a new page, cycling around after the last one, the page is erased. -/
def advanceJournal (s : Log g) : Log g :=
  let s := { s with journalHead := s.journalHead + MICROBIT_LOG_JOURNAL_ENTRY_SIZE }
  if s.journalHead % g.getPageSize = 0 then
    let s := if s.journalHead = s.dataStart then { s with journalHead := s.journalStart } else s
    { s with cache := s.cache.erase s.journalHead }.erasePage .journal s.journalHead
  else s

/-- Write an entry of the journal. -/
def writeEntry (s : Log g) (address : Nat) (entry : List UInt8) : Log g :=
  s.setCache .journal (s.cache.write address entry).2

/-- The part of `logString` that writes a new journal entry and invalidates the old one. -/
def writeJournal (s : Log g) : Log g :=
  let oldJournalHead := s.journalHead
  let s := s.advanceJournal
  let s := s.writeEntry s.journalHead (writeNum s.journalLength)
  s.writeEntry oldJournalHead (List.replicate MICROBIT_LOG_JOURNAL_ENTRY_SIZE 0)

/-- `"FUL"` -/
def fullMarker : List UInt8 := ascii ['F', 'U', 'L']

/-- What `logString` does with a text there is no room for. -/
def refuse (s : Log g) : Log g :=
  if s.full then s
  else { s.setCache .marker (s.cache.write (s.logEnd + 1) fullMarker).2 with full := true }

/-- Log the data over the serial port, if requested. -/
def mirror (s : Log g) (data : List UInt8) : Log g :=
  if s.serialMirror ∧ data.length > 0 then { s with serial := s.serial ++ data } else s

/-- What `logString` does with a text there is room for: it is cleaned, written, and recorded in the journal if it
crossed a cache block boundary. -/
def accept (s : Log g) (data : List UInt8) : Except Fault (Log g) := do
  let oldDataEnd := s.dataEnd
  let data := cleaned data false
  let s ← (s.mirror data).writeData data data.length
  .ok (if s.dataEnd / CONFIG_MICROBIT_LOG_CACHE_BLOCK_SIZE ≠ oldDataEnd / CONFIG_MICROBIT_LOG_CACHE_BLOCK_SIZE then
    s.writeJournal else s)

/-- `logString`, after its `mutex.wait()` and `init()`. -/
def appendText (s : Log g) (data : List UInt8) : Except Fault (ErrorCode × Log g) := do
  let s := s.note (.logging s.toLogState data)
  if data.length > u32sub s.logEnd s.dataEnd then .ok (.DEVICE_NO_RESOURCES, s.refuse.notify)
  else
    let s ← s.accept data
    .ok (.DEVICE_OK, s.notify)

/-- `logString` -/
def logString (s : Log g) (str : List UInt8) : Except Fault (ErrorCode × Log g) := do
  let s ← s.wait
  let s ← s.init
  s.appendText (cString str)

/-! ## Rows -/

/-- `beginRow` where the log is initialised and no row is open. -/
def startRow (s : Log g) : Log g :=
  { s with rowData := s.rowData.map fun column => { column with value := [] }, rowStarted := true }

/-- Set the value of the first column with the given key. -/
def setValue (key value : ManagedString) : List ColumnEntry → List ColumnEntry
  | [] => []
  | column :: rest => if column.key = key then { column with value } :: rest else column :: setValue key value rest

/-- `logData`, in an open row. -/
def setColumn (s : Log g) (key value : ManagedString) : Log g :=
  let key := cleaned key
  let value := cleaned value
  if s.rowData.any (·.key == key) then { s with rowData := setValue key value s.rowData }
  else s.addHeading key value

/-- `logData`. The `beginRow` it calls when no row is open finds the log initialised and has no row to end. -/
def logData (s : Log g) (key value : ManagedString) : Except Fault (Log g) := do
  let s ← s.init
  .ok ((if s.rowStarted then s else s.startRow).setColumn key value)

/-- The time stamp of a row, at the given system time in milliseconds. -/
def timeStamp (format : TimeStampFormat) (now : Nat) : ManagedString :=
  let t := now / format.value
  let billions := toInt (t / 1000000000)
  let units := t % 1000000000
  let fraction := if format.value > 1 then units % 100 else 0
  let units := if format.value > 1 then units / 100 else units
  let billions := if format.value > 1 then billions.tdiv 100 else billions
  let u := decimal units
  let f := padString (decimal fraction) 2
  let s := if billions ≠ 0 then decimal billions ++ padString u 9 else u
  if format.value > 1 then s ++ ascii ['.'] ++ f else s

/-- The texts of a row, with a comma between two of them and a newline at the end. -/
def csvLine (fields : List ManagedString) : ManagedString :=
  (fields.intersperse [','.toUInt8]).flatten ++ ['\n'.toUInt8]

/-- The part of `endRow` that stores a changed list of headings, zeroing the list stored before. -/
def storeHeadings (s : Log g) (h : ManagedString) : Log g :=
  let s := s.note (.storing s.toLogState h)
  let s := if s.headingStart = 0 then { s with headingStart := s.startAddress + metaDataSize } else s
  let s := s.setCache .heading (s.cache.write s.headingStart (List.replicate s.headingLength 0)).2
  let s := { s with headingStart := u32 (s.headingStart + s.headingLength) }
  s.setCache .heading (s.cache.write s.headingStart h).2

/-- The part of `endRow` that inserts the time stamp, if the row has a value. -/
def stampRow (s : Log g) (now : Nat) : Except Fault (Log g) :=
  if s.rowData.any (·.value != []) ∧ s.timeStampFormat ≠ .None then
    s.logData s.timeStampHeading (timeStamp s.timeStampFormat now)
  else .ok s

/-- The part of `endRow` that stores the headings, if new ones were added since the last row. -/
def updateHeadings (s : Log g) : Except Fault (Log g) :=
  if s.headingsChanged then do
    let h := csvLine (s.rowData.map (·.key))
    let r ← (s.storeHeadings h).logString h
    .ok { r.2 with headingsChanged := false }
  else .ok s

/-- The part of `endRow` that logs the values, if there are any. -/
def logRow (s : Log g) : Except Fault (Log g) :=
  if s.rowData.all (·.value == []) then .ok s
  else do
    let r ← s.logString (csvLine (s.rowData.map (·.value)))
    .ok r.2

/-- `endRow`, at the given system time. -/
def endRow (s : Log g) (now : Nat) : Except Fault (ErrorCode × Log g) :=
  if !s.rowStarted then .ok (.DEVICE_INVALID_STATE, s)
  else do
    let s ← s.init
    let s ← s.stampRow now
    let s ← s.updateHeadings
    let s ← s.logRow
    .ok (if s.full then .DEVICE_NO_RESOURCES else .DEVICE_OK, { s with rowStarted := false })

/-- `beginRow`, at the given system time. -/
def beginRow (s : Log g) (now : Nat) : Except Fault (Log g) := do
  let s ← s.init
  if s.rowStarted then
    let r ← s.endRow now
    .ok r.2.startRow
  else .ok s.startRow

end Log

/-! ## Runs -/

/-- A call of a user of the log, or a reboot. Where an operation reads the system time, the call carries it. -/
inductive LogOp where
  | isPresent
  | isFull
  | clear (fullErase : Bool)
  | invalidate
  | setTimeStamp (format : TimeStampFormat)
  | setSerialMirroring (enable : Bool)
  | beginRow (now : Nat)
  | logData (key value : ManagedString)
  | endRow (now : Nat)
  | logString (str : List UInt8)
  | reboot
  deriving DecidableEq

namespace Log

variable {g : Geometry}

/-- A reboot: a new log on the same flash. The record is kept. -/
def reboot (s : Log g) : Log g := { new s.cache.flash s.header with history := s.history }

/-- The log after a call. -/
def perform (s : Log g) : LogOp → Except Fault (Log g)
  | .isPresent => .ok s.isPresent.2
  | .isFull => .ok s
  | .clear fullErase => s.clear fullErase
  | .invalidate => .ok s.invalidate
  | .setTimeStamp format => s.setTimeStamp format
  | .setSerialMirroring enable => .ok (s.setSerialMirroring enable)
  | .beginRow now => s.beginRow now
  | .logData key value => s.logData key value
  | .endRow now => do
    let r ← s.endRow now
    .ok r.2
  | .logString str => do
    let r ← s.logString str
    .ok r.2
  | .reboot => .ok s.reboot

/-- The log after a sequence of calls. -/
def run (s : Log g) : List LogOp → Except Fault (Log g)
  | [] => .ok s
  | op :: ops => do
    let s ← s.perform op
    s.run ops

end Log

end CodalMicrobit

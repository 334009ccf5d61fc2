import CodalMicrobit.FSCache
import CodalMicrobit.Log.Text

/-!
# The state of a log

`MicroBitLog` keeps one text file in the storage: a header, a page of metadata that also holds the column headings, a few
journal pages that say how long the text is, and the text itself. Here are its members and its small operations. The
members are those of the class; beside them a log carries the record of what it did (`history`), which no operation
reads.
-/

namespace CodalMicrobit

open Nor

/-- `CONFIG_MICROBIT_LOG_JOURNAL_PAGES` -/
def CONFIG_MICROBIT_LOG_JOURNAL_PAGES : Nat := 4

/-- `MICROBIT_LOG_JOURNAL_ENTRY_SIZE` -/
def MICROBIT_LOG_JOURNAL_ENTRY_SIZE : Nat := 8

/-- `CONFIG_MICROBIT_LOG_CACHE_BLOCK_SIZE`. It is reducible, since it is a parameter of the type of the cache. -/
abbrev CONFIG_MICROBIT_LOG_CACHE_BLOCK_SIZE : Nat := 256

/-- `sizeof(header)` -/
def headerSize : Nat := 2048

/-- `MICROBIT_LOG_VERSION` -/
def MICROBIT_LOG_VERSION : List UInt8 :=
  ascii ['U', 'B', 'I', 'T', '_', 'L', 'O', 'G', '_', 'F', 'S', '_', 'V', '_', '0', '0', '1', '\n']

/-- `MicroBitLogMetaData`: the three fields of the metadata, 18, 11 and 11 bytes. -/
structure MicroBitLogMetaData where
  version : List UInt8 := List.replicate 18 0
  logEnd : List UInt8 := List.replicate 11 0
  dataStart : List UInt8 := List.replicate 11 0

/-- The metadata as it lies in memory. -/
def MicroBitLogMetaData.bytes (m : MicroBitLogMetaData) : List UInt8 := m.version ++ m.logEnd ++ m.dataStart

/-- `sizeof(MicroBitLogMetaData)` -/
def metaDataSize : Nat := 40

/-- The metadata that the bytes in memory are. -/
def MicroBitLogMetaData.ofBytes (b : List UInt8) : MicroBitLogMetaData :=
  { version := b.take 18, logEnd := (b.drop 18).take 11, dataStart := (b.drop 29).take 11 }

/-- `ColumnEntry` -/
structure ColumnEntry where
  key : ManagedString := []
  value : ManagedString := []
  deriving DecidableEq

/-- `TimeStampFormat` -/
inductive TimeStampFormat where
  | None
  | Milliseconds
  | Seconds
  | Minutes
  | Hours
  | Days
  deriving DecidableEq, Repr

/-- The number of milliseconds an enumerator of `TimeStampFormat` stands for. -/
def TimeStampFormat.value : TimeStampFormat → Nat
  | .None => 0
  | .Milliseconds => 1
  | .Seconds => 10
  | .Minutes => 600
  | .Hours => 36000
  | .Days => 864000

/-- Why an operation does not come back: the fiber waits for a lock it holds itself, or a loop never ends. -/
inductive Fault where
  | deadlock
  | diverges
  deriving DecidableEq, Repr

/-- The members of `MicroBitLog`. `headingCount` is the length of `rowData`; the status word is one field per flag;
`serial` is what was sent to the serial port. -/
structure LogState (g : Geometry) where
  cache : FSCache g CONFIG_MICROBIT_LOG_CACHE_BLOCK_SIZE 4
  header : Nat → UInt8
  mutex : Bool := false
  initialized : Bool := false
  rowStarted : Bool := false
  full : Bool := false
  serialMirror : Bool := false
  startAddress : Nat := 0
  journalPages : Nat := CONFIG_MICROBIT_LOG_JOURNAL_PAGES
  journalStart : Nat := 0
  journalHead : Nat := 0
  dataStart : Nat := 0
  dataEnd : Nat := 0
  logEnd : Nat := 0
  headingStart : Nat := 0
  headingLength : Nat := 0
  headingsChanged : Bool := false
  rowData : List ColumnEntry := []
  metaData : MicroBitLogMetaData := {}
  timeStampFormat : TimeStampFormat := .None
  timeStampHeading : ManagedString := []
  serial : List UInt8 := []

/-- The flash as it stands. -/
abbrev LogState.mem {g : Geometry} (s : LogState g) : Memory := s.cache.flash.mem

/-- The parts of the log's code that change the flash. -/
inductive Writer where
  | format
  | invalidation
  | heading
  | journal
  | data
  | marker
  deriving DecidableEq, Repr

/-- An entry of the record of what a log did. -/
inductive LogEvent (g : Geometry) where
  /-- The writer issued the operations. -/
  | wrote (w : Writer) (ops : List Op)
  /-- The page was erased, and the cache was this afterwards. -/
  | erased (page : Nat) (after : FSCache g CONFIG_MICROBIT_LOG_CACHE_BLOCK_SIZE 4)
  /-- A log that was found on the flash is about to be loaded. -/
  | loading (before : LogState g)
  /-- A new list of column headings is about to be stored. -/
  | storing (before : LogState g) (text : ManagedString)
  /-- A text is about to be appended, or refused. -/
  | logging (before : LogState g) (text : List UInt8)

/-- `MicroBitLog`, with the record of what it did, oldest first. -/
structure Log (g : Geometry) extends LogState g where
  history : List (LogEvent g) := []

/-- The address after the header, rounded up to a page: where the metadata goes. -/
def Geometry.logStart (g : Geometry) : Nat :=
  if headerSize % g.getPageSize = 0 then headerSize else (1 + headerSize / g.getPageSize) * g.getPageSize

namespace Log

variable {g : Geometry}

/-- The constructor: a log that knows nothing yet of what is on the flash. -/
def new (flash : Flash g) (header : Nat → UInt8) : Log g := { cache := { flash }, header }

/-- Add an entry to the record. -/
def note (s : Log g) (e : LogEvent g) : Log g := { s with history := s.history ++ [e] }

/-- Continue with a cache whose flash the given writer changed. -/
def setCache (s : Log g) (w : Writer) (c : FSCache g CONFIG_MICROBIT_LOG_CACHE_BLOCK_SIZE 4) : Log g :=
  { s with cache := c, history := s.history ++ [.wrote w (c.flash.trace.drop s.cache.flash.trace.length)] }

/-- `mutex.wait()`: the lock does not know its holder, so a second wait blocks the only fiber. -/
def wait (s : Log g) : Except Fault (Log g) := if s.mutex then .error .deadlock else .ok { s with mutex := true }

/-- `mutex.notify()` -/
def notify (s : Log g) : Log g := { s with mutex := false }

/-- `cache.read` into a buffer; a read that is refused leaves the buffer as it was. -/
def cacheRead (s : Log g) (address : Nat) (buffer : List UInt8) : List UInt8 × Log g :=
  match s.cache.read address buffer.length with
  | (.DEVICE_OK, bytes, c) => (bytes, { s with cache := c })
  | (_, _, c) => (buffer, { s with cache := c })

/-- `isPresent` -/
def isPresent (s : Log g) : Bool × Log g :=
  if s.initialized then (true, s)
  else
    let startAddress := g.logStart
    let buffer := s.cache.flash.read (fun k => s.metaData.bytes.getD k 0) startAddress (metaDataSize / 4)
    let m := MicroBitLogMetaData.ofBytes (slice buffer 0 metaDataSize)
    let m := { version := m.version.set 17 0, logEnd := m.logEnd.set 10 0, dataStart := m.dataStart.set 10 0 }
    let s := { s with
      startAddress, metaData := m
      dataStart := strtoul (cString m.dataStart)
      logEnd := strtoul (cString m.logEnd)
      journalStart := startAddress + g.getPageSize }
    (decide (s.dataStart ≥ s.startAddress + 2 * g.getPageSize) && decide (s.dataStart < s.logEnd) &&
      decide (s.logEnd < g.getFlashEnd) && m.version.take 17 == MICROBIT_LOG_VERSION.take 17, s)

/-- `isFull` -/
def isFull (s : Log g) : Bool := s.full

/-- `setSerialMirroring` -/
def setSerialMirroring (s : Log g) (enable : Bool) : Log g := { s with serialMirror := enable }

/-! ## Loading a log that is on the flash -/

/-- The loop of `init` over the journal: `j` is the entry buffer, `valid` whether an entry was found. `fuel` bounds the
turns. -/
def loadJournal (s : Log g) (journalEntryAddress : Nat) (j : List UInt8) (valid : Bool) : Nat → Log g
  | 0 => s
  | fuel + 1 =>
    if journalEntryAddress < s.dataStart then
      let (j, s) := s.cacheRead journalEntryAddress j
      if j.all (· == 0xFF) && valid then s
      else
        let next := journalEntryAddress + MICROBIT_LOG_JOURNAL_ENTRY_SIZE
        if !j.all (· == 0x00) then
          let s := { s with
            journalHead := journalEntryAddress, dataEnd := u32 (s.dataStart + strtoul (cString j)) }
          s.loadJournal next j true fuel
        else s.loadJournal next j valid fuel
    else s

/-- The loop of `init` that walks to the first unused byte. `fuel` bounds the turns. -/
def walkData (s : Log g) (d : UInt8) : Nat → Log g
  | 0 => s
  | fuel + 1 =>
    if s.dataEnd < s.logEnd then
      let (b, s) := s.cacheRead s.dataEnd [d]
      let d := b.headD d
      if d = 0xFF then s
      else { s with dataEnd := s.dataEnd + 1 }.walkData d fuel
    else s

/-- The number of addresses. -/
@[irreducible] def addressSpace : Nat := 2 ^ 32

/-- The loops of `init` over the headings: read bytes from `address` on until `stop` holds of one. The addresses come
round after `addressSpace` turns, so that many turns without a stop are an endless loop. -/
def scan (s : Log g) (stop : UInt8 → Bool) (address : Nat) (c : UInt8) : Nat → Except Fault (Nat × UInt8 × Log g)
  | 0 => .error .diverges
  | fuel + 1 =>
    let (b, s) := s.cacheRead address [c]
    let c := b.headD c
    if stop c then .ok (address, c, s) else s.scan stop (u32 (address + 1)) c fuel

/-- The keys in a stored list of headings, `count` strings one after the other. -/
def parseKeys (headers : List UInt8) : Nat → List ManagedString
  | 0 => []
  | count + 1 => cString headers :: parseKeys (headers.drop ((cString headers).length + 1)) count

/-- A symbol that ends a heading. -/
def isSeparator (b : UInt8) : Bool := b == ','.toUInt8 || b == '\n'.toUInt8

/-- The second loop of `init` over the headings: from the byte `c` at `start` to the first unused byte. -/
def headingEnd (s : Log g) (start : Nat) (c : UInt8) : Except Fault (Nat × Log g) :=
  if c = 0xFF then .ok (start, s)
  else do
    let r ← s.scan (· == 0xFF) (u32 (start + 1)) c addressSpace
    .ok (r.1, r.2.2)

/-- The part of `init` that parses the column headings, `length` bytes from `start` on. -/
def parseHeadings (s : Log g) (start length : Nat) : Log g :=
  let s := { s with headingLength := length }
  if length > 0 then
    let (headers, s) := s.cacheRead start (List.replicate length 0)
    let keys := parseKeys (headers.map fun b => if isSeparator b then 0 else b) (headers.countP isSeparator)
    { s with headingStart := start, rowData := keys.map fun key => { key } }
  else s

/-- The part of `init` that determines if there are column headings: leading zeroes are old ones, erased. -/
def loadHeadings (s : Log g) : Except Fault (Log g) := do
  let r ← s.scan (· != 0) (s.startAddress + metaDataSize) 0 addressSpace
  let r' ← r.2.2.headingEnd r.1 r.2.1
  .ok (r'.2.parseHeadings r.1 (u32sub r'.1 r.1))

/-- The part of `init` that finds the end of the data: the last entry of the journal says where to begin, and the walk
goes on from there. -/
def loadDataEnd (s : Log g) : Log g :=
  let s := { s with
    journalPages := u32sub (u32sub s.dataStart s.startAddress / g.getPageSize) 1
    journalHead := s.journalStart, dataEnd := s.dataStart }
  let s := s.loadJournal s.journalHead (List.replicate MICROBIT_LOG_JOURNAL_ENTRY_SIZE '0'.toUInt8) false s.dataStart
  s.walkData 0 s.logEnd

/-- `init` for a log that is present. -/
def load (s : Log g) : Except Fault (Log g) := do
  let s ← (s.note (.loading s.toLogState)).loadDataEnd.loadHeadings
  .ok { s with initialized := true }

/-! ## Headings -/

/-- `addHeading` -/
def addHeading (s : Log g) (key value : ManagedString) (head : Bool := false) : Log g :=
  if s.rowData.any (·.key == key) then s
  else
    let column : ColumnEntry := { key, value }
    { s with
      rowData := if head then column :: s.rowData else s.rowData ++ [column]
      headingsChanged := true }

/-- The units in the heading of the time stamp column. Days are called hours there. -/
def timeStampUnits : TimeStampFormat → ManagedString
  | .None => []
  | .Milliseconds => ascii ['m', 'i', 'l', 'l', 'i', 's', 'e', 'c', 'o', 'n', 'd', 's']
  | .Seconds => ascii ['s', 'e', 'c', 'o', 'n', 'd', 's']
  | .Minutes => ascii ['m', 'i', 'n', 'u', 't', 'e', 's']
  | .Hours => ascii ['h', 'o', 'u', 'r', 's']
  | .Days => ascii ['h', 'o', 'u', 'r', 's']

/-- `setTimeStamp`, after its `init()`. -/
def applyTimeStamp (s : Log g) (format : TimeStampFormat) : Log g :=
  let s := { s with timeStampFormat := format }
  if format = .None then s
  else
    let heading := ascii ['T', 'i', 'm', 'e', ' ', '('] ++ timeStampUnits format ++ ascii [')']
    { s with timeStampHeading := heading }.addHeading heading [] (s.dataStart == s.dataEnd)

/-! ## Clearing -/

/-- Erase a page of the flash, without the cache. -/
def erasePage (s : Log g) (w : Writer) (page : Nat) : Log g :=
  let s := s.setCache w { s.cache with flash := s.cache.flash.erase page }
  s.note (.erased page s.cache)

/-- The part of `clear` that zeroes the word of the FULL indicator, forgets what is cached, and erases the pages up to
the first one of the data, or all of them. -/
def eraseStorage (s : Log g) (fullErase : Bool) : Log g :=
  let s := s.setCache .format { s.cache.clear with flash := s.cache.flash.write s.logEnd (fun _ => 0) 1 }
  let pages := (if fullErase then s.logEnd else s.dataStart) / g.getPageSize + 1
  (List.range pages).foldl (fun s i => s.erasePage .format (g.getFlashStart + i * g.getPageSize)) s

/-- The part of `clear` that writes the header, the metadata and an empty journal entry. -/
def writeStorage (s : Log g) : Log g :=
  let c := { s.cache with flash := s.cache.flash.write g.getFlashStart s.header (headerSize / 4) }
  let c := (c.write s.startAddress s.metaData.bytes).2
  s.setCache .format (c.write s.journalHead (List.replicate MICROBIT_LOG_JOURNAL_ENTRY_SIZE '0'.toUInt8)).2

/-- The metadata that `clear` writes. `writeNum` ends each number with a NUL, over the newline of the template. -/
def newMetaData (logEnd dataStart : Nat) : MicroBitLogMetaData :=
  { version := MICROBIT_LOG_VERSION
    logEnd := ascii ['0', 'x'] ++ writeNum logEnd ++ [0]
    dataStart := ascii ['0', 'x'] ++ writeNum dataStart ++ [0] }

/-- `clear`, between its `mutex.wait()` and its `setTimeStamp`. -/
def format (s : Log g) (fullErase : Bool) : Log g :=
  let startAddress := g.logStart
  let journalStart := startAddress + g.getPageSize
  let dataStart := journalStart + CONFIG_MICROBIT_LOG_JOURNAL_PAGES * g.getPageSize
  let logEnd := u32sub (u32sub g.getFlashEnd g.getPageSize) 4
  let s := { s with
    startAddress, journalStart, dataStart, logEnd
    journalPages := CONFIG_MICROBIT_LOG_JOURNAL_PAGES
    journalHead := journalStart
    dataEnd := dataStart
    initialized := false, rowStarted := false, full := false
    headingsChanged := false, headingStart := 0, headingLength := 0, rowData := []
    metaData := newMetaData logEnd dataStart }
  { (s.eraseStorage fullErase).writeStorage with initialized := true }

/-- `clear`. Its `setTimeStamp` finds the log initialised. -/
def clear (s : Log g) (fullErase : Bool := false) : Except Fault (Log g) := do
  let s ← s.wait
  let s := s.format fullErase
  .ok (s.applyTimeStamp s.timeStampFormat).notify

/-- `init` -/
def init (s : Log g) : Except Fault (Log g) :=
  if s.initialized then .ok s
  else
    match s.isPresent with
    | (true, s) => s.load
    | (false, s) => s.clear

/-- `invalidate` -/
def invalidate (s : Log g) : Log g :=
  match s.isPresent with
  | (true, s) =>
    let flash := s.cache.flash.write s.startAddress (fun _ => 0) (metaDataSize / 4)
    let flash := flash.write s.logEnd (fun _ => 0) 1
    { s.setCache .invalidation { s.cache with flash } with initialized := false }
  | (false, s) => { s with initialized := false }

/-- `setTimeStamp` -/
def setTimeStamp (s : Log g) (format : TimeStampFormat) : Except Fault (Log g) := do
  let s ← s.init
  .ok (s.applyTimeStamp format)

end Log

end CodalMicrobit

import CodalMicrobit.Bluetooth.PartialFlashing
import CodalMicrobit.FileSystem.Defs

/-!
# The memory map

`MicroBitMemoryMap` says where the regions of the flash are that can be flashed on their own. It looks for marks at the page
boundaries behind the program: a MakeCode program has one at the start of a page, a MicroPython one has a header in front of a page,
with a table of layout records in front of that.
-/

namespace CodalMicrobit

open Nor

/-- `NUMBER_OF_REGIONS` -/
def NUMBER_OF_REGIONS : Nat := 3

/-- `REGION_SD` -/
def REGION_SD : UInt8 := 0

/-- `REGION_CODAL` -/
def REGION_CODAL : UInt8 := 1

/-- `REGION_MAKECODE` -/
def REGION_MAKECODE : UInt8 := 2

/-- `HASH_TYPE_POINTER` -/
def HASH_TYPE_POINTER : UInt8 := 2

/-- `MAX_STRING_LENGTH` -/
def MAX_STRING_LENGTH : Nat := 100

/-- What the linker and the boot loader fix. -/
structure FlashBounds where
  FLASH_PROGRAM_END : Nat
  MICROBIT_APP_REGION_START : Nat
  MICROBIT_APP_REGION_END : Nat
  MICROBIT_DEFAULT_SCRATCH_PAGE : Nat

/-- `MicroPythonLayoutRecord` -/
structure MicroPythonLayoutRecord where
  id : UInt8
  ht : UInt8
  regPage : UInt16
  regLen : UInt32
  hashData : UInt32 × UInt32

/-- `MicroBitMemoryMap`. There are never more regions than it has room for. -/
structure MicroBitMemoryMap where
  regionCount : Nat := 0
  memoryMap : Vector Region NUMBER_OF_REGIONS := Vector.replicate NUMBER_OF_REGIONS ⟨0, 0, 0, List.replicate 8 0⟩
  counted : regionCount ≤ NUMBER_OF_REGIONS := by decide

/-- Why a call does not come back: it writes to a slot that the map does not have. -/
inductive MapFault where
  | outside (index : UInt8)
  deriving DecidableEq, Repr

/-- The record at the given address. -/
def layoutRecord (m : Memory) (address : Nat) : MicroPythonLayoutRecord :=
  { id := m address
    ht := m (address + 1)
    regPage := (readU16 m (address + 2)).toUInt16
    regLen := (readU32 m (address + 4)).toUInt32
    hashData := ((readU32 m (address + 8)).toUInt32, (readU32 m (address + 12)).toUInt32) }

namespace MicroPythonLayoutRecord

/-- The start of the region. -/
def start (r : MicroPythonLayoutRecord) : UInt32 := r.regPage.toUInt32 * MICROBIT_CODEPAGESIZE.toUInt32

/-- The hash of the region, or of the string that the record points to. `crc32` is `crc32_compute` of the SDK. -/
def hash (crc32 : List UInt8 → UInt32) (m : Memory) (r : MicroPythonLayoutRecord) : List UInt8 :=
  if r.ht = HASH_TYPE_POINTER then
    let string := (slice m r.hashData.1.toNat MAX_STRING_LENGTH).takeWhile (· != 0)
    u32Bytes (crc32 string).toNat ++ u32Bytes 0
  else u32Bytes r.hashData.1.toNat ++ u32Bytes r.hashData.2.toNat

/-- What is stored in the memory map for the record. -/
def region (crc32 : List UInt8 → UInt32) (m : Memory) (r : MicroPythonLayoutRecord) : Region :=
  { regionId := r.id, startAddress := r.start, endAddress := r.start + r.regLen, hash := r.hash crc32 m }

end MicroPythonLayoutRecord

namespace MicroBitMemoryMap

/-- `pushRegion`. The hash is not copied. -/
def pushRegion (s : MicroBitMemoryMap) (regionId : UInt8) (startAddress endAddress : UInt32) : ErrorCode × MicroBitMemoryMap :=
  if h : s.regionCount = NUMBER_OF_REGIONS then (.DEVICE_NO_RESOURCES, s)
  else
    have hlt : s.regionCount < NUMBER_OF_REGIONS := Nat.lt_of_le_of_ne s.counted h
    (.DEVICE_OK,
      { regionCount := s.regionCount + 1
        memoryMap := s.memoryMap.set s.regionCount { s.memoryMap[s.regionCount] with regionId, startAddress, endAddress } hlt
        counted := hlt })

/-- `processRecord` -/
def processRecord (crc32 : List UInt8 → UInt32) (m : Memory) (s : MicroBitMemoryMap) (address : Nat) :
    Except MapFault (ErrorCode × MicroBitMemoryMap) :=
  let record := layoutRecord m address
  if record.id.toNat > NUMBER_OF_REGIONS then .ok (.DEVICE_INVALID_PARAMETER, s)
  else
    let index := record.id - 1
    if h : index.toNat < NUMBER_OF_REGIONS then
      .ok (.DEVICE_OK, { s with memoryMap := s.memoryMap.set index.toNat (record.region crc32 m) h })
    else .error (.outside index)

/-- The magic of a MakeCode program. -/
def isMakeCode (m : Memory) (magicAddress : Nat) : Bool :=
  readU32 m magicAddress == 0x923B8E70 && readU32 m (magicAddress + 4) == 0x41A815C6 &&
    readU32 m (magicAddress + 8) == 0xC96698C4 && readU32 m (magicAddress + 12) == 0x9751EE75

/-- An address that lies so many bytes in front of another one. -/
def before (address n : Nat) : Nat := (address + 2 ^ 32 - n) % 2 ^ 32

/-- The magic of a MicroPython program. -/
def isPython (m : Memory) (magicAddress : Nat) : Bool :=
  readU32 m (before magicAddress 16) == 0x597F30FE && readU32 m (before magicAddress 4) == 0xC1B1D79D

/-- The addresses of the layout records, as many as the header says. -/
def pythonRecords (m : Memory) (magicAddress : Nat) : List Nat :=
  let nRegions := m (before magicAddress 8)
  (List.range nRegions.toNat).map fun i => before magicAddress ((2 + i) * 16)

/-- The part of `findHashes` for a MakeCode program. -/
def makeCodeRegions (b : FlashBounds) (m : Memory) (s : MicroBitMemoryMap) (magicAddress : Nat) : MicroBitMemoryMap :=
  let s := (s.pushRegion REGION_SD 0 b.MICROBIT_APP_REGION_START.toUInt32).2
  let s := (s.pushRegion REGION_CODAL b.MICROBIT_APP_REGION_START.toUInt32 b.FLASH_PROGRAM_END.toUInt32).2
  let start := b.FLASH_PROGRAM_END + (MICROBIT_CODEPAGESIZE - b.FLASH_PROGRAM_END % MICROBIT_CODEPAGESIZE)
  let s := (s.pushRegion REGION_MAKECODE start.toUInt32 b.MICROBIT_APP_REGION_END.toUInt32).2
  let codal : Region := { s.memoryMap[1] with hash := slice m (magicAddress + 16) 8 }
  let makeCode : Region :=
    { s.memoryMap[2] with hash := slice m (magicAddress + 24) 8, startAddress := magicAddress.toUInt32 }
  { s with memoryMap := (s.memoryMap.set 1 codal).set 2 makeCode }

/-- The loop of `findHashes` over the pages. What `processRecord` returns is not looked at. -/
def findPages (b : FlashBounds) (crc32 : List UInt8 → UInt32) (m : Memory) (s : MicroBitMemoryMap) :
    List Nat → Except MapFault MicroBitMemoryMap
  | [] => .ok s
  | magicAddress :: pages =>
    if isMakeCode m magicAddress then .ok (s.makeCodeRegions b m magicAddress)
    else if isPython m magicAddress then do
      let s ← (pythonRecords m magicAddress).foldlM (fun s address => do
        let (_, s) ← s.processRecord crc32 m address
        .ok s) s
      s.findPages b crc32 m pages
    else s.findPages b crc32 m pages

/-- The pages that `findHashes` looks at. -/
def pages (b : FlashBounds) : List Nat :=
  let rem := b.FLASH_PROGRAM_END % MICROBIT_CODEPAGESIZE
  let add := if rem ≠ 0 then b.FLASH_PROGRAM_END + (MICROBIT_CODEPAGESIZE - rem) else b.FLASH_PROGRAM_END
  (List.range ((b.MICROBIT_DEFAULT_SCRATCH_PAGE - add + (MICROBIT_CODEPAGESIZE - 1)) / MICROBIT_CODEPAGESIZE)).map fun i =>
    add + MICROBIT_CODEPAGESIZE * i

/-- `findHashes` -/
def findHashes (b : FlashBounds) (crc32 : List UInt8 → UInt32) (m : Memory) (s : MicroBitMemoryMap) :
    Except MapFault MicroBitMemoryMap :=
  s.findPages b crc32 m (pages b)

end MicroBitMemoryMap

end CodalMicrobit

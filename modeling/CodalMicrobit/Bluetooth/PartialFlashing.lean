import CodalMicrobit.MicroBitFlash

/-!
# Partial flashing

`MicroBitPartialFlashingService` receives a program over Bluetooth in packets of 16 bytes. Four packets with consecutive
numbers make a batch of 64 bytes; the first two also carry the address it goes to. When a batch is complete an event is
raised, and the handler of that event, which runs some time later, burns the batch into flash and notifies the client.
Packets are received at any time, also while a handler waits or runs.
-/

namespace CodalMicrobit

open Nor

/-- The bytes a client wrote. -/
abbrev Packet := Nat → UInt8

/-- `REGION_INFO` -/
def REGION_INFO : UInt8 := 0x00

/-- `FLASH_DATA` -/
def FLASH_DATA : UInt8 := 0x01

/-- `REGION_PYTHON` -/
def REGION_PYTHON : UInt8 := 3

/-- `MicroBitMemoryMap::Region` -/
structure Region where
  regionId : UInt8
  startAddress : UInt32
  endAddress : UInt32
  hash : List UInt8

namespace Packet

/-- The number of a packet. -/
def num (p : Packet) : UInt8 := p 3

/-- The data of a packet. -/
def data (p : Packet) : List UInt8 := slice p 4 16

/-- The low half of an address, as the first packet of a batch carries it. -/
def low (p : Packet) : UInt32 := (p 1).toUInt32 <<< 8 ||| (p 2).toUInt32

/-- The high half of an address, as the second packet of a batch carries it. -/
def high (p : Packet) : UInt32 := (p 1).toUInt32 <<< 24 ||| (p 2).toUInt32 <<< 16

end Packet

/-- A write event, with what the service held when it was raised. -/
structure WriteEvent where
  batch : List Packet
  block : Packet
  offset : UInt32

/-- A burn of 16 words, and the event whose handler performed it. -/
structure Burn where
  event : WriteEvent
  address : UInt32
  bytes : List UInt8

/-- `MicroBitPartialFlashingService`, with the flash it writes and the two globals. `queue` holds the events whose
handlers have not run yet, `handling` the one whose handler runs, with its `flashPointer`. The last three members are a
record that nothing reads: the packets accepted since the last reset, the events raised and the burns performed. -/
structure PartialFlashing where
  memoryMap : Nat → Region
  micropython_fs_start : UInt32 := 0
  micropython_fs_end : UInt32 := 0
  packetCount : UInt8 := 0
  blockPacketCount : UInt8 := 0
  block : Packet
  blockNum : UInt8 := 0
  offset : UInt32 := 0
  flash : Memory
  flashIncomplete : Bool := false
  notifications : List (List UInt8) := []
  queue : List WriteEvent := []
  handling : Option (WriteEvent × UInt32) := none
  batch : List Packet := []
  raised : List WriteEvent := []
  burns : List Burn := []

namespace PartialFlashing

/-- `notifyChrValue` -/
def notify (s : PartialFlashing) (buffer : List UInt8) : PartialFlashing :=
  { s with notifications := s.notifications ++ [buffer] }

/-- The four bytes of a word, the highest first. -/
def bytes (w : UInt32) : List UInt8 := [(w >>> 24).toUInt8, (w >>> 16).toUInt8, (w >>> 8).toUInt8, w.toUInt8]

/-- What `onDataWritten` does with a `REGION_INFO` packet. -/
def regionInfo (s : PartialFlashing) (data : Packet) : PartialFlashing :=
  let fs := s.memoryMap 2
  let s :=
    if s.micropython_fs_end = 0 ∧ fs.startAddress ≠ 0 ∧ fs.regionId = REGION_PYTHON then
      { s with micropython_fs_start := fs.startAddress, micropython_fs_end := fs.endAddress }
    else s
  let region := s.memoryMap (data 1).toNat
  let s := s.notify ([0x00, data 1] ++ bytes region.startAddress ++ bytes region.endAddress ++ region.hash)
  { s with packetCount := 0, blockPacketCount := 0, blockNum := 0, offset := 0, batch := [] }

/-- The packet is one of a batch before: its number is less than 8 below the one that is expected. -/
def stale (packetNum packetCount : UInt8) : Bool :=
  if packetNum < packetCount then packetCount.toNat - packetNum.toNat < 8
  else packetNum.toNat - packetCount.toNat > 248

/-- What `flashData` does with a packet whose number is not the one expected. -/
def packetError (s : PartialFlashing) : PartialFlashing :=
  let s := s.notify [FLASH_DATA, 0xAA]
  { s with
    blockPacketCount := s.blockPacketCount + 4, packetCount := s.blockPacketCount + 4, blockNum := 0, batch := [] }

/-- Raise the write event. -/
def fire (s : PartialFlashing) : PartialFlashing :=
  let e : WriteEvent := { batch := s.batch, block := s.block, offset := s.offset }
  { s with queue := s.queue ++ [e], raised := s.raised ++ [e] }

/-- What `flashData` does with a packet whose number is the one expected. -/
def accept (s : PartialFlashing) (data : Packet) : PartialFlashing :=
  let s := { s with
    packetCount := s.packetCount + 1
    block := put s.block (16 * s.blockNum.toNat) data.data
    batch := s.batch ++ [data] }
  if s.blockNum = 0 then { s with offset := data.low, blockNum := s.blockNum + 1 }
  else if s.blockNum = 1 then { s with offset := s.offset ||| data.high, blockNum := s.blockNum + 1 }
  else if s.blockNum = 3 then
    let s := s.fire
    { s with blockNum := 0, blockPacketCount := s.blockPacketCount + 4, batch := [] }
  else { s with blockNum := s.blockNum + 1 }

/-- `flashData` -/
def flashData (s : PartialFlashing) (data : Packet) : PartialFlashing :=
  if data.num ≠ s.packetCount then
    if stale data.num s.packetCount then s else s.packetError
  else s.accept data

/-- `onDataWritten`, for the control characteristic. The other commands touch none of the members. -/
def onDataWritten (s : PartialFlashing) (data : Packet) : PartialFlashing :=
  if data 0 = REGION_INFO then s.regionInfo data
  else if data 0 = FLASH_DATA then s.flashData data
  else s

/-! ## The handler of the write event -/

/-- A word of the page is not erased. -/
def pageUsed (m : Memory) (page : Nat) : Bool := (List.range MICROBIT_CODEPAGESIZE).any fun k => m (page + k) != blank

/-- `erase_page`, if the page needs it. -/
def erasePage (m : Memory) (page : Nat) : Memory :=
  if pageUsed m page then Nor.erase m page MICROBIT_CODEPAGESIZE else m

/-- Erase the pages of the file system, from `page` on. -/
def eraseFileSystem (m : Memory) (first last : Nat) : Memory :=
  (List.range ((last - first + (MICROBIT_CODEPAGESIZE - 1)) / MICROBIT_CODEPAGESIZE)).foldl
    (fun m i => erasePage m (first + i * MICROBIT_CODEPAGESIZE)) m

/-- `partialFlashingEvent`, up to its burn: it takes the next event, marks the flash as incomplete, reads `offset`, and
erases the page it is the start of. -/
def startHandler (s : PartialFlashing) : PartialFlashing :=
  match s.handling, s.queue with
  | none, e :: queue =>
    let flash :=
      if !s.flashIncomplete && s.micropython_fs_end != 0 then
        eraseFileSystem s.flash s.micropython_fs_start.toNat s.micropython_fs_end.toNat
      else s.flash
    let flashPointer := s.offset
    let flash := if flashPointer.toNat % MICROBIT_CODEPAGESIZE = 0 then erasePage flash flashPointer.toNat else flash
    { s with queue, flash, flashIncomplete := true, handling := some (e, flashPointer) }
  | _, _ => s

/-- The rest of `partialFlashingEvent`: it burns the 16 words of `block`, and notifies the client. -/
def burn (s : PartialFlashing) : PartialFlashing :=
  match s.handling with
  | some (e, flashPointer) =>
    let s : PartialFlashing := { s with
      flash := program s.flash flashPointer.toNat 64 s.block
      handling := none
      burns := s.burns ++ [{ event := e, address := flashPointer, bytes := slice s.block 0 64 }] }
    s.notify [FLASH_DATA, 0xFF]
  | none => s

/-! ## The end of the transmission -/

/-- A burn that no batch has asked for. -/
structure FinalBurn where
  address : UInt32
  bytes : List UInt8

/-- What the handler of END_OF_TRANSMISSION burns. -/
def finalBurn (s : PartialFlashing) : FinalBurn := { address := s.offset, bytes := slice s.block 0 64 }

/-- `partialFlashingEvent` for END_OF_TRANSMISSION, up to the restart: it burns the block, and the flash counts as complete. -/
def endOfTransmission (s : PartialFlashing) : PartialFlashing :=
  { s with flash := program s.flash s.offset.toNat 64 s.block, flashIncomplete := false }

end PartialFlashing

/-- What happens next: a packet is received, or a handler starts, or burns. -/
inductive FlashingStep where
  | packet (data : Packet)
  | startHandler
  | burn

namespace PartialFlashing

/-- The service after a step. -/
def step (s : PartialFlashing) : FlashingStep → PartialFlashing
  | .packet data => s.onDataWritten data
  | .startHandler => s.startHandler
  | .burn => s.burn

/-- The service after a sequence of steps. -/
def run (s : PartialFlashing) (steps : List FlashingStep) : PartialFlashing := steps.foldl step s

/-- The service as it is constructed. The block holds whatever the memory held. -/
def new (memoryMap : Nat → Region) (block : Packet) (flash : Memory) (flashIncomplete : Bool) : PartialFlashing :=
  { memoryMap, block, flash, flashIncomplete }

end PartialFlashing

end CodalMicrobit

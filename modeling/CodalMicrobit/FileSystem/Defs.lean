import CodalMicrobit.MicroBitFlash
import CodalMicrobit.Log.Text

/-!
# The state of a file system

`MicroBitFileSystem` divides a stretch of the internal flash into blocks. The first blocks hold the file table, an entry
of 16 bits for each block: the next block of a chain, the end of one, or that the block is unused or deleted. The chain
after the table is the root directory; directories hold entries of 24 bytes. Here are the members of the class and the
functions that read the flash.
-/

namespace CodalMicrobit

open Nor

/-- `MBFS_BLOCK_SIZE` -/
def MBFS_BLOCK_SIZE : Nat := 256

/-- `MBFS_FILENAME_LENGTH` -/
def MBFS_FILENAME_LENGTH : Nat := 16

/-- `MBFS_MAGIC` -/
def MBFS_MAGIC : List UInt8 := ascii ['M', 'I', 'C', 'R', 'O', 'B', 'I', 'T', '_', 'F', 'S', '_', '1', '_', '0']

/-- `MB_READ` -/
def MB_READ : Nat := 0x01

/-- `MB_WRITE` -/
def MB_WRITE : Nat := 0x02

/-- `MB_CREAT` -/
def MB_CREAT : Nat := 0x04

/-- `MB_APPEND` -/
def MB_APPEND : Nat := 0x08

/-- `MB_SEEK_SET` -/
def MB_SEEK_SET : Nat := 0x01

/-- `MB_SEEK_END` -/
def MB_SEEK_END : Nat := 0x02

/-- `MB_SEEK_CUR` -/
def MB_SEEK_CUR : Nat := 0x04

/-- `MBFS_UNUSED` -/
def MBFS_UNUSED : Nat := 0xFFFF

/-- `MBFS_EOF` -/
def MBFS_EOF : Nat := 0xEFFF

/-- `MBFS_DELETED` -/
def MBFS_DELETED : Nat := 0x0000

/-- `MBFS_DIRECTORY_ENTRY_FREE` -/
def MBFS_DIRECTORY_ENTRY_FREE : Nat := 0x8000

/-- `MBFS_DIRECTORY_ENTRY_VALID` -/
def MBFS_DIRECTORY_ENTRY_VALID : Nat := 0x4000

/-- `MBFS_DIRECTORY_ENTRY_DIRECTORY` -/
def MBFS_DIRECTORY_ENTRY_DIRECTORY : Nat := 0x2000

/-- `MBFS_DIRECTORY_ENTRY_NEW` -/
def MBFS_DIRECTORY_ENTRY_NEW : Nat := 0xFFFF

/-- `MBFS_DIRECTORY_ENTRY_DELETED` -/
def MBFS_DIRECTORY_ENTRY_DELETED : Nat := 0x0000

/-- The `MBFS_BLOCK_TYPE`s. -/
inductive BlockType where
  | FILE
  | DIRECTORY
  | FILETABLE
  deriving DecidableEq, Repr

/-- The blocks of a page. -/
def blocksPerPage : Nat := MICROBIT_CODEPAGESIZE / MBFS_BLOCK_SIZE

/-! ## Numbers in memory -/

/-- A 16-bit number as it lies in memory. -/
def u16Bytes (n : Nat) : List UInt8 := [n.toUInt8, (n / 2 ^ 8).toUInt8]

/-- A 32-bit number as it lies in memory. -/
def u32Bytes (n : Nat) : List UInt8 := [n.toUInt8, (n / 2 ^ 8).toUInt8, (n / 2 ^ 16).toUInt8, (n / 2 ^ 24).toUInt8]

/-- The 16-bit number at the given address. -/
def readU16 (m : Memory) (a : Nat) : Nat := (m a).toNat + 2 ^ 8 * (m (a + 1)).toNat

/-- The 32-bit number at the given address. -/
def readU32 (m : Memory) (a : Nat) : Nat := readU16 m a + 2 ^ 16 * readU16 m (a + 2)

/-! ## Directory entries -/

/-- `DirectoryEntry` -/
structure DirectoryEntry where
  fileName : List UInt8
  firstBlock : Nat
  flags : Nat
  length : Nat

/-- `sizeof(DirectoryEntry)` -/
def directoryEntrySize : Nat := 24

/-- A directory entry as it lies in memory. -/
def DirectoryEntry.bytes (d : DirectoryEntry) : List UInt8 :=
  d.fileName ++ u16Bytes d.firstBlock ++ u16Bytes d.flags ++ u32Bytes d.length

/-- The member `first_block` of the directory entry at the given address. -/
def firstBlockAt (m : Memory) (dirent : Nat) : Nat := readU16 m (dirent + 16)

/-- The member `flags`. -/
def flagsAt (m : Memory) (dirent : Nat) : Nat := readU16 m (dirent + 18)

/-- The member `length`. -/
def lengthAt (m : Memory) (dirent : Nat) : Nat := readU32 m (dirent + 20)

/-- The directory entry at the given address. -/
def directoryEntryAt (m : Memory) (dirent : Nat) : DirectoryEntry :=
  { fileName := slice m dirent MBFS_FILENAME_LENGTH
    firstBlock := firstBlockAt m dirent
    flags := flagsAt m dirent
    length := lengthAt m dirent }

/-- `strcmp` finds the text at the given address and the given one equal. -/
def nameIs (m : Memory) (a : Nat) (name : List UInt8) : Bool := slice m a (name.length + 1) == name ++ [0]

/-- The entry is marked as free: it was never written since its block was erased. -/
def isFree (m : Memory) (dirent : Nat) : Bool := flagsAt m dirent &&& MBFS_DIRECTORY_ENTRY_FREE != 0

/-- The entry is marked as valid. -/
def isValid (m : Memory) (dirent : Nat) : Bool := flagsAt m dirent &&& MBFS_DIRECTORY_ENTRY_VALID != 0

/-! ## The members -/

/-- What a build fixes: two constants, the end of the program (which the linker supplies), and what the stack holds where
a new directory entry is put together. -/
structure FSConfig where
  MBFS_CACHE_SIZE : Nat := 0
  MICROBIT_DEFAULT_SCRATCH_PAGE : Nat := 0x73000
  FLASH_PROGRAM_END : Nat := 0
  stack : Nat → UInt8 := fun _ => 0

/-- The members of `MicroBitFileSystem` that stay as they are after `init`. -/
structure Layout extends FSConfig where
  fileSystemSize : Nat
  fileSystemTable : Nat
  fileSystemTableSize : Nat
  rootDirectory : Nat

/-- `FileDescriptor`. Of the cache only the first `cacheLength` bytes are kept. -/
structure FileDescriptor where
  flags : Nat
  id : Nat
  seek : Nat
  length : Nat
  dirent : Nat
  directory : Nat
  cache : List UInt8 := []

/-- Why an operation does not come back: a loop never ends, or a text is copied past the end of its buffer. -/
inductive FSFault where
  | diverges
  | overrun
  deriving DecidableEq, Repr

/-- An entry of the record of what a file system did. Each carries the flash as it was before. -/
inductive FSEvent where
  /-- A block was allocated. -/
  | block (b : Nat) (before : Memory)
  /-- A page was found to be used as a scratch page. -/
  | page (address : Nat) (before : Memory)
  /-- The page of a block is about to be refreshed. -/
  | recycling (b : Nat) (before : Memory)
  /-- An entry of a directory was chosen for a file. -/
  | entry (dirent directory : Nat) (before : Memory)
  /-- Data is about to be written. -/
  | data (address : Nat) (bytes : List UInt8) (scratch : Nat) (before : Memory)

/-- The flash and the members that go with it. `history` is the record of what was done, oldest first; no operation reads
it. -/
structure Volume (L : Layout) where
  flash : Memory
  lastBlockAllocated : Nat := 0
  history : List FSEvent := []

/-- `MicroBitFileSystem`. `openFiles` is the chain of open files. -/
structure FileSystem (L : Layout) extends Volume L where
  initialised : Bool := true
  openFiles : List FileDescriptor := []

/-! ## Addresses -/

namespace Layout

/-- `getBlock` -/
def getBlock (L : Layout) (block : Nat) : Nat := L.fileSystemTable + block * MBFS_BLOCK_SIZE

/-- `getPage` -/
def getPage (L : Layout) (block : Nat) : Nat := L.getBlock block - L.getBlock block % MICROBIT_CODEPAGESIZE

/-- `getBlockNumber`, in 32-bit arithmetic and returned as a 16-bit number. -/
def getBlockNumber (L : Layout) (address : Nat) : Nat :=
  (address + 2 ^ 32 - L.fileSystemTable) % 2 ^ 32 / MBFS_BLOCK_SIZE % 2 ^ 16

/-- The directory entries of a block. -/
def entries (L : Layout) (block : Nat) : List Nat :=
  (List.range (MBFS_BLOCK_SIZE / directoryEntrySize)).map fun i => L.getBlock block + directoryEntrySize * i

/-- `getNextFileBlock` -/
def getNextFileBlock (L : Layout) (m : Memory) (block : Nat) : Nat := readU16 m (L.fileSystemTable + 2 * block)

end Layout

/-- A 16-bit block number has this many values: a walk along a chain that takes as many steps is an endless loop. -/
@[irreducible] def blockNumbers : Nat := 2 ^ 16

namespace Volume

variable {L : Layout}

/-- Add an entry to the record. -/
def note (v : Volume L) (e : FSEvent) : Volume L := { v with history := v.history ++ [e] }

/-- `fileSystemTable[block]` -/
def table (v : Volume L) (block : Nat) : Nat := L.getNextFileBlock v.flash block

/-- `flash.flash_write`. Without a scratch page the default one is used. -/
def flashWrite (v : Volume L) (address : Nat) (bytes : List UInt8)
    (scratch : Nat := L.MICROBIT_DEFAULT_SCRATCH_PAGE) : Volume L :=
  { v with flash := (MicroBitFlash.flashWrite v.flash address bytes scratch).2 }

/-- `flash.erase_page` -/
def erasePage (v : Volume L) (page : Nat) : Volume L := { v with flash := MicroBitFlash.erasePage v.flash page }

/-- `fileTableWrite` -/
def fileTableWrite (v : Volume L) (block value : Nat) : Volume L :=
  v.flashWrite (L.fileSystemTable + 2 * block) (u16Bytes value)

/-! ## Finding a file -/

/-- The part of a file name after its last slash. -/
def baseName (filename : List UInt8) : List UInt8 := (filename.reverse.takeWhile (· != '/'.toUInt8)).reverse

/-- The loop of `getDirectoryEntry` over the blocks of a directory. `fuel` bounds the turns. -/
def findEntry (v : Volume L) (file : List UInt8) (block : Nat) : Nat → Except FSFault (Option Nat)
  | 0 => .error .diverges
  | fuel + 1 =>
    match (L.entries block).find? fun dirent => isValid v.flash dirent && nameIs v.flash dirent file with
    | some dirent => .ok (some dirent)
    | none => if v.table block = MBFS_EOF then .ok none else v.findEntry file (v.table block) fuel

/-- `getDirectoryEntry` -/
def getDirectoryEntry (v : Volume L) (filename : List UInt8) (directory : Nat) : Except FSFault (Option Nat) :=
  v.findEntry (baseName filename) (firstBlockAt v.flash directory) blockNumbers

/-- The loop of `getDirectoryOf`: `s` is the name of the level that is being read. The buffer it is copied to has room for
`MBFS_FILENAME_LENGTH + 1` bytes. -/
def walkPath (v : Volume L) (directory : Nat) (s : List UInt8) : List UInt8 → Except FSFault (Option Nat)
  | [] => .ok (some directory)
  | c :: filename =>
    if s.length ≥ MBFS_FILENAME_LENGTH + 1 then .error .overrun
    else if c = '/'.toUInt8 then
      if s.length = 0 ∨ s.length > MBFS_FILENAME_LENGTH + 1 then .ok none
      else do
        match ← v.getDirectoryEntry s directory with
        | none => .ok none
        | some directory => v.walkPath directory [] filename
    else v.walkPath directory (s ++ [c]) filename

/-- `getDirectoryOf` -/
def getDirectoryOf (v : Volume L) (filename : List UInt8) : Except FSFault (Option Nat) :=
  if filename = [] then .ok (some L.rootDirectory) else v.walkPath L.rootDirectory [] filename

end Volume

/-- `isValidFilename` -/
def isValidFilename (name : List UInt8) : Bool := name != [] && !name.any fun c => c < 32 || c > 126

end CodalMicrobit

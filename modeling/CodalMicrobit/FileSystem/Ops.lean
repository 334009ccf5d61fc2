import CodalMicrobit.FileSystem.Defs

/-!
# The operations of a file system

Allocating and recycling blocks, making directory entries, and the calls a user of the file system can make. An operation
that returns gives its answer and the file system it leaves; one that never ends, or writes past a buffer, gives an
`FSFault`.
-/

namespace CodalMicrobit

open Nor

namespace Volume

variable {L : Layout}

/-! ## Allocation -/

/-- What the scan of a page for `getFreePage` finds: whether there is a deleted block, up to the first block in use, and
whether there is no block in use. -/
def scanPage (v : Volume L) (page : Nat) : Bool × Bool :=
  let used := fun i => v.table (page + i) ≠ MBFS_DELETED ∧ v.table (page + i) ≠ MBFS_UNUSED
  let before := (List.range blocksPerPage).takeWhile fun i => ¬used i
  (before.any fun i => v.table (page + i) = MBFS_DELETED, before.length = blocksPerPage)

/-- The loop of `getFreePage`: the first page without a block in use, or else the first one noted as recyclable (0 for
none). `fuel` bounds the turns. -/
def findPage (v : Volume L) (currentPage page recyclablePage : Nat) : Nat → Except FSFault (Option Nat × Nat)
  | 0 => .error .diverges
  | fuel + 1 =>
    if page = currentPage then .ok (none, recyclablePage)
    else
      let (deleted, empty) := v.scanPage page
      if empty then .ok (some page, recyclablePage)
      else v.findPage currentPage ((page + blocksPerPage) % L.fileSystemSize % 2 ^ 16)
        (if deleted ∧ recyclablePage = 0 then page else recyclablePage) fuel

/-- `getFreePage` -/
def getFreePage (v : Volume L) : Except FSFault (Nat × Volume L) := do
  let currentPage := L.getBlockNumber (L.getPage v.lastBlockAllocated)
  match ← v.findPage currentPage ((currentPage + blocksPerPage) % L.fileSystemSize % 2 ^ 16) 0 blockNumbers with
  | (some page, _) =>
    .ok (L.getBlock page, { v.note (.page (L.getBlock page) v.flash) with lastBlockAllocated := page })
  | (none, recyclablePage) =>
    let page := if recyclablePage ≠ 0 then L.getBlock recyclablePage else L.MICROBIT_DEFAULT_SCRATCH_PAGE
    .ok (page, (v.note (.page page v.flash)).erasePage page)

/-- A turn of the loop of `recycleBlock`: block `i` of the page is copied to the scratch page, less what can be recycled.
-/
def copyBlock (block : Nat) (type : BlockType) (first scratch : Nat) (v : Volume L) (i : Nat) : Volume L :=
  let b := (first + i) % 2 ^ 16
  let write := scratch + i * MBFS_BLOCK_SIZE
  if v.table b = MBFS_DELETED ∨ v.table b = MBFS_UNUSED then v
  else if b = block ∧ type = .DIRECTORY then
    (List.range (MBFS_BLOCK_SIZE / directoryEntrySize)).foldl (fun v entry =>
      let direntIn := L.getBlock b + directoryEntrySize * entry
      if isValid v.flash direntIn then
        v.flashWrite (write + directoryEntrySize * entry) (slice v.flash direntIn directoryEntrySize)
      else v) v
  else if L.getBlock b < L.rootDirectory then
    (List.range (MBFS_BLOCK_SIZE / 2)).foldl (fun v entry =>
      let tableIn := L.getBlock b + 2 * entry
      if readU16 v.flash tableIn ≠ MBFS_DELETED then v.flashWrite (write + 2 * entry) (slice v.flash tableIn 2)
      else v) v
  else v.flashWrite write (slice v.flash (L.getBlock b) MBFS_BLOCK_SIZE)

/-- `recycleBlock` -/
def recycleBlock (v : Volume L) (block : Nat) (type : BlockType := .FILE) : Except FSFault (Volume L) := do
  let v := v.note (.recycling block v.flash)
  let page := L.getPage block
  let (scratch, v) ← v.getFreePage
  let v := (List.range blocksPerPage).foldl (copyBlock block type (L.getBlockNumber page) scratch) v
  let v := v.erasePage page
  let v := v.flashWrite page (slice v.flash scratch MICROBIT_CODEPAGESIZE)
  .ok (v.erasePage scratch)

/-- The first loop of `recycleFileTable`. -/
def recycleDeleted (v : Volume L) (pageRecycled : Bool) : List Nat → Except FSFault (Volume L)
  | [] => .ok v
  | block :: blocks => do
    let pageRecycled := if block % blocksPerPage = 0 then false else pageRecycled
    if v.table block = MBFS_DELETED ∧ pageRecycled = false then
      let v ← v.recycleBlock block
      v.recycleDeleted true blocks
    else v.recycleDeleted pageRecycled blocks

/-- The second loop of `recycleFileTable`. -/
def recycleTable (v : Volume L) : List Nat → Except FSFault (Volume L)
  | [] => .ok v
  | block :: blocks => do
    let v ← v.recycleBlock block
    v.recycleTable blocks

/-- The first blocks of the pages that `recycleFileTable` takes the file table to lie in. -/
def tablePages (L : Layout) : List Nat :=
  ((List.range (2 ^ 16 / blocksPerPage)).map (· * blocksPerPage)).takeWhile fun block => L.getPage block < L.rootDirectory

/-- `recycleFileTable` -/
def recycleFileTable (v : Volume L) : Except FSFault (Volume L) := do
  let v ← v.recycleDeleted false (List.range L.fileSystemSize)
  v.recycleTable (tablePages L)

/-- The loop of `getFreeBlock`: the first unused block from `block` on, up to the last one allocated, or else the last
deleted one. `block` is a 16-bit number: it wraps to 0, but not at the end of the table. -/
def findBlock (v : Volume L) (block deletedBlock : Nat) : Nat → Option Nat × Nat
  | 0 => (none, deletedBlock)
  | fuel + 1 =>
    if block = v.lastBlockAllocated then (none, deletedBlock)
    else if v.table block = MBFS_UNUSED then (some block, deletedBlock)
    else v.findBlock ((block + 1) % 2 ^ 16) (if v.table block = MBFS_DELETED then block else deletedBlock) fuel

/-- `getFreeBlock` -/
def getFreeBlock (v : Volume L) : Except FSFault (Nat × Volume L) :=
  match v.findBlock ((v.lastBlockAllocated + 1) % L.fileSystemSize % 2 ^ 16) 0 blockNumbers with
  | (some block, _) => .ok (block, { v.note (.block block v.flash) with lastBlockAllocated := block })
  | (none, 0) => .ok (0, v.note (.block 0 v.flash))
  | (none, block) => do
    let v ← (v.note (.block block v.flash)).recycleFileTable
    .ok (block, { v with lastBlockAllocated := block })

/-! ## Directories -/

/-- The scan of `createDirectoryEntry` over the entries of a block: the first free one, or the first invalid one. -/
def scanEntries (m : Memory) (invalid : Option Nat) : List Nat → Option Nat × Option Nat
  | [] => (none, invalid)
  | dirent :: dirents =>
    if isFree m dirent then (some dirent, invalid)
    else scanEntries m (if !isValid m dirent && invalid.isNone then some dirent else invalid) dirents

/-- The loop of `createDirectoryEntry` over the blocks of a directory. -/
def scanDirectory (v : Volume L) (block : Nat) (invalid : Option Nat) :
    Nat → Except FSFault (Option Nat × Option Nat)
  | 0 => .error .diverges
  | fuel + 1 =>
    match scanEntries v.flash invalid (L.entries block) with
    | (some empty, invalid) => .ok (some empty, invalid)
    | (none, invalid) =>
      if v.table block = MBFS_EOF then .ok (none, invalid) else v.scanDirectory (v.table block) invalid fuel

/-- The last block of a chain. -/
def lastBlock (v : Volume L) (block : Nat) : Nat → Except FSFault Nat
  | 0 => .error .diverges
  | fuel + 1 => if v.table block = MBFS_EOF then .ok block else v.lastBlock (v.table block) fuel

/-- The part of `createDirectoryEntry` that extends a directory with a new block. -/
def extendDirectory (v : Volume L) (directory : Nat) : Except FSFault (Option Nat × Volume L) := do
  let (newBlock, v) ← v.getFreeBlock
  if newBlock = 0 then .ok (none, v)
  else
    let lastBlock ← v.lastBlock (firstBlockAt v.flash directory) blockNumbers
    .ok (some (L.getBlock newBlock), (v.fileTableWrite lastBlock newBlock).fileTableWrite newBlock MBFS_EOF)

/-- `createDirectoryEntry`, before the entry it chose is recorded. -/
def chooseEntry (v : Volume L) (directory : Nat) : Except FSFault (Option Nat × Volume L) := do
  match ← v.scanDirectory (firstBlockAt v.flash directory) none blockNumbers with
  | (some empty, _) => .ok (some empty, v)
  | (none, some invalid) =>
    let v ← v.recycleBlock (L.getBlockNumber invalid) .DIRECTORY
    .ok (some invalid, v)
  | (none, none) => v.extendDirectory directory

/-- `createDirectoryEntry` -/
def createDirectoryEntry (v : Volume L) (directory : Nat) : Except FSFault (Option Nat × Volume L) := do
  match ← v.chooseEntry directory with
  | (none, w) => .ok (none, w)
  | (some dirent, w) => .ok (some dirent, w.note (.entry dirent directory v.flash))

/-- `createFile`. The name is copied to the start of a new directory entry, the end of the name included. -/
def createFile (v : Volume L) (filename : List UInt8) (directory : Nat) (isDirectory : Bool) :
    Except FSFault (Option Nat × Volume L) := do
  let file := baseName filename
  match ← v.createDirectoryEntry directory with
  | (none, v) => .ok (none, v)
  | (some dirent, v) =>
    let (newBlock, v) ← v.getFreeBlock
    if newBlock = 0 then .ok (none, v)
    else if file.length + 1 > directoryEntrySize then .error .overrun
    else
      let d : DirectoryEntry :=
        { fileName := slice (put L.stack 0 (file ++ [0])) 0 MBFS_FILENAME_LENGTH
          firstBlock := newBlock
          flags := if isDirectory then MBFS_DIRECTORY_ENTRY_VALID ||| MBFS_DIRECTORY_ENTRY_DIRECTORY
            else MBFS_DIRECTORY_ENTRY_NEW
          length := if isDirectory then 0 else 0xFFFFFFFF }
      .ok (some dirent, (v.flashWrite dirent d.bytes).fileTableWrite newBlock MBFS_EOF)

/-! ## Data -/

/-- The walk along the file table to the block of a position that lies `distance` bytes from the start of `block`: the
block, and the offset in it. A position on the boundary of two blocks belongs to the first one. -/
def seekBlock (v : Volume L) (block distance : Nat) : Nat → Nat × Nat
  | 0 => (block, distance)
  | fuel + 1 =>
    if distance > MBFS_BLOCK_SIZE then v.seekBlock (v.table block) (distance - MBFS_BLOCK_SIZE) fuel
    else (block, distance)

/-- The loop of `read`: `size` bytes from the given offset in `block` on. `fuel` bounds the turns. -/
def readLoop (v : Volume L) (block offset size : Nat) : Nat → List UInt8
  | 0 => []
  | fuel + 1 =>
    if size = 0 then []
    else
      let segmentLength := min size (MBFS_BLOCK_SIZE - offset)
      let bytes := slice v.flash (L.getBlock block + offset) segmentLength
      let offset := offset + segmentLength
      if offset = MBFS_BLOCK_SIZE then bytes ++ v.readLoop (v.table block) 0 (size - segmentLength) fuel
      else bytes ++ v.readLoop block offset (size - segmentLength) fuel

/-- The part of a turn of the loop of `writeBuffer` that writes to the flash. -/
def writeSegment (v : Volume L) (address : Nat) (bytes : List UInt8) (overwrite : Bool) : Except FSFault (Volume L) := do
  if bytes = [] then .ok v
  else
    let (scratch, v) ← if overwrite then v.getFreePage else .ok (L.MICROBIT_DEFAULT_SCRATCH_PAGE, v)
    .ok ((v.note (.data address bytes scratch v.flash)).flashWrite address bytes scratch)

/-- The loop of `writeBuffer`, with `position` bytes of the file before the rest `buffer` of what is to be written: the
number of bytes that were written. `fuel` bounds the turns. -/
def writeLoop (v : Volume L) (length position block offset : Nat) (buffer : List UInt8) :
    Nat → Except FSFault (Nat × Volume L)
  | 0 => .error .diverges
  | fuel + 1 =>
    if buffer = [] then .ok (0, v)
    else do
      let segmentLength := min buffer.length (MBFS_BLOCK_SIZE - offset)
      let v ← v.writeSegment (L.getBlock block + offset) (buffer.take segmentLength) (position < length)
      let offset := offset + segmentLength
      let buffer := buffer.drop segmentLength
      if offset = MBFS_BLOCK_SIZE ∧ buffer ≠ [] then
        let (newBlock, v) ← v.getFreeBlock
        if newBlock = 0 then .ok (segmentLength, v)
        else
          let v := (v.fileTableWrite newBlock MBFS_EOF).fileTableWrite block newBlock
          let (n, v) ← v.writeLoop length (position + segmentLength) newBlock 0 buffer fuel
          .ok (segmentLength + n, v)
      else
        let (n, v) ← v.writeLoop length (position + segmentLength) block offset buffer fuel
        .ok (segmentLength + n, v)

/-- `writeBuffer` -/
def writeBuffer (v : Volume L) (file : FileDescriptor) (buffer : List UInt8) :
    Except FSFault (Nat × FileDescriptor × Volume L) := do
  let (block, offset) := v.seekBlock (firstBlockAt v.flash file.dirent) file.seek file.seek
  let (n, v) ← v.writeLoop file.length file.seek block offset buffer (buffer.length + 2)
  .ok (n, { file with length := max file.length (file.seek + n), seek := file.seek + n }, v)

/-- `writeBack` -/
def writeBack (v : Volume L) (file : FileDescriptor) : Except FSFault (FileDescriptor × Volume L) := do
  if file.cache = [] then .ok (file, v)
  else
    let (_, file, v) ← v.writeBuffer file file.cache
    .ok ({ file with cache := [] }, v)

/-- The loop of `write` over the write-back cache, with `bytesCopied` bytes copied so far. `fuel` bounds the turns. -/
def writeCached (v : Volume L) (file : FileDescriptor) (buffer : List UInt8) (bytesCopied : Nat) :
    Nat → Except FSFault (Nat × FileDescriptor × Volume L)
  | 0 => .error .diverges
  | fuel + 1 =>
    if bytesCopied < buffer.length then do
      let segmentSize := min buffer.length (L.MBFS_CACHE_SIZE - file.cache.length)
      let file := { file with cache := file.cache ++ buffer.take segmentSize }
      let (file, v) ← if file.cache.length = L.MBFS_CACHE_SIZE then v.writeBack file else .ok (file, v)
      v.writeCached file buffer (bytesCopied + segmentSize) fuel
    else .ok (bytesCopied, file, v)

/-- `write`, to an open file. -/
def write (v : Volume L) (file : FileDescriptor) (buffer : List UInt8) :
    Except FSFault (Nat × FileDescriptor × Volume L) := do
  if buffer.length < L.MBFS_CACHE_SIZE then v.writeCached file buffer 0 (buffer.length + 1)
  else
    let (file, v) ← v.writeBack file
    v.writeBuffer file buffer

/-- `flush`, of an open file. The entry of a file is marked as deleted with `MBFS_DELETED`. -/
def flush (v : Volume L) (file : FileDescriptor) : Except FSFault (FileDescriptor × Volume L) := do
  let (file, v) ← v.writeBack file
  if lengthAt v.flash file.dirent ≠ file.length then
    let d := { directoryEntryAt v.flash file.dirent with length := file.length }
    if flagsAt v.flash file.dirent = MBFS_DIRECTORY_ENTRY_NEW then
      .ok (file, v.flashWrite file.dirent { d with flags := MBFS_DIRECTORY_ENTRY_VALID }.bytes)
    else
      let v := v.flashWrite (file.dirent + 18) (u16Bytes MBFS_DELETED)
      -- where there is no new entry the code writes through a null pointer
      let (newDirent, v) ← v.createDirectoryEntry file.directory
      .ok (file, v.flashWrite (newDirent.getD 0) d.bytes)
  else .ok (file, v)

/-- `seek`, in an open file: the new position, or none. -/
def seek (v : Volume L) (file : FileDescriptor) (offset : Int) (flags : Nat) :
    Except FSFault (Option Nat × FileDescriptor × Volume L) := do
  let (file, v) ← v.writeBack file
  let position : Int :=
    if flags = MB_SEEK_SET then offset
    else if flags = MB_SEEK_END then (file.length + offset).bmod (2 ^ 32)
    else if flags = MB_SEEK_CUR then (file.seek + offset).bmod (2 ^ 32)
    else file.seek
  if position < 0 ∨ position.toNat > file.length then .ok (none, file, v)
  else .ok (some position.toNat, { file with seek := position.toNat }, v)

/-- `read`, from an open file. -/
def read (v : Volume L) (file : FileDescriptor) (size : Nat) :
    Except FSFault (List UInt8 × FileDescriptor × Volume L) := do
  let (file, v) ← v.writeBack file
  let size := min size (file.length - file.seek)
  let (block, offset) := v.seekBlock (firstBlockAt v.flash file.dirent) file.seek file.seek
  .ok (v.readLoop block offset size (size + 1), { file with seek := file.seek + size }, v)

/-- The loop of `remove` that marks the blocks of a file as deleted. -/
def deleteChain (v : Volume L) (block : Nat) : Nat → Except FSFault (Volume L)
  | 0 => .error .diverges
  | fuel + 1 =>
    if block = MBFS_EOF then .ok v else (v.fileTableWrite block MBFS_DELETED).deleteChain (v.table block) fuel

end Volume

namespace FileSystem

variable {L : Layout}

/-! ## The calls -/

/-- Continue with what a part of an operation made of the flash. -/
def setVolume (s : FileSystem L) (v : Volume L) : FileSystem L := { s with toVolume := v }

/-- The place of an open file in the chain: `getFileDescriptor` returns the first one with the given identifier. -/
def getFileDescriptor (s : FileSystem L) (fd : Int) : Option Nat := s.openFiles.findIdx? fun file => (file.id : Int) == fd

/-- What one walk of `open` along the chain of open files finds. -/
inductive Walk where
  /-- The file is open. -/
  | isOpen
  /-- The identifier is taken. -/
  | taken
  /-- Neither. -/
  | free

/-- One walk of `open` along the chain of open files. -/
def walkFiles (dirent id : Nat) : List FileDescriptor → Walk
  | [] => .free
  | file :: files =>
    if file.dirent = dirent then .isOpen else if file.id = id then .taken else walkFiles dirent id files

/-- The loop of `open`: an identifier for the file with the given directory entry, or none if the file is open. -/
def findId (files : List FileDescriptor) (dirent id : Nat) : Nat → Except FSFault (Option Nat)
  | 0 => .error .diverges
  | fuel + 1 =>
    match walkFiles dirent id files with
    | .isOpen => .ok none
    | .taken => findId files dirent (id + 1) fuel
    | .free => .ok (some id)

/-- The part of `open` that adds a file descriptor for the given directory entry. The identifier is a 16-bit number. -/
def addFile (s : FileSystem L) (dirent directory flags id : Nat) : Except ErrorCode Nat × FileSystem L :=
  let length := if flagsAt s.flash dirent = MBFS_DIRECTORY_ENTRY_NEW then 0 else lengthAt s.flash dirent
  let file : FileDescriptor :=
    { flags := (if flags &&& MB_CREAT ≠ 0 then flags - MB_CREAT else flags) % 2 ^ 16
      id := id % 2 ^ 16
      length
      seek := if flags &&& MB_APPEND ≠ 0 then length else 0
      dirent, directory }
  (.ok file.id, { s with openFiles := file :: s.openFiles })

/-- `open` -/
def «open» (s : FileSystem L) (filename : List UInt8) (flags : Nat) :
    Except FSFault (Except ErrorCode Nat × FileSystem L) := do
  if !s.initialised then .ok (.error .DEVICE_NOT_SUPPORTED, s)
  else if !isValidFilename filename then .ok (.error .DEVICE_INVALID_PARAMETER, s)
  else
    match ← s.getDirectoryOf filename with
    | none => .ok (.error .DEVICE_INVALID_PARAMETER, s)
    | some directory =>
      match ← s.getDirectoryEntry filename directory with
      | some dirent =>
        match ← findId s.openFiles dirent 0 (s.openFiles.length + 1) with
        | none => .ok (.error .DEVICE_NOT_SUPPORTED, s)
        | some id => .ok (s.addFile dirent directory flags id)
      | none =>
        if flags &&& MB_CREAT = 0 then .ok (.error .DEVICE_INVALID_PARAMETER, s)
        else
          match ← s.createFile filename directory false with
          | (none, v) => .ok (.error .DEVICE_NO_RESOURCES, s.setVolume v)
          | (some dirent, v) => .ok ((s.setVolume v).addFile dirent directory flags 0)

/-- `createDirectory` -/
def createDirectory (s : FileSystem L) (name : List UInt8) : Except FSFault (ErrorCode × FileSystem L) := do
  if !s.initialised then .ok (.DEVICE_NOT_SUPPORTED, s)
  else if !isValidFilename name then .ok (.DEVICE_INVALID_PARAMETER, s)
  else
    match ← s.getDirectoryOf name with
    | none => .ok (.DEVICE_INVALID_PARAMETER, s)
    | some directory =>
      match ← s.getDirectoryEntry name directory with
      | some _ => .ok (.DEVICE_INVALID_PARAMETER, s)
      | none =>
        match ← s.createFile name directory true with
        | (none, v) => .ok (.DEVICE_NO_RESOURCES, s.setVolume v)
        | (some _, v) => .ok (.DEVICE_OK, s.setVolume v)

/-- Do something with the open file that has the given identifier, or refuse to. -/
def withFile (s : FileSystem L) (fd : Int) {α : Type}
    (f : FileDescriptor → Except FSFault (α × FileDescriptor × Volume L)) :
    Except FSFault (Except ErrorCode α × FileSystem L) :=
  if !s.initialised then .ok (.error .DEVICE_NOT_SUPPORTED, s)
  else
    match s.getFileDescriptor fd with
    | none => .ok (.error .DEVICE_INVALID_PARAMETER, s)
    | some i => do
      let (a, file, v) ← f (s.openFiles.getD i ⟨0, 0, 0, 0, 0, 0, []⟩)
      .ok (.ok a, { s.setVolume v with openFiles := s.openFiles.set i file })

/-- `flush` -/
def flush (s : FileSystem L) (fd : Int) : Except FSFault (Except ErrorCode Unit × FileSystem L) :=
  s.withFile fd fun file => do
    let (file, v) ← s.toVolume.flush file
    .ok ((), file, v)

/-- `close` -/
def close (s : FileSystem L) (fd : Int) : Except FSFault (Except ErrorCode Unit × FileSystem L) := do
  match ← s.flush fd with
  | (.error e, s) => .ok (.error e, s)
  | (.ok (), s) =>
    let i := (s.getFileDescriptor fd).getD 0
    .ok (.ok (), { s with openFiles := s.openFiles.eraseIdx i })

/-- `seek`: a position that is not in the file is refused. -/
def seek (s : FileSystem L) (fd offset : Int) (flags : Nat) : Except FSFault (Except ErrorCode Nat × FileSystem L) := do
  let (r, s) ← s.withFile fd fun file => s.toVolume.seek file offset flags
  match r with
  | .error e => .ok (.error e, s)
  | .ok none => .ok (.error .DEVICE_INVALID_PARAMETER, s)
  | .ok (some position) => .ok (.ok position, s)

/-- `read` of `size` bytes. -/
def read (s : FileSystem L) (fd : Int) (size : Nat) : Except FSFault (Except ErrorCode (List UInt8) × FileSystem L) :=
  if s.initialised ∧ size = 0 then .ok (.error .DEVICE_INVALID_PARAMETER, s)
  else s.withFile fd fun file => s.toVolume.read file size

/-- `write` -/
def write (s : FileSystem L) (fd : Int) (buffer : List UInt8) : Except FSFault (Except ErrorCode Nat × FileSystem L) :=
  if s.initialised ∧ buffer = [] then .ok (.error .DEVICE_INVALID_PARAMETER, s)
  else s.withFile fd fun file => s.toVolume.write file buffer

/-- The part of `remove` that deletes the blocks and the directory entry of the file that was opened. -/
def removeFile (s : FileSystem L) (fd : Int) : Except FSFault (FileSystem L) := do
  let i := (s.getFileDescriptor fd).getD 0
  let file := s.openFiles.getD i ⟨0, 0, 0, 0, 0, 0, []⟩
  let v ← s.deleteChain (firstBlockAt s.flash file.dirent) (2 * blockNumbers)
  let v := v.flashWrite (file.dirent + 18) (u16Bytes MBFS_DIRECTORY_ENTRY_DELETED)
  .ok { s.setVolume v with openFiles := s.openFiles.eraseIdx i }

/-- `remove` -/
def remove (s : FileSystem L) (filename : List UInt8) : Except FSFault (Except ErrorCode Unit × FileSystem L) := do
  match ← s.open filename MB_READ with
  | (.error e, s) => .ok (.error e, s)
  | (.ok fd, s) => do
    let s ← s.removeFile fd
    .ok (.ok (), s)

end FileSystem

/-! ## Mounting -/

/-- `calculateFileTableSize` -/
def calculateFileTableSize (fileSystemSize : Nat) : Nat :=
  (fileSystemSize * 2 / MBFS_BLOCK_SIZE + if fileSystemSize * 2 % MBFS_BLOCK_SIZE ≠ 0 then 1 else 0) % 2 ^ 16

/-- `load` finds a file system whose table is at `flashStart`. -/
def isFileSystem (m : Memory) (flashStart : Nat) : Bool :=
  let rootOffset := readU16 m flashStart
  ((List.range rootOffset).all fun i =>
    !(readU16 m (flashStart + 2 * i) ≥ MBFS_EOF || readU16 m (flashStart + 2 * i) != rootOffset)) &&
    nameIs m (flashStart + rootOffset * MBFS_BLOCK_SIZE) MBFS_MAGIC

/-- The start of the file system in `init`: where none is given, the first page after the program. -/
def FSConfig.flashStart (c : FSConfig) (flashStart : Nat) : Nat :=
  if flashStart ≠ 0 then flashStart
  else if c.FLASH_PROGRAM_END % MICROBIT_CODEPAGESIZE ≠ 0 then
    c.FLASH_PROGRAM_END / MICROBIT_CODEPAGESIZE * MICROBIT_CODEPAGESIZE + MICROBIT_CODEPAGESIZE
  else c.FLASH_PROGRAM_END

/-- The number of pages in `init`: where none is given, all up to the end of the region of the application, which is the
default scratch page. -/
def FSConfig.flashPages (c : FSConfig) (flashStart flashPages : Nat) : Nat :=
  if flashPages ≠ 0 then flashPages else (c.MICROBIT_DEFAULT_SCRATCH_PAGE - flashStart) / MICROBIT_CODEPAGESIZE

/-- The members that `init` sets, with a start and a number of pages that are not zero: those of the file system that is
there, or those of a new one. -/
def FSConfig.layout (c : FSConfig) (m : Memory) (flashStart flashPages : Nat) : Layout :=
  if isFileSystem m flashStart then
    let rootDirectory := flashStart + readU16 m flashStart * MBFS_BLOCK_SIZE
    { c with
      fileSystemTable := flashStart
      rootDirectory
      fileSystemSize := lengthAt m rootDirectory
      fileSystemTableSize := calculateFileTableSize (lengthAt m rootDirectory) }
  else
    let fileSystemSize := flashPages * blocksPerPage
    { c with
      fileSystemTable := flashStart
      fileSystemSize
      fileSystemTableSize := calculateFileTableSize fileSystemSize
      rootDirectory := flashStart + calculateFileTableSize fileSystemSize * MBFS_BLOCK_SIZE }

/-- `format` -/
def Volume.format {L : Layout} (v : Volume L) : Volume L :=
  let v := (List.range L.fileSystemTableSize).foldl (fun v block => v.fileTableWrite block L.fileSystemTableSize) v
  let v := v.fileTableWrite L.fileSystemTableSize MBFS_EOF
  let magic : DirectoryEntry :=
    { fileName := MBFS_MAGIC ++ [0]
      firstBlock := L.fileSystemTableSize
      flags := MBFS_DIRECTORY_ENTRY_VALID
      length := L.fileSystemSize }
  v.flashWrite L.rootDirectory magic.bytes

/-- `init`, for a number of pages that is not negative. -/
def FileSystem.init (c : FSConfig) (m : Memory) (flashStart flashPages : Nat) :
    FileSystem (c.layout m (c.flashStart flashStart) (c.flashPages (c.flashStart flashStart) flashPages)) :=
  let v : Volume _ := { flash := m }
  { toVolume := if isFileSystem m (c.flashStart flashStart) then v else v.format }

/-! ## Runs -/

/-- A call of a user of the file system. -/
inductive FSOp where
  | «open» (filename : List UInt8) (flags : Nat)
  | createDirectory (name : List UInt8)
  | flush (fd : Int)
  | close (fd : Int)
  | seek (fd offset : Int) (flags : Nat)
  | read (fd : Int) (size : Nat)
  | write (fd : Int) (buffer : List UInt8)
  | remove (filename : List UInt8)

/-- What a call returns: an error, a number, or the bytes that were read. -/
inductive FSReply where
  | error (e : ErrorCode)
  | number (n : Nat)
  | bytes (b : List UInt8)
  deriving DecidableEq

namespace FileSystem

variable {L : Layout}

/-- The reply to a call that answers with a value. -/
def reply {α : Type} (f : α → FSReply) : Except ErrorCode α → FSReply
  | .ok a => f a
  | .error e => .error e

/-- The file system after a call, and what the call returned. -/
def perform (s : FileSystem L) : FSOp → Except FSFault (FSReply × FileSystem L)
  | .open filename flags => do
    let (r, s) ← s.open filename flags
    .ok (reply .number r, s)
  | .createDirectory name => do
    let (r, s) ← s.createDirectory name
    .ok (if r = .DEVICE_OK then .number 0 else .error r, s)
  | .flush fd => do
    let (r, s) ← s.flush fd
    .ok (reply (fun _ => .number 0) r, s)
  | .close fd => do
    let (r, s) ← s.close fd
    .ok (reply (fun _ => .number 0) r, s)
  | .seek fd offset flags => do
    let (r, s) ← s.seek fd offset flags
    .ok (reply .number r, s)
  | .read fd size => do
    let (r, s) ← s.read fd size
    .ok (reply .bytes r, s)
  | .write fd buffer => do
    let (r, s) ← s.write fd buffer
    .ok (reply .number r, s)
  | .remove filename => do
    let (r, s) ← s.remove filename
    .ok (reply (fun _ => .number 0) r, s)

/-- The file system after a sequence of calls, and what they returned. -/
def run (s : FileSystem L) : List FSOp → Except FSFault (List FSReply × FileSystem L)
  | [] => .ok ([], s)
  | op :: ops => do
    let (r, s) ← s.perform op
    let (rs, s) ← s.run ops
    .ok (r :: rs, s)

end FileSystem

end CodalMicrobit

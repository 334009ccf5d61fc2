import CodalMicrobit.Flash
import Mathlib.Data.List.FinRange
import Mathlib.Logic.Function.Basic

/-!
# The write through cache

`FSCache` keeps copies of a few blocks of the flash in RAM. A block is found by its address; when it is not cached it is
read into an empty entry, or into the entry that was used longest ago. A write is first checked against the cached
bytes, since flash can only clear bits, and then goes to the cached copy and, in whole words, to the flash.
-/

namespace CodalMicrobit

open Nor

/-- Return codes of the operations. -/
inductive ErrorCode where
  | DEVICE_OK
  | DEVICE_INVALID_PARAMETER
  | DEVICE_NOT_SUPPORTED
  | DEVICE_NO_RESOURCES
  | DEVICE_INVALID_STATE
  | DEVICE_I2C_ERROR
  deriving DecidableEq, Repr

/-- `FSCACHE_FLAG_PINNED` -/
def FSCACHE_FLAG_PINNED : UInt16 := 0x01

/-- A cache of four entries, as the log's, is not empty. -/
instance neZero_four : NeZero (4 : Nat) := ⟨by decide⟩

/-- `CacheEntry`. The page pointer is `none` while it is NULL. -/
structure CacheEntry where
  address : Nat := 0
  lastUsed : UInt16 := 0
  flags : UInt16 := 0
  page : Option (Nat → UInt8) := none

/-- `FSCache`: the flash it is a cache of, its entries, and the counter that orders their uses. `heap` is what a fresh
`malloc` of a page happens to hold. -/
structure FSCache (g : Geometry) (blockSize cacheSize : Nat) where
  flash : Flash g
  cache : Fin cacheSize → CacheEntry := fun _ => {}
  operationCount : UInt16 := 0
  heap : Nat → UInt8 := fun _ => 0

namespace FSCache

variable {g : Geometry} {blockSize cacheSize : Nat}

/-- Forget every cached block. -/
def clear (c : FSCache g blockSize cacheSize) : FSCache g blockSize cacheSize :=
  { c with cache := fun _ => {}, operationCount := 0 }

/-- The entry that holds the block at the given address, if one does. -/
def find (c : FSCache g blockSize cacheSize) (address : Nat) : Option (Fin cacheSize) :=
  (List.finRange cacheSize).find? fun i => (c.cache i).address == address && (c.cache i).page.isSome

/-- `getCacheEntry`: finding a block counts as a use of its entry. -/
def getCacheEntry (c : FSCache g blockSize cacheSize) (address : Nat) :
    Option (Fin cacheSize) × FSCache g blockSize cacheSize :=
  match c.find address with
  | none => (none, c)
  | some i =>
    (some i, { c with
      operationCount := c.operationCount + 1
      cache := Function.update c.cache i { c.cache i with lastUsed := c.operationCount + 1 } })

/-- One entry of the scan for a block to replace: `c.cache i` is unpinned and `operationCount - lastUsed`, computed in
`int`, is larger than it is for `lru`. -/
def older (c : FSCache g blockSize cacheSize) (i lru : Fin cacheSize) : Bool :=
  (c.cache i).flags &&& FSCACHE_FLAG_PINNED == 0 &&
    decide ((c.operationCount.toNat : Int) - (c.cache i).lastUsed.toNat >
      (c.operationCount.toNat : Int) - (c.cache lru).lastUsed.toNat)

/-- The scan of the entries for the block to replace: the first empty one, or the one used longest ago. -/
def victimFrom (c : FSCache g blockSize cacheSize) (lru : Fin cacheSize) : List (Fin cacheSize) → Fin cacheSize
  | [] => lru
  | i :: rest =>
    if (c.cache i).page.isNone then i
    else if c.older i lru then c.victimFrom i rest
    else c.victimFrom lru rest

/-- The entry `cachePage` loads a new block into. The scan starts from entry 0, whatever its flags. -/
def victim [NeZero cacheSize] (c : FSCache g blockSize cacheSize) : Fin cacheSize :=
  c.victimFrom 0 (List.finRange cacheSize)

/-- `cachePage`: the entry that holds the block at the given address, read in from flash if it was not cached. -/
def cachePage [NeZero cacheSize] (c : FSCache g blockSize cacheSize) (address : Nat) :
    Fin cacheSize × FSCache g blockSize cacheSize :=
  match c.getCacheEntry address with
  | (some i, c) => (i, c)
  | (none, c) =>
    let lru := c.victim
    let page := (c.cache lru).page.getD c.heap
    (lru, { c with
      operationCount := c.operationCount + 1
      cache := Function.update c.cache lru
        { address := address, flags := 0, lastUsed := c.operationCount + 1
          page := some (c.flash.read page address (blockSize / 4)) } })

/-- The bytes of a cached page. -/
def page (c : FSCache g blockSize cacheSize) (i : Fin cacheSize) : Nat → UInt8 := (c.cache i).page.getD c.heap

/-- Replace the bytes of a cached page. -/
def setPage (c : FSCache g blockSize cacheSize) (i : Fin cacheSize) (p : Nat → UInt8) :
    FSCache g blockSize cacheSize :=
  { c with cache := Function.update c.cache i { c.cache i with page := some p } }

/-- `erase`: set the cached copy of the block at the given address to 0xFF, if there is one. -/
def erase (c : FSCache g blockSize cacheSize) (address : Nat) : FSCache g blockSize cacheSize :=
  match c.getCacheEntry address with
  | (none, c) => c
  | (some i, c) =>
    { c with
      operationCount := c.operationCount + 1
      cache := Function.update c.cache i
        { c.cache i with
          page := some fun k => if k < blockSize then blank else c.page i k
          lastUsed := c.operationCount + 1 } }

/-- The test `read` and `write` start with. -/
def outOfLimits (g : Geometry) (address len : Nat) : Bool :=
  decide (address < g.getFlashStart) || decide (u32 (address + len) ≥ g.getFlashEnd)

variable [NeZero cacheSize]

/-- The loop of `read`, one block per turn; `fuel` bounds the turns. -/
def readLoop (c : FSCache g blockSize cacheSize) (a len : Nat) : Nat → List UInt8 × FSCache g blockSize cacheSize
  | 0 => ([], c)
  | fuel + 1 =>
    if len = 0 then ([], c)
    else
      let block := a / blockSize * blockSize
      let offset := a % blockSize
      let l := min len (blockSize - offset)
      let (i, c) := c.cachePage block
      let (rest, c') := c.readLoop (u32 (a + l)) (len - l) fuel
      (slice (c.page i) offset l ++ rest, c')

/-- `read`: copy `len` bytes out of the cache, paging them in as needed. -/
def read (c : FSCache g blockSize cacheSize) (address len : Nat) :
    ErrorCode × List UInt8 × FSCache g blockSize cacheSize :=
  if outOfLimits g address len then (.DEVICE_INVALID_PARAMETER, [], c)
  else (.DEVICE_OK, c.readLoop address len len)

/-- `(b1 ^ b2) & b2`: writing `b2` over `b1` needs an erase. -/
def needsErase (b1 b2 : UInt8) : Bool := (b1 ^^^ b2) &&& b2 != 0

/-- The first loop of `write`: can every byte be written without an erase? -/
def validateLoop (c : FSCache g blockSize cacheSize) (a : Nat) (data : List UInt8) :
    Nat → Bool × FSCache g blockSize cacheSize
  | 0 => (true, c)
  | fuel + 1 =>
    if data = [] then (true, c)
    else
      let block := a / blockSize * blockSize
      let offset := a % blockSize
      let l := min data.length (blockSize - offset)
      let (i, c) := c.cachePage block
      if (List.range l).any fun k => needsErase (c.page i (offset + k)) (data.getD k 0) then (false, c)
      else c.validateLoop (u32 (a + l)) (data.drop l) fuel

/-- The second loop of `write`: update the cached copy and write the words it covers through to flash. -/
def writeLoop (c : FSCache g blockSize cacheSize) (a : Nat) (data : List UInt8) :
    Nat → FSCache g blockSize cacheSize
  | 0 => c
  | fuel + 1 =>
    if data = [] then c
    else
      let block := a / blockSize * blockSize
      let offset := a % blockSize
      let l := min data.length (blockSize - offset)
      let (i, c) := c.cachePage block
      let alignedStart := a / 4 * 4
      let alignedEnd := (a + l) / 4 * 4 + if (a + l) % 4 ≠ 0 then 4 else 0
      let p := put (c.page i) offset (data.take l)
      let c := c.setPage i p
      let words := (alignedEnd - alignedStart) / 4
      let c := { c with flash := c.flash.write alignedStart (fun k => p (alignedStart % blockSize + k)) words }
      c.writeLoop (u32 (a + l)) (data.drop l) fuel

/-- `write`: refused as a whole when some byte would need a bit to be set. -/
def write (c : FSCache g blockSize cacheSize) (address : Nat) (data : List UInt8) :
    ErrorCode × FSCache g blockSize cacheSize :=
  if outOfLimits g address data.length then (.DEVICE_INVALID_PARAMETER, c)
  else
    match c.validateLoop address data data.length with
    | (false, c) => (.DEVICE_NOT_SUPPORTED, c)
    | (true, c) => (.DEVICE_OK, c.writeLoop address data data.length)

/-- `pin` -/
def pin (c : FSCache g blockSize cacheSize) (address : Nat) : ErrorCode × FSCache g blockSize cacheSize :=
  let (i, c) := c.cachePage address
  (.DEVICE_OK, { c with
    cache := Function.update c.cache i { c.cache i with flags := (c.cache i).flags ||| FSCACHE_FLAG_PINNED } })

/-- `unpin` -/
def unpin (c : FSCache g blockSize cacheSize) (address : Nat) : ErrorCode × FSCache g blockSize cacheSize :=
  match c.getCacheEntry address with
  | (none, c) => (.DEVICE_OK, c)
  | (some i, c) =>
    (.DEVICE_OK, { c with
      cache := Function.update c.cache i { c.cache i with flags := (c.cache i).flags &&& ~~~FSCACHE_FLAG_PINNED } })

end FSCache

end CodalMicrobit

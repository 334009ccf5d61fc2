import CodalMicrobit.FSCache

/-!
# The driver of the interface chip

`MicroBitUSBFlashManager` turns reads, writes and erases into transactions with the interface chip over I2C. The chip takes
at most 64 bytes in a write and erases one block at a time; an erase of a region that does not end at block boundaries saves
what else the blocks hold and writes it back.
-/

namespace CodalMicrobit

open Nor

/-- The interface chip, as `transact` reports on it: the response to a request, which is empty when the transaction has
failed. -/
structure InterfaceChip (State : Type) where
  transact : State → List UInt8 → Nat → List UInt8 × State

namespace USBFlashManager

/-- `MICROBIT_USB_FLASH_READ_CMD` -/
def MICROBIT_USB_FLASH_READ_CMD : Nat := 0x0A

/-- `MICROBIT_USB_FLASH_WRITE_CMD` -/
def MICROBIT_USB_FLASH_WRITE_CMD : Nat := 0x0B

/-- `MICROBIT_USB_FLASH_ERASE_CMD` -/
def MICROBIT_USB_FLASH_ERASE_CMD : Nat := 0x0C

/-- `KL27_FLASH_MAX_WRITE_LENGTH` -/
def KL27_FLASH_MAX_WRITE_LENGTH : Nat := 64

/-- The bytes of `htonl(n)` as they lie in memory: the highest first. -/
def htonl (n : Nat) : List UInt8 :=
  [UInt8.ofNat (n / 2 ^ 24), UInt8.ofNat (n / 2 ^ 16), UInt8.ofNat (n / 2 ^ 8), UInt8.ofNat n]

/-- A number from its bytes, the highest first. -/
def ntoh (bytes : List UInt8) : Nat := bytes.foldl (fun n b => n * 256 + b.toNat) 0

/-- The eight bytes a request starts with: the command in the top byte of the address, and a second number. -/
def header (cmd address n : Nat) : List UInt8 := htonl (address ||| cmd <<< 24) ++ htonl n

variable {State : Type} (chip : InterfaceChip State)

/-- `read` of `length` words: the response without its header, or nothing on failure. -/
def read (s : State) (address length : Nat) : List UInt8 × State :=
  let length := u32 (length * 4)
  let (response, s) := chip.transact s (header MICROBIT_USB_FLASH_READ_CMD address length) (length + 8)
  (if response.length > 8 then response.drop 8 else [], s)

/-- The loop of `write`, one segment per turn, up to the address `stop`; `data` is what is left, and `fuel` bounds the turns. -/
def writeLoop (s : State) (p stop : Nat) (data : List UInt8) : Nat → ErrorCode × State
  | 0 => (.DEVICE_OK, s)
  | fuel + 1 =>
    if p < stop then
      let segmentLength := min KL27_FLASH_MAX_WRITE_LENGTH data.length
      let (response, s) :=
        chip.transact s (header MICROBIT_USB_FLASH_WRITE_CMD p segmentLength ++ data.take segmentLength) 9
      if response = [] then (.DEVICE_I2C_ERROR, s)
      else writeLoop s (p + segmentLength) stop (data.drop segmentLength) fuel
    else (.DEVICE_OK, s)

/-- `write` of `length` words. -/
def writeWords (s : State) (address : Nat) (data : List UInt8) (length : Nat) : ErrorCode × State :=
  let length := u32 (length * 4)
  writeLoop chip s address (u32 (address + length)) (data.take length) length

/-- `write` of a buffer, as many words as it holds. -/
def write (s : State) (data : List UInt8) (address : Nat) : ErrorCode × State :=
  writeWords chip s address data (data.length / 4)

/-- A 32-bit address has this many values: a loop over addresses that takes more turns never ends. -/
@[irreducible] def addresses : Nat := 2 ^ 32

/-- The loop of `erase`, one block per turn, up to and including the one at `eraseEnd`; `fuel` bounds the turns. -/
def eraseLoop (blockSize eraseEnd : Nat) (s : State) (page : Nat) : Nat → Option (ErrorCode × State)
  | 0 => none
  | fuel + 1 =>
    if page ≤ eraseEnd then
      let (response, s) := chip.transact s (header MICROBIT_USB_FLASH_ERASE_CMD page page) 1
      if response = [] then some (.DEVICE_I2C_ERROR, s)
      else eraseLoop blockSize eraseEnd s (u32 (page + blockSize)) fuel
    else some (.DEVICE_OK, s)

/-- The bytes of `length` words, read where there are any to save. -/
def save (s : State) (address length : Nat) : List UInt8 × State :=
  if length > 0 then read chip s address (length / 4) else ([], s)

/-- Write back what was saved, if anything was. The result of the write is ignored. -/
def restore (s : State) (data : List UInt8) (address : Nat) : State :=
  if data.length > 0 then (write chip s data address).2 else s

/-- `erase` of `length` words, in 32-bit arithmetic: nothing if its loop never ends. -/
def erase (g : Geometry) (s : State) (address length : Nat) : Option (ErrorCode × State) :=
  let length := u32 (length * 4)
  let stop := u32 (address + length)
  if stop > g.blockSize * g.blockCount ∨ length % 4 ≠ 0 then some (.DEVICE_INVALID_PARAMETER, s)
  else
    let eraseStart := address / g.blockSize * g.blockSize
    let eraseEnd := u32sub (stop / g.blockSize * g.blockSize) (if stop % g.blockSize = 0 then g.blockSize else 0)
    let (restoreBuffer1, restoreBuffer2, s) :=
      if eraseStart ≠ address ∨ length ≠ u32 (u32sub eraseEnd eraseStart + g.blockSize) then
        let (restoreBuffer1, s) := save chip s eraseStart (address - eraseStart)
        let (restoreBuffer2, s) := save chip s stop ((g.blockSize - stop % g.blockSize) % g.blockSize)
        (restoreBuffer1, restoreBuffer2, s)
      else ([], [], s)
    match eraseLoop chip g.blockSize eraseEnd s eraseStart addresses with
    | some (.DEVICE_OK, s) =>
      let s := restore chip s restoreBuffer1 eraseStart
      let s := restore chip s restoreBuffer2 stop
      some (.DEVICE_OK, s)
    | r => r

end USBFlashManager

end CodalMicrobit

import CodalMicrobit.FSCache

/-!
# The internal flash

`MicroBitFlash` writes the flash of the processor itself. Its pages are erased as a whole and its words are programmed,
which only clears bits; a write that needs a bit set copies the page to a scratch page, erases it and puts it together
again.
-/

namespace CodalMicrobit

open Nor

/-- `MICROBIT_CODEPAGESIZE` -/
def MICROBIT_CODEPAGESIZE : Nat := 4096

namespace MicroBitFlash

/-- `need_erase`: some byte of the source has a bit that is clear in the flash. -/
def needErase (source : List UInt8) (m : Memory) (flashAddr : Nat) : Bool :=
  (List.range source.length).any fun k => (~~~m (flashAddr + k)) &&& source.getD k 0 != 0

/-- `erase_page` -/
def erasePage (m : Memory) (pgAddr : Nat) : Memory := Nor.erase m pgAddr MICROBIT_CODEPAGESIZE

/-- `flash_burn` of `size` words. -/
def flashBurn (m : Memory) (addr : Nat) (buffer : Nat → UInt8) (size : Nat) : Memory :=
  program m addr (4 * size) buffer

/-- Four turns of the loop of `flash_write`: word `w` of the page is put together from the buffer, where the write covers
it, and from `writeFrom` elsewhere, and burnt. -/
def burnWord (fromBuffer : List UInt8) (pgAddr offset writeFrom : Nat) (m : Memory) (w : Nat) : Memory :=
  let writeWord := fun k =>
    let i := 4 * w + k
    if offset ≤ i ∧ i < offset + fromBuffer.length then fromBuffer.getD (i - offset) 0 else m (writeFrom + i)
  flashBurn m (pgAddr + 4 * w) writeWord 1

/-- `flash_write`, once a scratch page is chosen. The bytes of the buffer are those it holds at the call: no caller writes
to a page that its buffer lies in, unless it is over the very same bytes. -/
def flashWrite (m : Memory) (address : Nat) (fromBuffer : List UInt8) (scratchAddr : Nat) : ErrorCode × Memory :=
  if scratchAddr % MICROBIT_CODEPAGESIZE ≠ 0 then (.DEVICE_INVALID_PARAMETER, m)
  else
    let pgAddr := address / MICROBIT_CODEPAGESIZE * MICROBIT_CODEPAGESIZE
    let offset := address % MICROBIT_CODEPAGESIZE
    if needErase fromBuffer m address then
      if scratchAddr = 0 then (.DEVICE_INVALID_PARAMETER, m)
      else
        let m := erasePage m scratchAddr
        let m := flashBurn m scratchAddr (fun k => m (pgAddr + k)) (MICROBIT_CODEPAGESIZE / 4)
        let m := erasePage m pgAddr
        let words := List.range (MICROBIT_CODEPAGESIZE / 4)
        (.DEVICE_OK, words.foldl (burnWord fromBuffer pgAddr offset scratchAddr) m)
    else
      let words := List.range' (offset / 4) ((offset + fromBuffer.length + 4) / 4 - offset / 4)
      (.DEVICE_OK, words.foldl (burnWord fromBuffer pgAddr offset pgAddr) m)

/-- The scratch page `flash_write` uses: where NULL is given, `MICROBIT_DEFAULT_SCRATCH_PAGE`, which lies four pages below
the boot loader. -/
def scratchPage (bootloaderAddress scratchAddr : Nat) : Nat :=
  if scratchAddr = 0 then bootloaderAddress - MICROBIT_CODEPAGESIZE * 4 else scratchAddr

/-- `flash_write` as it is called, with a scratch page or with NULL. -/
def flashWriteOrDefault (bootloaderAddress : Nat) (m : Memory) (address : Nat) (fromBuffer : List UInt8)
    (scratchAddr : Nat) : ErrorCode × Memory :=
  flashWrite m address fromBuffer (scratchPage bootloaderAddress scratchAddr)

end MicroBitFlash

end CodalMicrobit

import CodalMicrobit.USBFlashManager

/-!
# The configuration of the user file

The interface chip shows the storage as a file on its drive. `MicroBitUSBFlashManager` sets the name, the size and the
visibility of this file, and reads them back. A name goes to the chip as eight bytes and three, padded with spaces and
without its dot.
-/

namespace CodalMicrobit

/-- `MicroBitUSBFlashConfig` -/
structure MicroBitUSBFlashConfig where
  fileName : List UInt8
  fileSize : Int
  visible : Bool
  deriving DecidableEq, Repr

namespace USBFlashManager

/-- `MICROBIT_USB_FLASH_FILENAME_CMD` -/
def MICROBIT_USB_FLASH_FILENAME_CMD : UInt8 := 0x01

/-- `MICROBIT_USB_FLASH_FILESIZE_CMD` -/
def MICROBIT_USB_FLASH_FILESIZE_CMD : UInt8 := 0x02

/-- `MICROBIT_USB_FLASH_VISIBILITY_CMD` -/
def MICROBIT_USB_FLASH_VISIBILITY_CMD : UInt8 := 0x03

/-- `MICROBIT_USB_FLASH_WRITE_CONFIG_CMD` -/
def MICROBIT_USB_FLASH_WRITE_CONFIG_CMD : UInt8 := 0x04

/-- `usbFlashPropertyLengthData`, for the commands of the configuration: the length of the response. -/
def usbFlashPropertyLength (command : UInt8) : Nat :=
  if command = MICROBIT_USB_FLASH_FILENAME_CMD then 12
  else if command = MICROBIT_USB_FLASH_FILESIZE_CMD then 5
  else if command = MICROBIT_USB_FLASH_VISIBILITY_CMD then 2
  else 1

/-- What the manager remembers: its copy of the configuration, and whether that was loaded from the chip
(`MICROBIT_USB_FLASH_CONFIG_LOADED`). -/
structure Cached where
  config : MicroBitUSBFlashConfig
  loaded : Bool

/-- Whether a character is valid in an 8.3 file name. -/
def isValidChar (c : UInt8) : Bool :=
  ('0'.toUInt8 ≤ c && c ≤ '9'.toUInt8) || ('A'.toUInt8 ≤ c && c ≤ 'Z'.toUInt8) || ('a'.toUInt8 ≤ c && c ≤ 'z'.toUInt8) ||
    c == '-'.toUInt8 || c == '_'.toUInt8

/-- The checks of `setConfiguration` on the file name. -/
def validFileName (fileName : List UInt8) : Bool :=
  let dots := fileName.count '.'.toUInt8
  let invalidChar := fileName.any fun c => c != '.'.toUInt8 && !isValidChar c
  !(fileName.length < 5 || fileName.length > 12 || dots == 0 || dots > 1 || invalidChar ||
    fileName.getD (fileName.length - 4) 0 != '.'.toUInt8)

/-- `memcpy` of bytes into a buffer, at an offset. -/
def memcpy (buffer : List UInt8) (offset : Nat) (bytes : List UInt8) : List UInt8 :=
  buffer.take offset ++ bytes ++ buffer.drop (offset + bytes.length)

/-- The request that sets the file name: spaces, the command, the name and the extension. -/
def fname (fileName : List UInt8) : List UInt8 :=
  let fname := (List.replicate 12 ' '.toUInt8).set 0 MICROBIT_USB_FLASH_FILENAME_CMD
  let fname := memcpy fname 1 (fileName.take (fileName.length - 4))
  memcpy fname 9 ((fileName.drop (fileName.length - 3)).take 3)

/-- The request that sets the file size. -/
def fsize (fileSize : Int) : List UInt8 := MICROBIT_USB_FLASH_FILESIZE_CMD :: htonl (fileSize % 2 ^ 32).toNat

/-- The request that sets the visibility. -/
def fvisible (visible : Bool) : List UInt8 := [MICROBIT_USB_FLASH_VISIBILITY_CMD, if visible then 1 else 0]

variable {State : Type} (chip : InterfaceChip State)

/-- `transact` of a command alone. -/
def transactCommand (s : State) (command : UInt8) : List UInt8 × State :=
  chip.transact s [command] (usbFlashPropertyLength command)

/-- `setConfiguration`. What the chip answers is ignored. -/
def setConfiguration (g : Geometry) (m : Cached) (s : State) (config : MicroBitUSBFlashConfig) (persist : Bool) :
    ErrorCode × Cached × State :=
  if config.fileSize ≤ 0 ∨ config.fileSize ≥ g.blockSize * g.blockCount then (.DEVICE_INVALID_PARAMETER, m, s)
  else if !validFileName config.fileName then (.DEVICE_INVALID_PARAMETER, m, s)
  else
    let s := (chip.transact s (fname config.fileName) 12).2
    let s := (chip.transact s (fsize config.fileSize) 2).2
    let s := (chip.transact s (fvisible config.visible) 2).2
    let s := if persist then (transactCommand chip s MICROBIT_USB_FLASH_WRITE_CONFIG_CMD).2 else s
    (.DEVICE_OK, { m with config := config }, s)

/-- A 32-bit number as an `int`. -/
def int32 (n : Nat) : Int := if n < 2 ^ 31 then n else (n : Int) - 2 ^ 32

/-- `getConfiguration`. A failed transaction leaves an empty response; `beyond` is what lies behind it in memory. -/
def getConfiguration (beyond : Nat → UInt8) (m : Cached) (s : State) : MicroBitUSBFlashConfig × Cached × State :=
  if m.loaded then (m.config, m, s)
  else
    let (response, s) := transactCommand chip s MICROBIT_USB_FLASH_FILENAME_CMD
    let fileName :=
      if response.length > 5 then
        let n := (response.drop 1).take (response.length - 1)
        n.set (n.length - 4) '.'.toUInt8
      else m.config.fileName
    let (response, s) := transactCommand chip s MICROBIT_USB_FLASH_FILESIZE_CMD
    let fileSize := int32 (ntoh ((List.range 4).map fun k => response.getD (k + 1) (beyond (k + 1))))
    let (response, s) := transactCommand chip s MICROBIT_USB_FLASH_VISIBILITY_CMD
    let visible := if response.getD 1 (beyond 1) = 0 then false else true
    let config := { fileName, fileSize, visible }
    (config, { config, loaded := true }, s)

end USBFlashManager

end CodalMicrobit

import CodalMicrobit.Lib.CodeTable
import CodalMicrobit.FSCache

/-!
# Eddystone URL frames

A beacon broadcasts a URL in a frame of 22 bytes: one for the scheme, and one for each of the usual domain suffixes in the rest.
-/

namespace CodalMicrobit

namespace MicroBitEddystone

/-- The bytes of a string literal. -/
def chars (s : String) : List UInt8 := s.toList.map Char.toUInt8

/-- `EDDYSTONE_UUID` -/
def EDDYSTONE_UUID : List UInt8 := [0xAA, 0xFE]

/-- `EDDYSTONE_URL_PREFIXES` -/
def EDDYSTONE_URL_PREFIXES : List (List UInt8) := ["http://www.", "https://www.", "http://", "https://"].map chars

/-- `EDDYSTONE_URL_SUFFIXES` -/
def EDDYSTONE_URL_SUFFIXES : List (List UInt8) :=
  [".com/", ".org/", ".edu/", ".net/", ".info/", ".biz/", ".gov/", ".com", ".org", ".edu", ".net", ".info", ".biz", ".gov"].map chars

/-- `EDDYSTONE_URL_MAX_LENGTH` -/
def EDDYSTONE_URL_MAX_LENGTH : Nat := 18

/-- `EDDYSTONE_URL_FRAME_TYPE` -/
def EDDYSTONE_URL_FRAME_TYPE : UInt8 := 0x10

/-- `frameSizeURL` -/
def frameSizeURL : Nat := 22

/-- The first loop of `getURL`: the code of the prefix, where there is one, and the URL behind it. -/
def urlPrefix (url : List UInt8) : List UInt8 × List UInt8 :=
  match CodeTable.code EDDYSTONE_URL_PREFIXES url with
  | some i => ([i.toUInt8], url.drop (CodeTable.word EDDYSTONE_URL_PREFIXES i).length)
  | none => ([], url)

/-- `getURL`. The URL is `none` for NULL. The length of the frame is `*pLength`. The second loop encodes until the URL ends or the
data are full, and what is left of the URL is not looked at. -/
def getURL (url : Option (List UInt8)) (calibratedPower : Int8) : ErrorCode × List UInt8 :=
  match url with
  | none => (.DEVICE_INVALID_PARAMETER, [])
  | some url =>
    if url.length = 0 then (.DEVICE_INVALID_PARAMETER, [])
    else
      let (urlData, url) := urlPrefix url
      let urlData := urlData ++ (CodeTable.encode EDDYSTONE_URL_SUFFIXES (EDDYSTONE_URL_MAX_LENGTH - urlData.length) url).1
      (.DEVICE_OK, EDDYSTONE_UUID ++ [EDDYSTONE_URL_FRAME_TYPE, calibratedPower.toUInt8] ++ urlData)

end MicroBitEddystone

end CodalMicrobit

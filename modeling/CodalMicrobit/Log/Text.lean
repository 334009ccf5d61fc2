import CodalMicrobit.Lib.Nor

/-!
# Text in the log

The texts `MicroBitLog` handles: byte strings, the hexadecimal numbers of its metadata and journal, the decimal numbers
of its time stamps, and the cleaning of what the user logs.
-/

namespace CodalMicrobit

/-- A `ManagedString`: its bytes, without the terminator. -/
abbrev ManagedString := List UInt8

/-- The bytes of an ASCII text. -/
def ascii (cs : List Char) : List UInt8 := cs.map Char.toUInt8

/-- What `strlen` and the string functions see of a buffer: the bytes before the first NUL. -/
def cString (s : List UInt8) : List UInt8 := s.takeWhile (· ≠ 0)

/-! ## Numbers -/

/-- A digit of `writeNum`. -/
def hexDigit (d : Nat) : UInt8 := if d > 9 then 'A'.toUInt8 + d.toUInt8 - 10 else '0'.toUInt8 + d.toUInt8

/-- `writeNum`: eight hexadecimal digits. (It also writes a terminator, which its callers place after the field.) -/
def writeNum (n : Nat) : List UInt8 := [28, 24, 20, 16, 12, 8, 4, 0].map fun sh => hexDigit (n / 2 ^ sh % 16)

/-- The value of a hexadecimal digit. -/
def hexValue (b : UInt8) : Option Nat :=
  if '0'.toUInt8 ≤ b ∧ b ≤ '9'.toUInt8 then some (b.toNat - 48)
  else if 'A'.toUInt8 ≤ b ∧ b ≤ 'F'.toUInt8 then some (b.toNat - 55)
  else if 'a'.toUInt8 ≤ b ∧ b ≤ 'f'.toUInt8 then some (b.toNat - 87)
  else none

/-- The number the leading hexadecimal digits spell, after the digits that spell `acc`. -/
def hexNumber (acc : Nat) : List UInt8 → Nat
  | [] => acc
  | b :: rest =>
    match hexValue b with
    | none => acc
    | some d => hexNumber (acc * 16 + d) rest

/-- `isspace` -/
def isSpace (b : UInt8) : Bool := b == 0x20 || (0x09 ≤ b && b ≤ 0x0D)

/-- `strtoul(s, NULL, 16)` with a 32-bit `unsigned long`: blanks, a sign, a prefix `0x`, and digits. -/
def strtoul (s : List UInt8) : Nat :=
  let s := s.dropWhile isSpace
  let negative := s.head? == some '-'.toUInt8
  let s := if negative || s.head? == some '+'.toUInt8 then s.tail else s
  let s := if s.take 2 == ascii ['0', 'x'] || s.take 2 == ascii ['0', 'X'] then s.drop 2 else s
  let v := hexNumber 0 s
  if 2 ^ 32 ≤ v then 2 ^ 32 - 1 else if negative then (2 ^ 32 - v) % 2 ^ 32 else v

/-- The decimal digits of a number, least significant first; `fuel` bounds their count. -/
def decimalDigits (n : Nat) : Nat → List UInt8
  | 0 => []
  | fuel + 1 => ('0'.toUInt8 + (n % 10).toUInt8) :: if n < 10 then [] else decimalDigits (n / 10) fuel

/-- `ManagedString(int)` -/
def decimal (n : Int) : ManagedString :=
  let digits := (decimalDigits n.natAbs 10).reverse
  if n < 0 then '-'.toUInt8 :: digits else digits

/-- `padString`: leading zeroes, one at a time, until the text has the given number of digits. The texts passed to it are
never longer than that. -/
def padString (s : ManagedString) (digits : Nat) : ManagedString :=
  List.replicate (digits - s.length) '0'.toUInt8 ++ s

/-- The conversion of an unsigned value to a 32-bit `int`. -/
def toInt (n : Nat) : Int := (n : Int).bmod (2 ^ 32)

/-! ## Cleaning -/

/-- `CONFIG_MICROBIT_LOG_INVALID_CHAR_VALUE` -/
def CONFIG_MICROBIT_LOG_INVALID_CHAR_VALUE : UInt8 := '_'.toUInt8

/-- One turn of the loop of `cleanBuffer`: `out` is the copy being cleaned, empty until the first change. -/
def cleanStep (s : List UInt8) (removeSeparators : Bool) (out : ManagedString) (i : Nat) : ManagedString :=
  let invalid := CONFIG_MICROBIT_LOG_INVALID_CHAR_VALUE
  let out :=
    if i + 2 < s.length ∧ s[i]? = some '-'.toUInt8 ∧ s[i + 1]? = some '-'.toUInt8 ∧ s[i + 2]? = some '>'.toUInt8 then
      let out := if out.length = 0 then s else out
      ((out.set i invalid).set (i + 1) invalid).set (i + 2) invalid
    else out
  if s[i]? = some '\t'.toUInt8 ∨ removeSeparators = true ∧ (s[i]? = some ','.toUInt8 ∨ s[i]? = some '\n'.toUInt8) then
    let out := if out.length = 0 then s else out
    out.set i invalid
  else out

/-- `cleanBuffer`: the text with its invalid symbols replaced, or an empty text when there are none. -/
def cleanBuffer (s : List UInt8) (removeSeparators : Bool := true) : ManagedString :=
  (List.range s.length).foldl (cleanStep s removeSeparators) []

/-- The text that is used after `cleanBuffer`: an empty answer means that nothing had to be changed. -/
def cleaned (s : List UInt8) (removeSeparators : Bool := true) : List UInt8 :=
  if (cleanBuffer s removeSeparators).length = 0 then s else cleanBuffer s removeSeparators

end CodalMicrobit

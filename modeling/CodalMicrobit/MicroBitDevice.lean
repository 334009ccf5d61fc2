import Mathlib.Data.Vector.Basic

/-!
# The friendly name

`microbit_friendly_name` makes a name of five letters out of the serial number of a device. It writes it from the end.
-/

namespace CodalMicrobit

/-- `MICROBIT_NAME_LENGTH` -/
def MICROBIT_NAME_LENGTH : Nat := 5

/-- `MICROBIT_NAME_CODE_LETTERS` -/
def MICROBIT_NAME_CODE_LETTERS : Nat := 5

/-- The `codebook` of `microbit_friendly_name`. -/
def codebook : Vector (Vector Char MICROBIT_NAME_CODE_LETTERS) MICROBIT_NAME_LENGTH :=
  #v[#v['z', 'v', 'g', 'p', 't'],
    #v['u', 'o', 'i', 'e', 'a'],
    #v['z', 'v', 'g', 'p', 't'],
    #v['u', 'o', 'i', 'e', 'a'],
    #v['z', 'v', 'g', 'p', 't']]

/-- The variables of the loop. The name is what has been written of it, behind the pointer. -/
structure NameState where
  n : UInt32
  ld : Nat := 1
  d : Nat := MICROBIT_NAME_CODE_LETTERS
  name : List Char := []

namespace NameState

/-- `h`, the index into the codebook. -/
def h (s : NameState) : Nat := s.n.toNat % s.d / s.ld

/-- The body of the loop. It reads a letter only where the codebook has one. -/
def step (s : NameState) (i : Nat) : Option NameState :=
  if hi : i < MICROBIT_NAME_LENGTH ∧ s.h < MICROBIT_NAME_CODE_LETTERS then
    some {
      n := s.n - s.h.toUInt32
      d := s.d * MICROBIT_NAME_CODE_LETTERS
      ld := s.ld * MICROBIT_NAME_CODE_LETTERS
      name := codebook[i][s.h] :: s.name }
  else none

/-- The first rounds of the loop. -/
def rounds (s : NameState) (k : Nat) : Option NameState := (List.range k).foldlM step s

end NameState

/-- `microbit_friendly_name`, for the given `microbit_serial_number`. -/
def microbit_friendly_name (serial : UInt32) : Option (List Char) :=
  (NameState.rounds { n := serial } MICROBIT_NAME_LENGTH).map NameState.name

end CodalMicrobit

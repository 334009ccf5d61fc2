import CodalMicrobit.MicroBitDevice
import CodalMicrobit.Lib.Digits

/-!
# The digits in a name

The loop subtracts each digit from the number, and not the digit times its place value. What remains below the place is then not
zero, but it is less than the place, so the digits to come are the right ones.
-/

namespace CodalMicrobit

open Digits

/-- A digit of a number in base 5, as an index into the codebook. -/
def nameDigit (n i : Nat) : Fin MICROBIT_NAME_CODE_LETTERS := ⟨digit 5 n i, digit_lt (by decide) n i⟩

/-- The letter for a digit at a place. -/
def nameLetter (i : Fin MICROBIT_NAME_LENGTH) (a : Fin MICROBIT_NAME_CODE_LETTERS) : Char := codebook[i][a]

/-- The state after the first `k` rounds for the serial number `n`. -/
structure Written (n k : Nat) (s : NameState) : Prop where
  quotient : s.n.toNat / 5 ^ k = n / 5 ^ k
  ld : s.ld = 5 ^ k
  d : s.d = 5 ^ (k + 1)
  length : s.name.length = k
  letter : ∀ i : Fin MICROBIT_NAME_LENGTH, i.val < k → s.name[k - 1 - i.val]? = some (nameLetter i (nameDigit n i))

/-- What `microbit_friendly_name` is meant to return for a serial number: the letters of the digits of its last five places, the
least significant one last. -/
structure NameOf (n : Nat) (name : List Char) : Prop where
  length : name.length = MICROBIT_NAME_LENGTH
  letter : ∀ i : Fin MICROBIT_NAME_LENGTH, name[4 - i.val]? = some (nameLetter i (nameDigit (n % 5 ^ 5) i))

variable {n m k : Nat} {s : NameState}

/-- The index is the digit of the serial number. -/
theorem Written.h_eq (hs : Written n k s) : s.h = digit 5 n k := by
  rw [NameState.h, hs.d, hs.ld, ← digit_eq]
  exact digit_congr hs.quotient

/-- The subtraction does not wrap around. -/
theorem Written.toNat_sub (hs : Written n k s) : (s.n - s.h.toUInt32).toNat = s.n.toNat - s.h := by
  have hlt : s.h < 2 ^ 32 := Nat.lt_trans (hs.h_eq ▸ digit_lt (b := 5) (by decide) n k) (by decide)
  have hnat : s.h.toUInt32.toNat = s.h := UInt32.toNat_ofNat_of_lt' hlt
  have hle : s.h ≤ s.n.toNat := Nat.le_trans (Nat.div_le_self _ _) (Nat.mod_le _ _)
  have hsub : s.h.toUInt32 ≤ s.n := UInt32.le_iff_toNat_le.mpr (by rw [hnat]; exact hle)
  rw [UInt32.toNat_sub_of_le _ _ hsub, hnat]

/-- One round writes one letter. -/
theorem Written.step (hs : Written n k s) (hk : k < MICROBIT_NAME_LENGTH) : ∃ t, s.step k = some t ∧ Written n (k + 1) t := by
  have hh := hs.h_eq
  have hlt : s.h < MICROBIT_NAME_CODE_LETTERS := hh ▸ digit_lt (by decide) n k
  refine ⟨_, dif_pos ⟨hk, hlt⟩, ?_, ?_, ?_, ?_, ?_⟩
  · change (s.n - s.h.toUInt32).toNat / 5 ^ (k + 1) = n / 5 ^ (k + 1)
    rw [hs.toNat_sub, hh, ← digit_congr hs.quotient]
    exact sub_digit_div hs.quotient
  · exact (congrArg (· * 5) hs.ld).trans (Nat.pow_succ 5 k).symm
  · exact (congrArg (· * 5) hs.d).trans (Nat.pow_succ 5 (k + 1)).symm
  · exact congrArg (· + 1) hs.length
  · intro i hi
    rcases Nat.lt_succ_iff_lt_or_eq.mp hi with hik | hik
    · -- the letters written before are one further from the front
      have hpos : k + 1 - 1 - i.val = (k - 1 - i.val) + 1 := by omega
      rw [hpos, List.getElem?_cons_succ]
      exact hs.letter i hik
    · have hpos : k + 1 - 1 - i.val = 0 := by omega
      rw [hpos, List.getElem?_cons_zero]
      subst hik
      simp only [nameLetter, nameDigit, hh]
      rfl

/-- The rounds write the letters. -/
theorem written_rounds (serial : UInt32) (hk : k ≤ MICROBIT_NAME_LENGTH) :
    ∃ s, NameState.rounds { n := serial } k = some s ∧ Written serial.toNat k s := by
  induction k with
  | zero => exact ⟨_, rfl, rfl, rfl, rfl, rfl, fun i hi => absurd hi (Nat.not_lt_zero _)⟩
  | succ k ih =>
    obtain ⟨s, hs, hw⟩ := ih (Nat.le_of_lt hk)
    obtain ⟨t, ht, hw'⟩ := hw.step hk
    refine ⟨t, ?_, hw'⟩
    rw [NameState.rounds, List.range_succ, List.foldlM_append]
    rw [NameState.rounds] at hs
    rw [hs]
    simpa using ht

/-- Different digits have different letters. -/
theorem nameLetter_inj : ∀ i a b, nameLetter i a = nameLetter i b → a = b := by decide

/-- The name of a serial number. -/
theorem nameOf_friendly_name (serial : UInt32) : ∃ name, microbit_friendly_name serial = some name ∧ NameOf serial.toNat name := by
  obtain ⟨s, hs, hw⟩ := written_rounds serial (Nat.le_refl MICROBIT_NAME_LENGTH)
  refine ⟨s.name, by rw [microbit_friendly_name, hs]; rfl, hw.length, fun i => ?_⟩
  have hdigit : nameDigit (serial.toNat % 5 ^ 5) i = nameDigit serial.toNat i := Fin.ext (digit_mod i.isLt)
  rw [hdigit]
  exact hw.letter i i.isLt

/-- Names are the same exactly if the digits are. -/
theorem nameOf_inj {name name' : List Char} (h : NameOf n name) (h' : NameOf m name') :
    name = name' ↔ n % 5 ^ 5 = m % 5 ^ 5 := by
  refine ⟨fun heq => ?_, fun heq => ?_⟩
  · rw [mod_pow_eq_iff]
    intro i hi
    have hl : nameLetter ⟨i, hi⟩ (nameDigit (n % 5 ^ 5) i) = nameLetter ⟨i, hi⟩ (nameDigit (m % 5 ^ 5) i) := by
      refine Option.some.inj ?_
      rw [← h.letter ⟨i, hi⟩, ← h'.letter ⟨i, hi⟩, heq]
    have hdigit := congrArg Fin.val (nameLetter_inj _ _ _ hl)
    rw [← digit_mod hi, ← digit_mod (n := m) hi]
    exact hdigit
  · refine List.ext_getElem? fun j => ?_
    rcases Nat.lt_or_ge j 5 with hj | hj
    · have hpos : 4 - (4 - j) = j := by omega
      have hlt : 4 - j < MICROBIT_NAME_LENGTH := Nat.lt_of_le_of_lt (Nat.sub_le 4 j) (by decide)
      have hl := h.letter ⟨4 - j, hlt⟩
      have hl' := h'.letter ⟨4 - j, hlt⟩
      rw [hpos] at hl hl'
      rw [hl, hl', heq]
    · rw [List.getElem?_eq_none (h.length ▸ hj), List.getElem?_eq_none (h'.length ▸ hj)]

/-- The name is that of the last five digits in base 5, no round reads outside of the codebook, and the names of two serial numbers
are the same exactly if these digits are. -/
theorem microbit_friendly_name_spec :
    (∀ serial, ∃ name, microbit_friendly_name serial = some name ∧ NameOf serial.toNat name) ∧
      (∀ serial, ∀ k < MICROBIT_NAME_LENGTH, ∃ s, NameState.rounds { n := serial } k = some s ∧
        s.h = digit 5 (serial.toNat % 5 ^ 5) k ∧ s.h < MICROBIT_NAME_CODE_LETTERS) ∧
      ∀ serial serial', microbit_friendly_name serial = microbit_friendly_name serial' ↔
        serial.toNat % 3125 = serial'.toNat % 3125 := by
  refine ⟨nameOf_friendly_name, fun serial k hk => ?_, fun serial serial' => ?_⟩
  · obtain ⟨s, hs, hw⟩ := written_rounds serial (Nat.le_of_lt hk)
    refine ⟨s, hs, hw.h_eq.trans (digit_mod hk).symm, ?_⟩
    rw [hw.h_eq]
    exact digit_lt (by decide) _ _
  · obtain ⟨name, hname, h⟩ := nameOf_friendly_name serial
    obtain ⟨name', hname', h'⟩ := nameOf_friendly_name serial'
    rw [hname, hname', Option.some.injEq]
    exact nameOf_inj h h'

example : microbit_friendly_name 3126 = some ['z', 'u', 'z', 'u', 'v'] := by decide +kernel

end CodalMicrobit

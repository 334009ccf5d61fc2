import Mathlib.Algebra.GroupWithZero.Nat
import Mathlib.Data.Nat.Digits.Defs
import Mathlib.Data.UInt
import Mathlib.Tactic.Common

/-!
# Digits

The digits of a number in a base, by place. A loop may take them off one after the other without dividing the number: subtracting
what is not greater than the remainder leaves the quotient as it was.
-/

namespace Digits

/-- The digit of a number at a place, the least significant one at place 0. -/
def digit (b n i : Nat) : Nat := n / b ^ i % b

variable {b k n m i : Nat}

/-- A digit is below the base. -/
theorem digit_lt (hb : 0 < b) (n i : Nat) : digit b n i < b := Nat.mod_lt _ hb

/-- The digit at a place is the remainder for the next place, divided by this one. -/
theorem digit_eq (b n i : Nat) : digit b n i = n % b ^ (i + 1) / b ^ i := by
  rw [Nat.pow_succ, Nat.mod_mul_right_div_self]
  rfl

/-- Numbers with the same quotient have the same digits from there on. -/
theorem digit_congr (h : n / b ^ i = m / b ^ i) : digit b n i = digit b m i := by
  rw [digit, digit, h]

/-- The low digits do not depend on the high ones. -/
theorem digit_mod (h : i < k) : digit b (n % b ^ k) i = digit b n i := by
  rw [digit_eq, digit_eq, Nat.mod_mod_of_dvd _ (Nat.pow_dvd_pow b h)]

/-- What is not greater than the remainder does not borrow from the quotient. -/
theorem sub_div_of_le_mod (h : k ≤ n % m) : (n - k) / m = n / m := by
  rcases Nat.eq_zero_or_pos m with rfl | hm
  · rw [Nat.div_zero, Nat.div_zero]
  · have hlt : n % m - k < m := Nat.lt_of_le_of_lt (Nat.sub_le _ _) (Nat.mod_lt n hm)
    have hsplit : n - k = m * (n / m) + (n % m - k) := by
      have := Nat.div_add_mod n m
      omega
    rw [hsplit, Nat.mul_add_div hm, Nat.div_eq_of_lt hlt, Nat.add_zero]

/-- Taking the digit itself off the number, in place of its value, keeps the quotient for the next place. -/
theorem sub_digit_div (h : n / b ^ i = m / b ^ i) : (n - digit b n i) / b ^ (i + 1) = m / b ^ (i + 1) := by
  have hle : digit b n i ≤ n % b ^ (i + 1) := by
    rw [digit_eq]
    exact Nat.div_le_self _ _
  rw [sub_div_of_le_mod hle, Nat.pow_succ, ← Nat.div_div_eq_div_mul, ← Nat.div_div_eq_div_mul, h]

/-- Numbers agree up to a power of the base exactly if their digits below it do. -/
theorem mod_pow_eq_iff (b k n m : Nat) : n % b ^ k = m % b ^ k ↔ ∀ i < k, digit b n i = digit b m i := by
  induction k with
  | zero => exact iff_of_true (by rw [Nat.pow_zero, Nat.mod_one, Nat.mod_one]) nofun
  | succ k ih =>
    refine ⟨fun h i hi => ?_, fun h => ?_⟩
    · rw [← digit_mod hi, h, digit_mod hi]
    · have hlow := ih.mpr fun i hi => h i (Nat.lt_succ_of_lt hi)
      have hhigh : n / b ^ k % b = m / b ^ k % b := h k (Nat.lt_succ_self k)
      rw [Nat.mod_pow_succ, Nat.mod_pow_succ, hlow, hhigh]

/-! ## Bytes -/

/-- The low `k` bytes of a number, the least significant one first. -/
def bytes (k n : Nat) : List UInt8 := (List.range k).map fun i => UInt8.ofNat (digit 256 n i)

/-- The number that bytes stand for. -/
def ofBytes (bs : List UInt8) : Nat := Nat.ofDigits 256 (bs.map UInt8.toNat)

/-- A number is written in as many bytes as asked for. -/
@[simp] theorem bytes_length (k n : Nat) : (bytes k n).length = k := by
  rw [bytes, List.length_map, List.length_range]

/-- The bytes of a number give it back as far as they hold it. -/
theorem ofBytes_bytes (k n : Nat) : ofBytes (bytes k n) = n % 256 ^ k := by
  induction k with
  | zero => rw [Nat.pow_zero, Nat.mod_one]; rfl
  | succ k ih =>
    have hsplit : bytes (k + 1) n = bytes k n ++ [UInt8.ofNat (digit 256 n k)] := by
      rw [bytes, List.range_succ, List.map_append]
      rfl
    have hbyte : (UInt8.ofNat (digit 256 n k)).toNat = digit 256 n k :=
      UInt8.toNat_ofNat_of_lt' (digit_lt (by decide) n k)
    rw [ofBytes] at ih
    rw [ofBytes, hsplit, List.map_append, Nat.ofDigits_append, ih, List.length_map, bytes_length, List.map_singleton,
      Nat.ofDigits_singleton, hbyte, digit, Nat.mod_pow_succ]

end Digits

import Mathlib.Data.List.Basic
import Mathlib.Tactic.IntervalCases

/-!
# Decimal numbers as bytes

The decimal digits of a number as the bytes of a text, also with leading zeroes, and the number such a text spells.
-/

namespace Decimal

/-- The byte of a digit. -/
def digit (d : Nat) : UInt8 := '0'.toUInt8 + d.toUInt8

/-- The decimal representation of a number. -/
def digits (n : Nat) : List UInt8 := (Nat.toDigits 10 n).map Char.toUInt8

/-- The last `k` decimal digits of a number, leading zeroes included. -/
def padded : Nat → Nat → List UInt8
  | 0, _ => []
  | k + 1, n => padded k (n / 10) ++ [digit (n % 10)]

/-- The number a text of digits spells. -/
def value (s : List UInt8) : Nat := s.foldl (fun v b => 10 * v + (b.toNat - 48)) 0

/-- The character of a digit as a byte. -/
theorem digitChar_toUInt8 {d : Nat} (h : d < 10) : (Nat.digitChar d).toUInt8 = digit d := by
  interval_cases d <;> rfl

/-- The value of a digit's byte. -/
theorem digit_toNat {d : Nat} (h : d < 10) : (digit d).toNat - 48 = d := by
  interval_cases d <;> rfl

/-- The last digit comes off the end. -/
theorem digits_eq (n : Nat) : digits n = (if n < 10 then [] else digits (n / 10)) ++ [digit (n % 10)] := by
  have hd : n % 10 < 10 := Nat.mod_lt _ (by decide)
  unfold digits
  rw [Nat.toDigits_eq_if (by decide)]
  split
  · rename_i h
    rw [Nat.mod_eq_of_lt h, List.map_singleton, digitChar_toUInt8 h, List.nil_append]
  · rw [List.map_append, List.map_singleton, digitChar_toUInt8 hd]

/-- A number below ten is one digit. -/
theorem digits_of_lt {n : Nat} (h : n < 10) : digits n = [digit n] := by
  rw [digits_eq, if_pos h, Nat.mod_eq_of_lt h, List.nil_append]

/-- The last digit of a number from ten on. -/
theorem digits_of_le {n : Nat} (h : 10 ≤ n) : digits n = digits (n / 10) ++ [digit (n % 10)] := by
  rw [digits_eq, if_neg (Nat.not_lt.mpr h)]

/-- The representation spells the number. -/
theorem value_digits (n : Nat) : value (digits n) = n := by
  induction n using Nat.strongRecOn with
  | ind n ih =>
    have hd := digit_toNat (Nat.mod_lt n (by decide : 0 < 10))
    rcases Nat.lt_or_ge n 10 with h | h
    · rw [digits_of_lt h]
      rw [Nat.mod_eq_of_lt h] at hd
      simp [value, hd]
    · have hq := ih (n / 10) (Nat.div_lt_self (by omega) (by decide))
      unfold value at hq ⊢
      rw [digits_of_le h, List.foldl_append, hq, List.foldl_cons, List.foldl_nil, hd]
      omega

/-- Different numbers have different digits. -/
theorem digits_injective {a b : Nat} (h : digits a = digits b) : a = b := by
  rw [← value_digits a, h, value_digits]

/-- A padded number has the length asked for. -/
@[simp] theorem padded_length (k n : Nat) : (padded k n).length = k := by
  induction k generalizing n with
  | zero => rfl
  | succ k ih => rw [padded, List.length_append, ih, List.length_singleton]

/-- A number is its leading part, and the digits behind that part with their leading zeroes. -/
theorem digits_append_padded {b : Nat} (hb : 0 < b) (k : Nat) : ∀ {u : Nat}, u < 10 ^ k →
    digits (b * 10 ^ k + u) = digits b ++ padded k u := by
  induction k with
  | zero =>
    intro u hu
    obtain rfl : u = 0 := by omega
    rw [padded, Nat.pow_zero, Nat.mul_one, Nat.add_zero, List.append_nil]
  | succ k ih =>
    intro u hu
    have hpow : b * 10 ^ (k + 1) = b * 10 ^ k * 10 := by rw [Nat.pow_succ, Nat.mul_assoc]
    have hpos : 1 ≤ b * 10 ^ k := Nat.mul_pos hb (Nat.pow_pos (by decide))
    have hdiv : (b * 10 ^ (k + 1) + u) / 10 = b * 10 ^ k + u / 10 := by omega
    have hmod : (b * 10 ^ (k + 1) + u) % 10 = u % 10 := by omega
    have hu' : u / 10 < 10 ^ k := by
      rw [Nat.pow_succ] at hu
      omega
    rw [digits_of_le (by omega), hdiv, hmod, ih hu', padded, List.append_assoc]

theorem padded_zero (k : Nat) : padded k 0 = List.replicate k '0'.toUInt8 := by
  induction k with
  | zero => rfl
  | succ k ih =>
    rw [padded, ih, List.replicate_succ']
    rfl

/-- Leading zeroes fill the representation up. -/
theorem padded_eq (k : Nat) : ∀ {n : Nat}, n < 10 ^ (k + 1) → (digits n).length ≤ k + 1 ∧
    padded (k + 1) n = List.replicate (k + 1 - (digits n).length) '0'.toUInt8 ++ digits n := by
  induction k with
  | zero =>
    intro n hn
    have hlt : n < 10 := hn
    rw [digits_of_lt hlt, padded, padded, Nat.mod_eq_of_lt hlt]
    exact ⟨Nat.le_refl _, rfl⟩
  | succ k ih =>
    intro n hn
    rcases Nat.lt_or_ge n 10 with hlt | hge
    · rw [digits_of_lt hlt, padded, Nat.div_eq_of_lt hlt, Nat.mod_eq_of_lt hlt, padded_zero]
      exact ⟨Nat.succ_le_succ (Nat.zero_le _), rfl⟩
    · have hn' : n / 10 < 10 ^ (k + 1) := by
        rw [Nat.pow_succ] at hn
        omega
      obtain ⟨hl, hp⟩ := ih hn'
      rw [digits_of_le hge, List.length_append, List.length_singleton, padded, hp, List.append_assoc]
      refine ⟨Nat.succ_le_succ hl, ?_⟩
      congr 2
      omega

end Decimal

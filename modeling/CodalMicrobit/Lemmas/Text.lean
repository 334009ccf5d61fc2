import CodalMicrobit.Log.Text
import Mathlib.Data.List.TakeWhile

/-!
# Texts read back

A number that `writeNum` writes is read back by `strtoul`, also when a prefix `0x` stands before it, and when only its
first digits have been written. Cleaning a text keeps its length, and leaves nothing in it that it is there to remove.
-/

namespace CodalMicrobit

/-! ## Hexadecimal numbers -/

/-- The number that digits spell, after the digits that spell `acc`. -/
def ofDigits (acc : Nat) (ds : List Nat) : Nat := ds.foldl (fun acc d => acc * 16 + d) acc

/-- The digits of `writeNum`. -/
def hexDigits (n : Nat) : List Nat := [28, 24, 20, 16, 12, 8, 4, 0].map fun sh => n / 2 ^ sh % 16

/-- A number is written as its hexadecimal digits. -/
theorem writeNum_eq (n : Nat) : writeNum n = (hexDigits n).map hexDigit := rfl

/-- A number is written in eight digits. -/
@[simp] theorem writeNum_length (n : Nat) : (writeNum n).length = 8 := rfl

/-- Hexadecimal digits are below 16. -/
theorem hexDigits_lt (n : Nat) : ∀ d ∈ hexDigits n, d < 16 := by
  intro d hd
  obtain ⟨sh, -, rfl⟩ := List.mem_map.mp hd
  exact Nat.mod_lt _ (by decide)

/-- The digits of a 32-bit number give it back. -/
theorem ofDigits_hexDigits {n : Nat} (h : n < 2 ^ 32) : ofDigits 0 (hexDigits n) = n := by
  simp only [ofDigits, hexDigits, List.map_cons, List.map_nil, List.foldl_cons, List.foldl_nil]
  omega

/-- The first four digits spell the upper half of the number. -/
theorem ofDigits_hexDigits_take {n : Nat} (h : n < 2 ^ 32) : ofDigits 0 ((hexDigits n).take 4) ≤ n := by
  simp only [ofDigits, hexDigits, List.map_cons, List.map_nil, List.take_succ_cons, List.take_zero, List.foldl_cons,
    List.foldl_nil]
  omega

/-- What a hexadecimal digit is and is not. -/
theorem hexDigit_facts {d : Nat} (h : d < 16) : hexValue (hexDigit d) = some d ∧ hexDigit d ≠ 0 ∧
    isSpace (hexDigit d) = false ∧ hexDigit d ≠ '-'.toUInt8 ∧ hexDigit d ≠ '+'.toUInt8 ∧
    hexDigit d ≠ 'x'.toUInt8 ∧ hexDigit d ≠ 'X'.toUInt8 := by
  have key : ∀ d : Fin 16, hexValue (hexDigit d) = some d.val ∧ hexDigit d ≠ 0 ∧
      isSpace (hexDigit d) = false ∧ hexDigit d ≠ '-'.toUInt8 ∧ hexDigit d ≠ '+'.toUInt8 ∧
      hexDigit d ≠ 'x'.toUInt8 ∧ hexDigit d ≠ 'X'.toUInt8 := by decide
  exact key ⟨d, h⟩

/-- Nothing that could continue a number. -/
def EndsNumber (tail : List UInt8) : Prop := ∀ b, tail.head? = some b → hexValue b = none

theorem hexNumber_append (ds : List Nat) (tail : List UInt8) (hd : ∀ d ∈ ds, d < 16) (ht : EndsNumber tail) :
    ∀ acc, hexNumber acc (ds.map hexDigit ++ tail) = ofDigits acc ds := by
  induction ds with
  | nil =>
    intro acc
    cases tail with
    | nil => rfl
    | cons b rest =>
      have hb := ht b rfl
      simp [hexNumber, hb, ofDigits]
  | cons d ds ih =>
    intro acc
    have hv := (hexDigit_facts (hd d List.mem_cons_self)).1
    simp only [List.map_cons, List.cons_append, hexNumber, hv]
    exact ih (fun d' h' => hd d' (List.mem_cons_of_mem _ h')) _

/-- `strtoul` of a text that starts with at least two digits. -/
theorem strtoul_digits (ds : List Nat) (tail : List UInt8) (h2 : 2 ≤ ds.length) (hd : ∀ x ∈ ds, x < 16)
    (ht : EndsNumber tail) (hlt : ofDigits 0 ds < 2 ^ 32) :
    strtoul (ds.map hexDigit ++ tail) = ofDigits 0 ds := by
  obtain ⟨d, d', ds, rfl⟩ : ∃ d d' ds', ds = d :: d' :: ds' := by
    match ds, h2 with
    | d :: d' :: ds', _ => exact ⟨d, d', ds', rfl⟩
  obtain ⟨-, -, hsp, hminus, hplus, -, -⟩ := hexDigit_facts (hd d List.mem_cons_self)
  obtain ⟨-, -, -, -, -, hx, hX⟩ := hexDigit_facts (hd d' (by simp))
  have hnum := hexNumber_append (d :: d' :: ds) tail hd ht 0
  simp only [List.map_cons, List.cons_append] at hnum ⊢
  have h1 : [hexDigit d, hexDigit d'] ≠ ascii ['0', 'x'] := by simp [ascii, hx]
  have h2 : [hexDigit d, hexDigit d'] ≠ ascii ['0', 'X'] := by simp [ascii, hX]
  unfold strtoul
  simp only [List.dropWhile_cons, hsp, Bool.false_eq_true, if_false, List.head?_cons, Option.some_beq_some,
    beq_eq_false_iff_ne.mpr hminus, beq_eq_false_iff_ne.mpr hplus, Bool.or_self, List.take_succ_cons, List.take_zero,
    beq_eq_false_iff_ne.mpr h1, beq_eq_false_iff_ne.mpr h2, hnum]
  rw [if_neg (by omega)]

/-- `strtoul` of a number with the prefix `0x`. -/
theorem strtoul_prefix (ds : List Nat) (hd : ∀ x ∈ ds, x < 16) (hlt : ofDigits 0 ds < 2 ^ 32) :
    strtoul (ascii ['0', 'x'] ++ ds.map hexDigit) = ofDigits 0 ds := by
  have hnum := hexNumber_append ds [] hd (by simp [EndsNumber]) 0
  rw [List.append_nil] at hnum
  have hsp : isSpace '0'.toUInt8 = false := by decide
  have hminus : ('0'.toUInt8 == '-'.toUInt8) = false := by decide
  have hplus : ('0'.toUInt8 == '+'.toUInt8) = false := by decide
  unfold strtoul
  simp only [ascii, List.map_cons, List.map_nil, List.cons_append, List.nil_append, List.dropWhile_cons, hsp,
    Bool.false_eq_true, if_false, List.head?_cons, Option.some_beq_some, hminus, hplus, Bool.or_self,
    List.take_succ_cons, List.take_zero, BEq.rfl, Bool.true_or, if_true, List.drop_succ_cons, List.drop_zero, hnum]
  rw [if_neg (by omega)]

/-- A C string ends at its zero byte. -/
theorem cString_append_nul (s t : List UInt8) (h : ∀ b ∈ s, b ≠ 0) : cString (s ++ 0 :: t) = s := by
  unfold cString
  rw [List.takeWhile_append_of_pos (by simpa using h)]
  simp

/-- A text without a zero byte is the whole C string. -/
theorem cString_of_no_nul (s : List UInt8) (h : ∀ b ∈ s, b ≠ 0) : cString s = s :=
  List.takeWhile_eq_self_iff.mpr (by simpa using h)

theorem map_hexDigit_ne_zero {ds : List Nat} (h : ∀ d ∈ ds, d < 16) : ∀ b ∈ ds.map hexDigit, b ≠ 0 := by
  intro b hb
  obtain ⟨d, hd, rfl⟩ := List.mem_map.mp hb
  exact (hexDigit_facts (h d hd)).2.1

/-- A journal entry is read back. -/
theorem strtoul_writeNum {n : Nat} (h : n < 2 ^ 32) : strtoul (cString (writeNum n)) = n := by
  have hd := hexDigits_lt n
  rw [writeNum_eq, cString_of_no_nul _ (map_hexDigit_ne_zero hd)]
  have hv := strtoul_digits (hexDigits n) [] (by simp [hexDigits]) hd (by simp [EndsNumber])
    (by rw [ofDigits_hexDigits h]; exact h)
  rw [List.append_nil, ofDigits_hexDigits h] at hv
  exact hv

/-- A journal entry of which only the first word was written is read as a smaller number. -/
theorem strtoul_half_writeNum {n : Nat} (h : n < 2 ^ 32) (tail : List UInt8) (ht : EndsNumber tail)
    (ht0 : ∀ b ∈ tail, b ≠ 0) : strtoul (cString ((writeNum n).take 4 ++ tail)) ≤ n := by
  have hd : ∀ d ∈ (hexDigits n).take 4, d < 16 := fun d hd => hexDigits_lt n d (List.mem_of_mem_take hd)
  have hle := ofDigits_hexDigits_take h
  rw [writeNum_eq, ← List.map_take, cString_of_no_nul]
  · have hv := strtoul_digits ((hexDigits n).take 4) tail (by simp [hexDigits]) hd ht (Nat.lt_of_le_of_lt hle h)
    exact (Nat.le_of_eq hv).trans hle
  · intro b hb
    rcases List.mem_append.mp hb with hb | hb
    · exact map_hexDigit_ne_zero hd b hb
    · exact ht0 b hb

/-- A number of the metadata is read back. -/
theorem strtoul_metaData {n : Nat} (h : n < 2 ^ 32) : strtoul (cString (ascii ['0', 'x'] ++ writeNum n ++ [0])) = n := by
  have hd := hexDigits_lt n
  rw [cString_append_nul, writeNum_eq, strtoul_prefix _ hd (by rw [ofDigits_hexDigits h]; exact h), ofDigits_hexDigits h]
  intro b hb
  rcases List.mem_append.mp hb with hb | hb
  · simp only [ascii, List.map_cons, List.map_nil, List.mem_cons, List.not_mem_nil, or_false] at hb
    rcases hb with rfl | rfl <;> decide
  · rw [writeNum_eq] at hb
    exact map_hexDigit_ne_zero hd b hb

/-! ## Cleaning -/

/-- What every turn of `cleanBuffer` keeps to: the copy is empty or as long as the text, and each of its bytes is the
text's or the symbol for invalid ones. -/
structure CleanCopy (s out : List UInt8) : Prop where
  length : out.length = 0 ∨ out.length = s.length
  bytes : ∀ i (h : i < out.length), some out[i] = s[i]? ∨ out[i] = CONFIG_MICROBIT_LOG_INVALID_CHAR_VALUE

/-- A text is a clean copy of itself as far as it goes. -/
theorem CleanCopy.self (s : List UInt8) : CleanCopy s s :=
  ⟨Or.inr rfl, fun _ h => Or.inl (List.getElem?_eq_getElem h).symm⟩

/-- A byte replaced by the one for invalid characters leaves a clean copy. -/
theorem CleanCopy.set {s out : List UInt8} (h : CleanCopy s out) (i : Nat) :
    CleanCopy s (out.set i CONFIG_MICROBIT_LOG_INVALID_CHAR_VALUE) := by
  refine ⟨by rw [List.length_set]; exact h.length, fun j hj => ?_⟩
  rw [List.getElem_set]
  split
  · exact Or.inr rfl
  · exact h.bytes j (by simpa using hj)

/-- The copy is made when the first byte has to be replaced. -/
theorem CleanCopy.start {s out : List UInt8} (h : CleanCopy s out) : CleanCopy s (if out.length = 0 then s else out) := by
  split
  · exact CleanCopy.self s
  · exact h

/-- One byte of `cleanBuffer`'s loop leaves a clean copy. -/
theorem CleanCopy.step {s out : List UInt8} (h : CleanCopy s out) (r : Bool) (i : Nat) :
    CleanCopy s (cleanStep s r out i) := by
  have hmark : ∀ {out : List UInt8}, CleanCopy s out →
      CleanCopy s ((if out.length = 0 then s else out).set i CONFIG_MICROBIT_LOG_INVALID_CHAR_VALUE) :=
    fun h => h.start.set i
  unfold cleanStep
  dsimp only
  have hdash : CleanCopy s
      (((if out.length = 0 then s else out).set i CONFIG_MICROBIT_LOG_INVALID_CHAR_VALUE).set (i + 1)
        CONFIG_MICROBIT_LOG_INVALID_CHAR_VALUE |>.set (i + 2) CONFIG_MICROBIT_LOG_INVALID_CHAR_VALUE) :=
    ((hmark h).set _).set _
  by_cases hd : i + 2 < s.length ∧ s[i]? = some '-'.toUInt8 ∧ s[i + 1]? = some '-'.toUInt8 ∧
      s[i + 2]? = some '>'.toUInt8
  · rw [if_pos hd]
    split
    · exact hmark hdash
    · exact hdash
  · rw [if_neg hd]
    split
    · exact hmark h
    · exact h

/-- What `cleanBuffer` gives is a clean copy. -/
theorem cleanBuffer_copy (s : List UInt8) (r : Bool) : CleanCopy s (cleanBuffer s r) := by
  unfold cleanBuffer
  have h0 : CleanCopy s [] := ⟨Or.inl rfl, fun _ h => nomatch h⟩
  generalize List.range s.length = l
  generalize ([] : List UInt8) = out at h0
  induction l generalizing out with
  | nil => exact h0
  | cons i l ih => exact ih _ (h0.step r i)

/-- Cleaning keeps the length of a text. -/
@[simp] theorem cleaned_length (s : List UInt8) (r : Bool) : (cleaned s r).length = s.length := by
  unfold cleaned
  split
  · rfl
  · rename_i h
    exact (cleanBuffer_copy s r).length.resolve_left h

end CodalMicrobit

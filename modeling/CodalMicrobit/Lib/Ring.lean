import Mathlib.Data.List.Range
import Mathlib.Logic.Function.Basic
import Mathlib.Tactic.Common

/-!
# Ring buffers

A ring of `size` places holds the elements from its tail up to its head, going around after the last place. One place
stays free, so that a full ring can be told from an empty one: tail and head are equal exactly when nothing is held.
-/

namespace Ring

variable {α : Type*}

/-- How many places there are from `tail` up to `head`. -/
def count (size tail head : Nat) : Nat := if tail ≤ head then head - tail else size - tail + head

/-- The `n` elements from the place `p` on. -/
def cells (buffer : Nat → α) (size p n : Nat) : List α := (List.range n).map fun k => buffer ((p + k) % size)

/-! ## Places -/

/-- Going around once. -/
theorem mod_eq {a size : Nat} (h : a < 2 * size) : a % size = if a < size then a else a - size := by
  split
  · rename_i ha
    exact Nat.mod_eq_of_lt ha
  · rename_i ha
    rw [Nat.mod_eq_sub_mod (by omega), Nat.mod_eq_of_lt (by omega)]

/-- A ring never holds as many as its size. -/
theorem count_lt {size tail head : Nat} (ht : tail < size) (hh : head < size) : count size tail head < size := by
  unfold count
  split <;> omega

/-- Behind the last one is the head. -/
theorem add_count {size tail head : Nat} (ht : tail < size) (hh : head < size) :
    (tail + count size tail head) % size = head := by
  rw [mod_eq (by have := count_lt ht hh; omega)]
  unfold count
  split <;> split <;> omega

@[simp] theorem count_self (size p : Nat) : count size p p = 0 := by
  simp [count]

theorem count_eq_zero {size tail head : Nat} (ht : tail < size) : count size tail head = 0 ↔ tail = head := by
  unfold count
  split <;> omega

/-- The head may move on unless all places but one are taken. -/
theorem next_eq_tail {size tail head : Nat} (ht : tail < size) (hh : head < size) :
    (head + 1) % size = tail ↔ count size tail head + 1 = size := by
  rw [mod_eq (by omega)]
  unfold count
  split <;> split <;> omega

/-- Moving the head on adds one. -/
theorem count_next {size tail head : Nat} (ht : tail < size) (hh : head < size) (hf : (head + 1) % size ≠ tail) :
    count size tail ((head + 1) % size) = count size tail head + 1 := by
  rw [mod_eq (by omega)] at hf ⊢
  unfold count
  split <;> split <;> (try split) <;> simp_all <;> omega

/-- Moving the tail on by places that are taken. -/
theorem count_drop {size tail head k : Nat} (ht : tail < size) (hh : head < size) (hk : k ≤ count size tail head) :
    count size ((tail + k) % size) head = count size tail head - k := by
  have hlt := count_lt ht hh
  rw [mod_eq (by omega)]
  unfold count at hk hlt ⊢
  split at hk <;> split <;> split <;> omega

/-! ## Elements -/

variable (buffer : Nat → α) (size : Nat)

/-- As many cells as asked for. -/
@[simp] theorem cells_length (p n : Nat) : (cells buffer size p n).length = n := by
  simp [cells]

@[simp] theorem cells_zero (p : Nat) : cells buffer size p 0 = [] := rfl

/-- Cells in two parts, one behind the other. -/
theorem cells_add (p n k : Nat) :
    cells buffer size p (n + k) = cells buffer size p n ++ cells buffer size ((p + n) % size) k := by
  simp only [cells, List.range_add, List.map_append, List.map_map]
  congr 1
  refine List.map_congr_left fun i _ => ?_
  simp only [Function.comp_apply, Nat.mod_add_mod, Nat.add_assoc]

/-- One cell. -/
theorem cells_one {p : Nat} (hp : p < size) : cells buffer size p 1 = [buffer p] := by
  simp [cells, Nat.mod_eq_of_lt hp]

variable {buffer size}

/-- Writing into the place after the elements leaves them as they are. -/
theorem cells_update {p n : Nat} (hp : p < size) (hn : n < size) (c : α) :
    cells (Function.update buffer ((p + n) % size) c) size p n = cells buffer size p n := by
  refine List.map_congr_left fun k hk => ?_
  have hk' : k < n := List.mem_range.mp hk
  refine Function.update_of_ne ?_ _ _
  rw [mod_eq (by omega), mod_eq (by omega)]
  split <;> split <;> omega

/-- Moving the tail on takes the elements between off the front. -/
theorem cells_count_split {tail head k : Nat} (ht : tail < size) (hh : head < size) (hk : k ≤ count size tail head) :
    cells buffer size tail (count size tail head) = cells buffer size tail k ++
      cells buffer size ((tail + k) % size) (count size ((tail + k) % size) head) := by
  rw [count_drop ht hh hk, ← cells_add, Nat.add_sub_cancel' hk]

end Ring

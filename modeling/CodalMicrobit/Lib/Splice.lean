import Mathlib.Data.List.Basic
import Mathlib.Tactic.Common

/-!
# Writing over a list

A list in which the elements from some place on are replaced by others. The new ones may go on behind the end.
-/

namespace List

variable {α : Type*} {old a b c new : List α} {p : Nat}

/-- The elements of `old` with `new` written over them from place `p` on. -/
def splice (old : List α) (p : Nat) (new : List α) : List α := old.take p ++ new ++ old.drop (p + new.length)

theorem splice_nil (old : List α) (p : Nat) : old.splice p [] = old := by
  rw [splice, append_nil, length_nil, Nat.add_zero, take_append_drop]

/-- What is written inside the middle of three lists. -/
theorem splice_middle (h : p + new.length ≤ b.length) :
    (a ++ b ++ c).splice (a.length + p) new = a ++ b.splice p new ++ c := by
  unfold splice
  rw [append_assoc a b c, take_length_add_append, take_append_of_le_length (by omega), Nat.add_assoc,
    drop_length_add_append, drop_append_of_le_length h]
  simp only [append_assoc]

/-- What is written up to the end or beyond it. -/
theorem splice_of_le (h : old.length ≤ p + new.length) : old.splice p new = old.take p ++ new := by
  rw [splice, drop_eq_nil_of_le h, append_nil]

/-- What was written, with what is in front of it. -/
theorem take_splice {n : Nat} (hp : p ≤ old.length) (hn : new.length = n) :
    (old.splice p new).take (p + n) = old.take p ++ new := by
  refine take_left' ?_
  rw [length_append, length_take, Nat.min_eq_left hp, hn]

/-- What is behind it is as it was. -/
theorem drop_splice {n : Nat} (hp : p ≤ old.length) (hn : new.length = n) :
    (old.splice p new).drop (p + n) = old.drop (p + n) := by
  rw [splice, hn]
  refine drop_left' ?_
  rw [length_append, length_take, Nat.min_eq_left hp, hn]

/-- One text written behind the other is both written as one. -/
theorem splice_splice (hp : p ≤ old.length) : (old.splice p a).splice (p + a.length) b = old.splice p (a ++ b) := by
  have hback : (old.splice p a).drop (p + a.length + b.length) = old.drop (p + (a ++ b).length) := by
    rw [← drop_drop, drop_splice hp rfl, drop_drop, length_append, Nat.add_assoc]
  rw [splice, take_splice hp rfl, hback, append_assoc (old.take p), splice]

/-- Only the front of a list is looked at. -/
theorem splice_take {n : Nat} (hp : p ≤ n) (hn : n ≤ old.length) :
    (old.take n).splice p new = (old.splice p new).take (max n (p + new.length)) := by
  have hfront : (old.take p ++ new).length = p + new.length := by
    rw [length_append, length_take]
    omega
  have hwhole : (old.take p ++ new).take (max n (p + new.length)) = old.take p ++ new := take_of_length_le (by omega)
  rw [splice, splice, take_take, Nat.min_eq_left hp, take_append, hwhole, hfront, drop_take]
  congr 2
  omega

end List

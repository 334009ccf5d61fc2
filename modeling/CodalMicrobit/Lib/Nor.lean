import Mathlib.Data.List.GetD
import Mathlib.Data.List.Range
import Mathlib.Tactic.Common
import Mathlib.Algebra.Group.Int.Defs
import Mathlib.Algebra.GroupWithZero.Nat

/-!
# NOR flash memory

A memory gives the byte at every address. Programming a NOR flash clears bits and never sets one, so it leaves the
bitwise and of what was there and what is written; erasing sets every bit. A run of the device is a list of such
operations, and the memories a power cut can leave are those its prefixes replay to.
-/

namespace Nor

/-- A memory: the byte held at every address. -/
abbrev Memory := Nat → UInt8

/-- The value of an erased byte. -/
def blank : UInt8 := 0xFF

/-! ## Bytes -/

/-- Writing `new` over `old` needs no bit to be set: programming leaves exactly `new`. -/
def Legal (old new : UInt8) : Prop := old &&& new = new

instance (old new : UInt8) : Decidable (Legal old new) := inferInstanceAs (Decidable (_ = _))

/-- The test by exclusive or, as flash drivers write it: no bit that changes is set in the new byte. -/
theorem legal_iff_xor (old new : UInt8) : Legal old new ↔ (old ^^^ new) &&& new = 0 := by
  unfold Legal
  rw [← UInt8.toBitVec_inj, ← UInt8.toBitVec_inj]
  simp only [UInt8.toBitVec_and, UInt8.toBitVec_xor, UInt8.toBitVec_ofNat]
  constructor
  · intro h
    ext i hi
    have hb := congrArg (fun v : BitVec 8 => v[i]) h
    simp only [BitVec.getElem_and, BitVec.getElem_xor] at hb ⊢
    cases hx : old.toBitVec[i] <;> cases hy : new.toBitVec[i] <;> simp_all
  · intro h
    ext i hi
    have hb := congrArg (fun v : BitVec 8 => v[i]) h
    simp only [BitVec.getElem_and, BitVec.getElem_xor] at hb ⊢
    cases hx : old.toBitVec[i] <;> cases hy : new.toBitVec[i] <;> simp_all

/-- Anything can be written over an erased byte. -/
@[simp] theorem blank_and (b : UInt8) : blank &&& b = b := by
  rw [← UInt8.toBitVec_inj, UInt8.toBitVec_and]
  exact BitVec.allOnes_and

/-- Every byte can be programmed over a blank one. -/
theorem legal_blank (b : UInt8) : Legal blank b := blank_and b

/-! ## Stretches of memory -/

/-- The `n` bytes of `m` from address `a` on. -/
def slice (m : Memory) (a n : Nat) : List UInt8 := (List.range n).map fun k => m (a + k)

/-- `m` with the text `t` laid over it from address `a` on. -/
def put (m : Memory) (a : Nat) (t : List UInt8) : Memory := fun x =>
  if a ≤ x then t.getD (x - a) (m x) else m x

/-- Every byte from `a` up to but not including `b` is erased. -/
def Blank (m : Memory) (a b : Nat) : Prop := ∀ x, a ≤ x → x < b → m x = blank

instance (m : Memory) (a b : Nat) : Decidable (Blank m a b) :=
  decidable_of_iff (∀ x, x < b → a ≤ x → m x = blank) ⟨fun h x h1 h2 => h x h2 h1, fun h x h2 h1 => h x h1 h2⟩

/-- A slice has the length asked for, whatever the memory holds. -/
@[simp] theorem slice_length (m : Memory) (a n : Nat) : (slice m a n).length = n := by
  simp [slice]

@[simp] theorem slice_zero (m : Memory) (a : Nat) : slice m a 0 = [] := rfl

/-- Byte `k` of a slice is the byte `k` places behind its start. -/
theorem slice_getElem (m : Memory) (a n k : Nat) (h : k < (slice m a n).length) : (slice m a n)[k] = m (a + k) := by
  simp [slice]

/-- A slice is cut in two at any point. -/
theorem slice_add (m : Memory) (a n k : Nat) : slice m a (n + k) = slice m a n ++ slice m (a + n) k := by
  simp only [slice, List.range_add, List.map_append, List.map_map]
  congr 1
  refine List.map_congr_left fun i _ => ?_
  simp only [Function.comp_apply]
  congr 1
  omega

/-- Memories that agree on a range have the same slice of it. -/
theorem slice_congr {m m' : Memory} {a n : Nat} (h : ∀ x, a ≤ x → x < a + n → m x = m' x) :
    slice m a n = slice m' a n := by
  refine List.map_congr_left fun k hk => ?_
  rw [List.mem_range] at hk
  exact h (a + k) (by omega) (by omega)

/-- A slice is a given text exactly when every byte of the text is in its place. -/
theorem slice_eq_iff (m : Memory) (a n : Nat) (t : List UInt8) :
    slice m a n = t ↔ t.length = n ∧ ∀ k (h : k < t.length), m (a + k) = t[k] := by
  constructor
  · rintro rfl
    refine ⟨slice_length m a n, fun k h => ?_⟩
    rw [slice_getElem]
  · rintro ⟨rfl, h⟩
    refine List.ext_getElem (slice_length _ _ _) fun k hk hk' => ?_
    rw [slice_getElem, h k hk']

/-- Storing a text leaves the bytes before it alone. -/
theorem put_of_lt (m : Memory) {a x : Nat} (t : List UInt8) (h : x < a) : put m a t x = m x := by
  simp [put, Nat.not_le.mpr h]

/-- Storing a text leaves the bytes behind it alone. -/
theorem put_of_le (m : Memory) {a x : Nat} (t : List UInt8) (h : a + t.length ≤ x) : put m a t x = m x := by
  unfold put
  split
  · exact List.getD_eq_default _ _ (by omega)
  · rfl

/-- Outside the text, `put` changes nothing. -/
theorem put_of_not_mem (m : Memory) {a x : Nat} (t : List UInt8) (h : ¬(a ≤ x ∧ x < a + t.length)) :
    put m a t x = m x := by
  rcases Nat.lt_or_ge x a with hx | hx
  · exact put_of_lt m t hx
  · exact put_of_le m t (by omega)

/-- Byte `k` of the stored text is found `k` places behind its start. -/
theorem put_add (m : Memory) (a k : Nat) (t : List UInt8) (h : k < t.length) : put m a t (a + k) = t[k] := by
  simp [put, h]

/-- An address inside the stored text holds the byte of the text that falls on it. -/
theorem put_of_mem (m : Memory) {a x : Nat} (t : List UInt8) (h : a ≤ x) (h' : x - a < t.length) :
    put m a t x = t[x - a] := by
  simp [put, h, h']

@[simp] theorem put_nil (m : Memory) (a : Nat) : put m a [] = m := by
  funext x
  simp [put]

theorem put_append (m : Memory) (a : Nat) (t u : List UInt8) :
    put m a (t ++ u) = put (put m a t) (a + t.length) u := by
  funext x
  by_cases h : x < a + t.length
  · rw [put_of_lt _ u h]
    by_cases ha : a ≤ x
    · rw [put_of_mem m (t ++ u) ha (by simp; omega), put_of_mem m t ha (by omega)]
      exact List.getElem_append_left (by omega)
    · rw [put_of_lt _ _ (by omega), put_of_lt _ _ (by omega)]
  · by_cases hu : x < a + t.length + u.length
    · rw [put_of_mem m (t ++ u) (by omega) (by simp; omega), put_of_mem _ u (by omega) (by omega)]
      rw [List.getElem_append_right (by omega)]
      congr 1
      omega
    · rw [put_of_le m (t ++ u) (by simp; omega), put_of_le _ u (by omega), put_of_le _ t (by omega)]

/-- Putting a text into a copy of a stretch of memory is putting it into the memory. -/
theorem put_shift {m p : Memory} {base off y : Nat} (t : List UInt8) (h : p y = m (base + y)) :
    put p off t y = put m (base + off) t (base + y) := by
  unfold put
  rw [h, show base + y - (base + off) = y - off by omega]
  by_cases hy : off ≤ y
  · rw [if_pos hy, if_pos (by omega)]
  · rw [if_neg hy, if_neg (by omega)]

/-- What was stored is read back. -/
theorem slice_put (m : Memory) (a : Nat) (t : List UInt8) : slice (put m a t) a t.length = t :=
  (slice_eq_iff _ _ _ _).mpr ⟨rfl, fun k h => put_add m a k t h⟩

/-- A text put at the start of a slice. -/
theorem slice_put_start (m : Memory) {a n : Nat} {t : List UInt8} (h : t.length ≤ n) :
    slice (put m a t) a n = t ++ (slice m a n).drop t.length := by
  obtain ⟨k, rfl⟩ := Nat.exists_eq_add_of_le h
  have hrest : slice (put m a t) (a + t.length) k = slice m (a + t.length) k :=
    slice_congr fun x hx _ => put_of_le m t hx
  rw [slice_add, slice_put, hrest, slice_add, List.drop_left' (slice_length m a t.length)]

/-- A part of a blank range is blank. -/
theorem Blank.mono {m : Memory} {a b a' b' : Nat} (h : Blank m a b) (ha : a ≤ a') (hb : b' ≤ b) : Blank m a' b' :=
  fun x h1 h2 => h x (by omega) (by omega)

/-- Blankness depends only on the bytes of the range. -/
theorem Blank.congr {m m' : Memory} {a b : Nat} (h : Blank m a b) (he : ∀ x, a ≤ x → x < b → m' x = m x) :
    Blank m' a b :=
  fun x h1 h2 => (he x h1 h2).trans (h x h1 h2)

/-! ## Operations of the device -/

/-- The memory after the `width` bytes from `a` on are programmed with the bytes `src` gives. -/
def program (m : Memory) (a width : Nat) (src : Nat → UInt8) : Memory := fun x =>
  if a ≤ x ∧ x < a + width then m x &&& src (x - a) else m x

/-- The memory after the `width` bytes from `a` on are erased. -/
def erase (m : Memory) (a width : Nat) : Memory := fun x =>
  if a ≤ x ∧ x < a + width then blank else m x

/-- Programming a range in two parts. -/
theorem program_add (m : Memory) (a w v : Nat) (src : Nat → UInt8) :
    program (program m a w src) (a + w) v (fun k => src (w + k)) = program m a (w + v) src := by
  funext x
  simp only [program]
  by_cases h1 : a ≤ x ∧ x < a + w
  · rw [if_neg (by omega), if_pos h1, if_pos (by omega)]
  · by_cases h2 : a + w ≤ x ∧ x < a + w + v
    · rw [if_pos h2, if_neg h1, if_pos (by omega), show w + (x - (a + w)) = x - a by omega]
    · rw [if_neg h2, if_neg h1, if_neg (by omega)]

/-- Only the first `w` bytes of the source are programmed. -/
theorem program_congr {m : Memory} {a w : Nat} {src src' : Nat → UInt8} (h : ∀ k < w, src k = src' k) :
    program m a w src = program m a w src' := by
  funext x
  simp only [program]
  split
  · rw [h _ (by omega)]
  · rfl

theorem program_zero (m : Memory) (a : Nat) (src : Nat → UInt8) : program m a 0 src = m :=
  funext fun _ => if_neg (by omega)

/-- The memory byte by byte once `w` bytes at the start of an erased range and `v` bytes at `stop` are written back. -/
theorem restored_at (m : Memory) {start width w stop v : Nat} (hw : start + w ≤ stop) (hv : stop + v ≤ start + width)
    (x : Nat) :
    program (program (erase m start width) start w (fun k => m (start + k))) stop v (fun k => m (stop + k)) x =
      if start + w ≤ x ∧ x < start + width ∧ ¬(stop ≤ x ∧ x < stop + v) then blank else m x := by
  simp only [program, erase]
  by_cases h1 : stop ≤ x ∧ x < stop + v
  · rw [if_pos h1, if_neg (by omega), if_pos (by omega), if_neg (by omega), blank_and, Nat.add_sub_cancel' h1.1]
  · rw [if_neg h1]
    by_cases h2 : start ≤ x ∧ x < start + w
    · rw [if_pos h2, if_pos (by omega), if_neg (by omega), blank_and, Nat.add_sub_cancel' h2.1]
    · rw [if_neg h2]
      by_cases h3 : start ≤ x ∧ x < start + width
      · rw [if_pos h3, if_pos (by omega)]
      · rw [if_neg h3, if_neg (by omega)]

/-- An operation of the device that nothing interrupts. -/
inductive Op where
  | program (a width : Nat) (src : Nat → UInt8)
  | erase (a width : Nat)

/-- What an operation does to the memory. -/
def Op.apply : Op → Memory → Memory
  | .program a width src, m => Nor.program m a width src
  | .erase a width, m => Nor.erase m a width

/-- The operation can change the byte at `x`. -/
def Op.Covers : Op → Nat → Prop
  | .program a width _, x => a ≤ x ∧ x < a + width
  | .erase a width, x => a ≤ x ∧ x < a + width

instance (o : Op) (x : Nat) : Decidable (o.Covers x) :=
  match o with
  | .program _ _ _ | .erase _ _ => inferInstanceAs (Decidable (_ ∧ _))

/-- The memory a run of operations leaves. -/
def replay (m : Memory) (ops : List Op) : Memory := ops.foldl (fun m o => o.apply m) m

@[simp] theorem replay_nil (m : Memory) : replay m [] = m := rfl

@[simp] theorem replay_cons (m : Memory) (o : Op) (ops : List Op) : replay m (o :: ops) = replay (o.apply m) ops := rfl

theorem replay_append (m : Memory) (ops ops' : List Op) : replay m (ops ++ ops') = replay (replay m ops) ops' := by
  simp [replay, List.foldl_append]

/-- An operation changes only what it covers. -/
theorem Op.apply_of_not_covers {o : Op} {x : Nat} (m : Memory) (h : ¬o.Covers x) : o.apply m x = m x := by
  cases o with
  | program a width src => exact if_neg h
  | erase a width => exact if_neg h

/-- A byte that no operation of a run covers is unchanged. -/
theorem replay_of_not_covers {ops : List Op} {x : Nat} (m : Memory) (h : ∀ o ∈ ops, ¬o.Covers x) :
    replay m ops x = m x := by
  induction ops generalizing m with
  | nil => rfl
  | cons o ops ih =>
    rw [replay_cons, ih _ fun o' ho' => h o' (List.mem_cons_of_mem _ ho')]
    exact Op.apply_of_not_covers m (h o List.mem_cons_self)

/-- Writing legal bytes over the memory leaves exactly them. -/
theorem program_eq_put {m : Memory} {a : Nat} {t : List UInt8} {src : Nat → UInt8}
    (hsrc : ∀ k (h : k < t.length), src k = t[k]) (hl : ∀ k (h : k < t.length), Legal (m (a + k)) t[k]) :
    program m a t.length src = put m a t := by
  funext x
  unfold program
  split
  · rename_i h
    have hk : x - a < t.length := by omega
    have hleg := hl (x - a) hk
    rw [show a + (x - a) = x by omega] at hleg
    rw [put_of_mem m t h.1 hk, hsrc _ hk]
    exact hleg
  · rename_i h
    exact (put_of_not_mem m t h).symm

/-- Writing a copy of the memory in which the text `t` has been put, from `s` on: only the text is changed, as far as
the write reaches. The bytes around the text are written over themselves. -/
theorem program_copy {m : Memory} {a s width : Nat} {t : List UInt8} {src : Nat → UInt8} (hs : s ≤ a)
    (hsrc : ∀ k, k < width → src k = put m a t (s + k)) (hl : ∀ k (h : k < t.length), Legal (m (a + k)) t[k]) :
    program m s width src = put m a (t.take (s + width - a)) := by
  funext x
  by_cases hin : s ≤ x ∧ x < s + width
  · have hx : program m s width src x = m x &&& put m a t x := by
      unfold program
      rw [if_pos hin, hsrc _ (by omega), show s + (x - s) = x by omega]
    rw [hx]
    by_cases ht : a ≤ x ∧ x < a + t.length
    · have hleg := hl (x - a) (by omega)
      rw [show a + (x - a) = x by omega] at hleg
      rw [put_of_mem m t ht.1 (by omega), put_of_mem m _ ht.1 (by rw [List.length_take]; omega), List.getElem_take]
      exact hleg
    · rw [put_of_not_mem m t ht, put_of_not_mem m _ (by rw [List.length_take]; omega)]
      exact UInt8.and_self
  · have hx : program m s width src x = m x := if_neg hin
    rw [hx, put_of_not_mem m _ (by rw [List.length_take]; omega)]

/-! ## Where a run writes -/

/-- The run changes nothing outside the addresses from `lo` up to but not including `hi`. -/
def Within (lo hi : Nat) (ops : List Op) : Prop := ∀ o ∈ ops, ∀ x, o.Covers x → lo ≤ x ∧ x < hi

theorem Within.nil (lo hi : Nat) : Within lo hi [] := by
  simp [Within]

theorem Within.append {lo hi : Nat} {ops ops' : List Op} (h : Within lo hi ops) (h' : Within lo hi ops') :
    Within lo hi (ops ++ ops') := by
  intro o ho
  rcases List.mem_append.mp ho with ho | ho
  · exact h o ho
  · exact h' o ho

/-- A run within a range is within every larger one. -/
theorem Within.mono {lo hi lo' hi' : Nat} {ops : List Op} (h : Within lo hi ops) (hl : lo' ≤ lo) (hh : hi ≤ hi') :
    Within lo' hi' ops := by
  intro o ho x hx
  have := h o ho x hx
  omega

/-- Cut short anywhere, a run stays within its range. -/
theorem Within.take {lo hi : Nat} {ops : List Op} (h : Within lo hi ops) (n : Nat) : Within lo hi (ops.take n) :=
  fun o ho => h o (List.mem_of_mem_take ho)

/-- An erase stays within the page it erases. -/
theorem Within.erase (a width : Nat) : Within a (a + width) [.erase a width] := by
  intro o ho x hx
  rw [List.mem_singleton.mp ho] at hx
  exact hx

/-- Outside its addresses a run leaves the memory as it was. -/
theorem Within.replay_eq {lo hi : Nat} {ops : List Op} (h : Within lo hi ops) (m : Memory) {x : Nat}
    (hx : x < lo ∨ hi ≤ x) : replay m ops x = m x := by
  refine replay_of_not_covers m fun o ho hc => ?_
  have := h o ho x hc
  omega

/-- Operations elsewhere leave a blank range blank. -/
theorem Within.blank {lo hi a b : Nat} {ops : List Op} {m : Memory} (h : Within lo hi ops) (hb : Blank m a b)
    (hd : b ≤ lo ∨ hi ≤ a) : Blank (replay m ops) a b :=
  hb.congr fun x h1 h2 => h.replay_eq m (by omega)

/-- Operations elsewhere leave a slice as it is. -/
theorem Within.slice {lo hi a n : Nat} {ops : List Op} (h : Within lo hi ops) (m : Memory)
    (hd : a + n ≤ lo ∨ hi ≤ a) : slice (replay m ops) a n = slice m a n :=
  slice_congr fun x h1 h2 => h.replay_eq m (by omega)

/-! ## Writing word by word -/

/-- The operations of a write of `n` words of `w` bytes each. -/
def programWords (w a n : Nat) (src : Nat → UInt8) : List Op :=
  (List.range n).map fun i => .program (a + w * i) w fun k => src (w * i + k)

/-- One operation for each word. -/
@[simp] theorem programWords_length (w a n : Nat) (src : Nat → UInt8) : (programWords w a n src).length = n := by
  simp [programWords]

theorem programWords_succ (w a n : Nat) (src : Nat → UInt8) :
    programWords w a (n + 1) src = programWords w a n src ++ [.program (a + w * n) w fun k => src (w * n + k)] := by
  simp [programWords, List.range_succ]

/-- The first `k` operations program the first `k` words. -/
theorem programWords_take (w a n k : Nat) (src : Nat → UInt8) :
    (programWords w a n src).take k = programWords w a (min k n) src := by
  simp [programWords, ← List.map_take, List.take_range]

/-- Writing word by word is one write of all the bytes. -/
theorem replay_programWords (m : Memory) (w a n : Nat) (src : Nat → UInt8) :
    replay m (programWords w a n src) = program m a (w * n) src := by
  induction n with
  | zero =>
    funext x
    simp [programWords, program]
  | succ n ih =>
    rw [programWords_succ, replay_append, ih, replay_cons, replay_nil]
    funext x
    simp only [Op.apply, program, Nat.mul_succ]
    by_cases h1 : a ≤ x ∧ x < a + w * n
    · rw [if_neg (by omega), if_pos h1, if_pos (by omega)]
    · by_cases h2 : a + w * n ≤ x ∧ x < a + w * n + w
      · rw [if_pos h2, if_neg h1, if_pos (by omega)]
        congr 2
        omega
      · rw [if_neg h2, if_neg h1, if_neg (by omega)]

/-- Programming `n` words touches only the `w * n` bytes they fill. -/
theorem covers_of_mem_programWords {w a n : Nat} {src : Nat → UInt8} {o : Op} {x : Nat}
    (ho : o ∈ programWords w a n src) (hx : o.Covers x) : a ≤ x ∧ x < a + w * n := by
  simp only [programWords, List.mem_map, List.mem_range] at ho
  obtain ⟨i, hi, rfl⟩ := ho
  obtain ⟨h1, h2⟩ : a + w * i ≤ x ∧ x < a + w * i + w := hx
  have hm : w * i + w ≤ w * n := by
    rw [← Nat.mul_succ]
    exact Nat.mul_le_mul_left w hi
  omega

/-! ## Power cuts -/

/-- `P` holds of every memory a power cut during the run `ops` can leave, the run's own end included. -/
def Throughout (P : Memory → Prop) (m : Memory) (ops : List Op) : Prop := ∀ n, P (replay m (ops.take n))

theorem Throughout.nil {P : Memory → Prop} {m : Memory} (h : P m) : Throughout P m [] := by
  intro n
  simpa using h

/-- What holds throughout a run holds before it. -/
theorem Throughout.start {P : Memory → Prop} {m : Memory} {ops : List Op} (h : Throughout P m ops) : P m := by
  simpa using h 0

/-- What holds throughout a run holds after it. -/
theorem Throughout.finish {P : Memory → Prop} {m : Memory} {ops : List Op} (h : Throughout P m ops) :
    P (replay m ops) := by
  simpa using h ops.length

theorem Throughout.append {P : Memory → Prop} {m : Memory} {ops ops' : List Op} (h : Throughout P m ops)
    (h' : Throughout P (replay m ops) ops') : Throughout P m (ops ++ ops') := by
  intro n
  rw [List.take_append, replay_append]
  rcases Nat.le_total n ops.length with hn | hn
  · rw [Nat.sub_eq_zero_of_le hn, List.take_zero, replay_nil]
    exact h n
  · rw [List.take_of_length_le hn]
    exact h' _

/-- A weaker property holds throughout too. -/
theorem Throughout.imp {P Q : Memory → Prop} {m : Memory} {ops : List Op} (h : Throughout P m ops)
    (hpq : ∀ m, P m → Q m) : Throughout Q m ops :=
  fun n => hpq _ (h n)

end Nor

import CodalMicrobit.Lib.Nor

/-!
# The storage behind the interface chip

The log keeps its data in the flash of the USB interface chip. `MicroBitUSBFlashManager` presents that flash as pages
of `blockSize` bytes that are read and written in words of 32 bits and erased page by page. Here is what its callers
see of it: the geometry, the three operations, and the record of the word writes and page erases they issued.
-/

namespace CodalMicrobit

open Nor

/-- `MicroBitUSBFlashGeometry`: a 16-bit block size and an 8-bit block count. -/
structure Geometry where
  blockSize : Nat
  blockCount : Nat
  blockSize_lt : blockSize < 2 ^ 16
  blockCount_lt : blockCount < 2 ^ 8

/-- The logical address of the start of the storage. -/
def Geometry.getFlashStart (_ : Geometry) : Nat := 0

/-- The first address past the storage. -/
def Geometry.getFlashEnd (g : Geometry) : Nat := g.blockSize * g.blockCount

/-- The size of the unit that is erased at once. -/
def Geometry.getPageSize (g : Geometry) : Nat := g.blockSize

/-- Every address of the storage fits in 24 bits, so 32-bit address arithmetic inside it does not wrap. -/
theorem Geometry.getFlashEnd_lt (g : Geometry) : g.getFlashEnd < 2 ^ 24 := by
  have h1 := g.blockSize_lt
  have h2 := g.blockCount_lt
  unfold Geometry.getFlashEnd
  calc g.blockSize * g.blockCount ≤ g.blockSize * 2 ^ 8 := Nat.mul_le_mul_left _ (Nat.le_of_lt h2)
    _ < 2 ^ 16 * 2 ^ 8 := Nat.mul_lt_mul_of_pos_right h1 (by decide)

/-- A 32-bit unsigned result. -/
def u32 (n : Nat) : Nat := if n < 2 ^ 32 then n else n % 2 ^ 32

/-- A number of 32 bits stays itself. -/
theorem u32_of_lt {n : Nat} (h : n < 2 ^ 32) : u32 n = n := if_pos h

/-- 32 bits hold a number below `2 ^ 32`. -/
theorem u32_lt (n : Nat) : u32 n < 2 ^ 32 := by
  unfold u32
  split
  · assumption
  · exact Nat.mod_lt n (by decide)

/-- 32-bit unsigned subtraction. -/
def u32sub (a b : Nat) : Nat := if b ≤ a then a - b else a + 2 ^ 32 - b

/-- Subtraction does not wrap when the result is not negative. -/
theorem u32sub_of_le {a b : Nat} (h : b ≤ a) : u32sub a b = a - b := if_pos h

/-- The flash: its contents, and the operations it has performed, oldest first. The record is not part of the device;
it is what statements about power cuts and about who wrote where are made of. -/
structure Flash (g : Geometry) where
  mem : Memory
  trace : List Op := []

namespace Flash

variable {g : Geometry}

/-- `MicroBitUSBFlashManager::read` of `length` words into the buffer `dest`. A read that leaves the storage fails, and
leaves the buffer as it was. -/
def read (f : Flash g) (dest : Nat → UInt8) (address length : Nat) : Nat → UInt8 :=
  if address + 4 * length ≤ g.getFlashEnd then
    fun k => if k < 4 * length then f.mem (address + k) else dest k
  else dest

/-- `MicroBitUSBFlashManager::write` of `length` words. -/
def write (f : Flash g) (address : Nat) (data : Nat → UInt8) (length : Nat) : Flash g :=
  if address + 4 * length ≤ g.getFlashEnd then
    { mem := program f.mem address (4 * length) data
      trace := f.trace ++ programWords 4 address length data }
  else f

/-- `MicroBitUSBFlashManager::erase` of the page at the given address. -/
def erase (f : Flash g) (page : Nat) : Flash g :=
  if page + g.getPageSize ≤ g.getFlashEnd then
    { mem := Nor.erase f.mem page g.getPageSize
      trace := f.trace ++ [.erase page g.getPageSize] }
  else f

/-- `f'` is `f` after the operations `ops`. -/
def After (f : Flash g) (ops : List Op) (f' : Flash g) : Prop :=
  f'.mem = replay f.mem ops ∧ f'.trace = f.trace ++ ops

theorem After.refl (f : Flash g) : f.After [] f := ⟨rfl, (List.append_nil _).symm⟩

theorem After.trans {f f' f'' : Flash g} {ops ops' : List Op} (h : f.After ops f') (h' : f'.After ops' f'') :
    f.After (ops ++ ops') f'' := by
  refine ⟨?_, ?_⟩
  · rw [h'.1, h.1, replay_append]
  · rw [h'.2, h.2, List.append_assoc]

/-- Operations, one after the other, where it does not matter which. -/
theorem After.exists_trans {f f' f'' : Flash g} (h : ∃ ops, f.After ops f') (h' : ∃ ops, f'.After ops f'') :
    ∃ ops, f.After ops f'' := by
  obtain ⟨ops, h⟩ := h
  obtain ⟨ops', h'⟩ := h'
  exact ⟨_, h.trans h'⟩

/-- The record says which operations there were. -/
theorem After.unique {f f' : Flash g} {ops ops' : List Op} (h : f.After ops f') (h' : f.After ops' f') : ops = ops' :=
  List.append_cancel_left (h.2.symm.trans h'.2)

/-- The operations are what was added to the trace. -/
theorem After.drop {f f' : Flash g} {ops : List Op} (h : f.After ops f') : f'.trace.drop f.trace.length = ops := by
  rw [h.2, List.drop_left]

/-- A write inside the flash, as words programmed one after the other. -/
theorem write_eq (f : Flash g) {address length : Nat} (data : Nat → UInt8)
    (h : address + 4 * length ≤ g.getFlashEnd) :
    f.write address data length =
      ⟨program f.mem address (4 * length) data, f.trace ++ programWords 4 address length data⟩ :=
  if_pos h

/-- An erase inside the flash. -/
theorem erase_eq (f : Flash g) {page : Nat} (h : page + g.getPageSize ≤ g.getFlashEnd) :
    f.erase page = ⟨Nor.erase f.mem page g.getPageSize, f.trace ++ [.erase page g.getPageSize]⟩ :=
  if_pos h

/-- A write programs its words. -/
theorem after_write (f : Flash g) {address length : Nat} (data : Nat → UInt8)
    (h : address + 4 * length ≤ g.getFlashEnd) :
    f.After (programWords 4 address length data) (f.write address data length) := by
  rw [write_eq f data h]
  exact ⟨(replay_programWords _ _ _ _ _).symm, rfl⟩

/-- An erase erases its page. -/
theorem after_erase (f : Flash g) {page : Nat} (h : page + g.getPageSize ≤ g.getFlashEnd) :
    f.After [.erase page g.getPageSize] (f.erase page) := by
  rw [erase_eq f h]
  exact ⟨rfl, rfl⟩

/-- A write is performed word by word, or refused. -/
theorem write_after (f : Flash g) (address : Nat) (data : Nat → UInt8) (length : Nat) :
    ∃ ops, f.After ops (f.write address data length) := by
  by_cases h : address + 4 * length ≤ g.getFlashEnd
  · exact ⟨_, after_write f data h⟩
  · exact ⟨[], by rw [show f.write address data length = f from if_neg h]; exact After.refl f⟩

/-- An erase is performed, or refused. -/
theorem erase_after (f : Flash g) (page : Nat) : ∃ ops, f.After ops (f.erase page) := by
  by_cases h : page + g.getPageSize ≤ g.getFlashEnd
  · exact ⟨_, after_erase f h⟩
  · exact ⟨[], by rw [show f.erase page = f from if_neg h]; exact After.refl f⟩

end Flash

end CodalMicrobit

import CodalMicrobit.Lemmas.Transactions

/-!
# The transactions of an erase

An erase reads what the first and the last block hold outside the region, erases the blocks, and writes back what it has
read. The script of the chip decides how far each of these gets; here is what the flash holds in the end.
-/

namespace CodalMicrobit

open Nor Attempts

namespace USBFlashManager

/-! ## The blocks a region meets -/

/-- The bytes before the region in its first block. -/
def front (g : Geometry) (address : Nat) : Nat := address % g.blockSize

/-- The bytes behind the region in its last block. -/
def back (g : Geometry) (stop : Nat) : Nat := (g.blockSize - stop % g.blockSize) % g.blockSize

/-- The number of the last block of a region that ends before `stop`. -/
def lastBlock (g : Geometry) (stop : Nat) : Nat := (stop - 1) / g.blockSize

/-- The blocks from the first one of the region up to and including the last one. -/
def blocks (g : Geometry) (address stop : Nat) : Nat := lastBlock g stop + 1 - address / g.blockSize

variable {g : Geometry} {address stop i j : Nat}

/-- Where the region lies: it starts in block `i`, it ends in block `j` or at its end, and the storage reaches that far. -/
structure Region (g : Geometry) (address stop i j : Nat) : Prop where
  start : i * g.blockSize + front g address = address
  start_lt : address < i * g.blockSize + g.blockSize
  le : i ≤ j + 1
  last : j * g.blockSize < stop
  stop : stop + back g stop = (j + 1) * g.blockSize
  inside : (j + 1) * g.blockSize ≤ g.getFlashEnd

/-- The block that holds the byte before `stop`, as `erase` finds it. -/
theorem last_block {b : Nat} (stop : Nat) (hb : 0 < b) (h0 : 0 < stop) :
    (stop / b * b - if stop % b = 0 then b else 0) = (stop - 1) / b * b ∧ (if stop % b = 0 then b else 0) ≤ stop / b * b ∧
      stop + (b - stop % b) % b = ((stop - 1) / b + 1) * b := by
  have hdiv := Nat.div_add_mod (stop - 1) b
  have hmod := Nat.mod_lt (stop - 1) hb
  rw [Nat.mul_comm] at hdiv
  by_cases hr : (stop - 1) % b + 1 = b
  · -- the region ends with the block
    have hstop : stop = ((stop - 1) / b + 1) * b := by
      rw [Nat.succ_mul]
      omega
    have hmod0 : stop % b = 0 := by
      rw [hstop]
      exact Nat.mul_mod_left _ _
    have hq : stop / b = (stop - 1) / b + 1 := by
      conv_lhs => rw [hstop]
      exact Nat.mul_div_cancel _ hb
    rw [hmod0, if_pos rfl, hq, Nat.sub_zero, Nat.mod_self, ← hstop]
    refine ⟨?_, ?_, Nat.add_zero stop⟩
    · rw [Nat.succ_mul] at hstop
      omega
    · exact Nat.le_of_dvd h0 (Nat.dvd_of_mod_eq_zero hmod0)
  · have hstop : stop = (stop - 1) % b + 1 + (stop - 1) / b * b := by omega
    have hlt : (stop - 1) % b + 1 < b := by omega
    have hmods : stop % b = (stop - 1) % b + 1 := by
      conv_lhs => rw [hstop]
      rw [Nat.add_mul_mod_self_right]
      exact Nat.mod_eq_of_lt hlt
    have hq : stop / b = (stop - 1) / b := by
      conv_lhs => rw [hstop]
      rw [Nat.add_mul_div_right _ _ hb, Nat.div_eq_of_lt hlt, Nat.zero_add]
    rw [hmods, if_neg (Nat.succ_ne_zero _), hq]
    refine ⟨Nat.sub_zero _, Nat.zero_le _, ?_⟩
    rw [Nat.mod_eq_of_lt (by omega), Nat.succ_mul]
    omega

/-- A request inside the flash has its first and last block. -/
theorem region_of_inside (h0 : 0 < stop) (hle : address ≤ stop) (hin : stop ≤ g.getFlashEnd) :
    0 < g.blockSize ∧ Region g address stop (address / g.blockSize) (lastBlock g stop) := by
  unfold Geometry.getFlashEnd at hin
  have hb : 0 < g.blockSize := Nat.pos_of_ne_zero fun hz => by
    rw [hz, Nat.zero_mul] at hin
    omega
  have hdiv := Nat.div_add_mod address g.blockSize
  have hmod := Nat.mod_lt address hb
  rw [Nat.mul_comm] at hdiv
  obtain ⟨-, -, hback⟩ := last_block _ hb h0
  refine ⟨hb, hdiv, ?_, ?_, ?_, hback, ?_⟩
  · omega
  · unfold lastBlock
    have : address / g.blockSize ≤ stop / g.blockSize := Nat.div_le_div_right hle
    have : stop / g.blockSize ≤ (stop - 1 + g.blockSize) / g.blockSize := Nat.div_le_div_right (by omega)
    rw [Nat.add_div_right _ hb] at this
    omega
  · have := Nat.div_mul_le_self (stop - 1) g.blockSize
    unfold lastBlock
    omega
  · have hlt : lastBlock g stop < g.blockCount := by
      unfold lastBlock
      rw [Nat.div_lt_iff_lt_mul hb, Nat.mul_comm]
      omega
    unfold Geometry.getFlashEnd
    rw [Nat.mul_comm g.blockSize]
    exact Nat.mul_le_mul_right _ hlt

/-! ## The phases -/

section Phases

variable (g : Geometry) (address stop : Nat) (o : Script)

/-- What is to come once the blocks are to be erased. -/
def erases : Script := after o (reads (front g address) + reads (back g stop))

/-- Every erase is answered. -/
def erased : Bool := answered (erases g address stop o) (blocks g address stop)

/-- The bytes of the front, and of the back, that are there to be written back. -/
def savedFront : Nat := if o 0 = .done then front g address else 0

def savedBack : Nat := if after o (reads (front g address)) 0 = .done then back g stop else 0

/-- What is to come once the front is to be written back. -/
def frontWrites : Script := after (erases g address stop o) (blocks g address stop)

/-- What is to come once the back is to be written back. -/
def backWrites : Script :=
  after (frontWrites g address stop o) (issued (frontWrites g address stop o) (chunks (savedFront g address o)))

end Phases

/-- A buffer that was read, or is empty. -/
theorem length_ite_slice (p : Prop) [Decidable p] (m : Memory) (a n : Nat) :
    (if p then slice m a n else []).length = if p then n else 0 := by
  split
  · exact slice_length m a n
  · rfl

/-- Programming such a buffer is programming what was read. -/
theorem program_saved {p : Prop} [Decidable p] {m m' : Memory} {a b n w : Nat} (hw : w ≤ if p then n else 0) :
    program m b w (fun k => (if p then slice m' a n else []).getD k 0) = program m b w (fun k => m' (a + k)) := by
  refine program_congr fun k hk => ?_
  by_cases hp : p
  · rw [if_pos hp] at hw ⊢
    rw [List.getD_eq_getElem _ _ (by rw [slice_length]; omega), slice_getElem]
  · rw [if_neg hp] at hw
    omega

variable {State : Type} {chip : InterfaceChip State} {mem : State → Memory} {script : State → Script}

/-- What is left of an erase once the buffers are read: the loop, and the writes if it succeeds. -/
def eraseSaved (chip : InterfaceChip State) (blockSize eraseStart eraseEnd stop : Nat)
    (restoreBuffer1 restoreBuffer2 : List UInt8) (s : State) : Option (ErrorCode × State) :=
  match eraseLoop chip blockSize eraseEnd s eraseStart addresses with
  | some (.DEVICE_OK, s) =>
    some (.DEVICE_OK, restore chip (restore chip s restoreBuffer1 eraseStart) restoreBuffer2 stop)
  | r => r

/-- An erase whose end, as it computes it, is inside the storage. -/
theorem erase_of_le (s : State) {length eraseEnd : Nat} (hstop : stop = u32 (address + u32 (length * 4)))
    (hle : stop ≤ g.getFlashEnd)
    (hend : eraseEnd = u32sub (stop / g.blockSize * g.blockSize) (if stop % g.blockSize = 0 then g.blockSize else 0)) :
    erase chip g s address length =
      if address / g.blockSize * g.blockSize ≠ address ∨
          u32 (length * 4) ≠ u32 (u32sub eraseEnd (address / g.blockSize * g.blockSize) + g.blockSize) then
        let (buffer1, s) := save chip s (address / g.blockSize * g.blockSize) (address - address / g.blockSize * g.blockSize)
        let (buffer2, s) := save chip s stop (back g stop)
        eraseSaved chip g.blockSize (address / g.blockSize * g.blockSize) eraseEnd stop buffer1 buffer2 s
      else eraseSaved chip g.blockSize (address / g.blockSize * g.blockSize) eraseEnd stop [] [] s := by
  have hwords : u32 (length * 4) % 4 = 0 := by
    unfold u32
    split <;> omega
  have hlim : ¬(stop > g.blockSize * g.blockCount ∨ u32 (length * 4) % 4 ≠ 0) := by
    unfold Geometry.getFlashEnd at hle
    omega
  by_cases hpart : address / g.blockSize * g.blockSize ≠ address ∨
      u32 (length * 4) ≠ u32 (u32sub eraseEnd (address / g.blockSize * g.blockSize) + g.blockSize)
  · simp only [erase, ← hstop, if_neg hlim, ← hend, if_pos hpart]
    rfl
  · simp only [erase, ← hstop, if_neg hlim, ← hend, if_neg hpart]
    rfl

/-- The erase in 32-bit arithmetic is the erase of the blocks from `i` to `j`, between the two reads and the two writes: on
the fast path there is nothing to read. -/
theorem erase_eq (s : State) {length : Nat} (h0 : 0 < address + length * 4) (hin : address + length * 4 ≤ g.getFlashEnd) :
    erase chip g s address length =
      (let (buffer1, s) := save chip s (address / g.blockSize * g.blockSize) (front g address)
      let (buffer2, s) := save chip s (address + length * 4) (back g (address + length * 4))
      eraseSaved chip g.blockSize (address / g.blockSize * g.blockSize) (lastBlock g (address + length * 4) * g.blockSize)
        (address + length * 4) buffer1 buffer2 s) := by
  have hlt := g.getFlashEnd_lt
  obtain ⟨hb, hr⟩ := region_of_inside h0 (Nat.le_add_right address (length * 4)) hin
  obtain ⟨hend, hle, -⟩ := last_block (address + length * 4) hb h0
  have hu1 : u32 (length * 4) = length * 4 := u32_of_lt (by omega)
  have hu2 : u32 (address + length * 4) = address + length * 4 := u32_of_lt (by omega)
  have heraseEnd : lastBlock g (address + length * 4) * g.blockSize =
      u32sub ((address + length * 4) / g.blockSize * g.blockSize)
        (if (address + length * 4) % g.blockSize = 0 then g.blockSize else 0) := by
    rw [u32sub_of_le hle]
    exact hend.symm
  have hfront : address - address / g.blockSize * g.blockSize = front g address := by
    have := hr.start
    omega
  rw [erase_of_le s (by rw [hu1, hu2]) hin heraseEnd, hfront, hu1]
  split
  · rfl
  · rename_i hpart
    -- on the fast path the region is made of whole blocks
    have hstart := hr.start
    have hstop := hr.stop
    have hzero : front g address = 0 ∧ back g (address + length * 4) = 0 := by
      rw [not_or, not_not, not_not] at hpart
      obtain ⟨h1, h2⟩ := hpart
      refine ⟨by omega, ?_⟩
      have hsub := hr.le
      have hb16 := g.blockSize_lt
      have hinside := hr.inside
      rw [Nat.succ_mul] at hstop hinside
      by_cases hij : address / g.blockSize * g.blockSize ≤ lastBlock g (address + length * 4) * g.blockSize
      · rw [u32sub_of_le hij, u32_of_lt (by omega)] at h2
        omega
      · have : address / g.blockSize = lastBlock g (address + length * 4) + 1 := by
          by_contra hne
          exact hij (Nat.mul_le_mul_right _ (by omega))
        rw [this, Nat.succ_mul] at hstart
        omega
    rw [hzero.1, hzero.2]
    rfl

/-- What an erase does, and what the flash holds after it. -/
theorem erase_spec (hf : Follows chip g mem script) (h4 : 4 ∣ g.blockSize) (s : State) {length : Nat}
    (ha : 4 ∣ address) (hs : stop = address + length * 4) (h0 : 0 < stop) (hin : stop ≤ g.getFlashEnd) :
    ∃ s', erase chip g s address length = some (result (erased g address stop (script s)), s') ∧
      mem s' =
        if erased g address stop (script s) then
          program (program (Nor.erase (mem s) (address / g.blockSize * g.blockSize) (blocks g address stop * g.blockSize))
              (address / g.blockSize * g.blockSize)
              (written (frontWrites g address stop (script s)) (savedFront g address (script s)))
              (fun k => mem s (address / g.blockSize * g.blockSize + k)))
            stop (written (backWrites g address stop (script s)) (savedBack g address stop (script s)))
            (fun k => mem s (stop + k))
        else Nor.erase (mem s) (address / g.blockSize * g.blockSize)
          (effective (erases g address stop (script s)) (blocks g address stop) * g.blockSize) := by
  have hlt := g.getFlashEnd_lt
  obtain ⟨hb, hr⟩ := region_of_inside h0 (show address ≤ stop by omega) hin
  have hstart := hr.start
  have hstop := hr.stop
  have hinside := hr.inside
  have h4i : 4 ∣ address / g.blockSize * g.blockSize := h4.mul_left _
  have h4j : 4 ∣ (lastBlock g stop + 1) * g.blockSize := h4.mul_left _
  have h4f : 4 ∣ front g address := by omega
  have h4b : 4 ∣ back g stop := by omega
  obtain ⟨s₁, hs₁, ho₁, hm₁⟩ := hf.save s (n := front g address) h4i h4f (by omega)
  obtain ⟨s₂, hs₂, ho₂, hm₂⟩ := hf.save s₁ (a := stop) (n := back g stop) (by omega) h4b (by omega)
  have hfuel : lastBlock g stop + 1 - address / g.blockSize < addresses := by
    unfold addresses
    have : lastBlock g stop + 1 ≤ (lastBlock g stop + 1) * g.blockSize := Nat.le_mul_of_pos_right _ hb
    exact (Nat.sub_le _ _).trans_lt (by omega)
  obtain ⟨s₃, hs₃, ho₃, hm₃⟩ := hf.eraseLoop hinside hb addresses s₂ (address / g.blockSize) hr.le hfuel
  have ho₂' : script s₂ = erases g address stop (script s) := by
    rw [ho₂, ho₁, after_after]
    rfl
  rw [ho₂', hm₂, hm₁] at hm₃
  rw [ho₂'] at hs₃ ho₃
  subst hs
  rw [erase_eq s h0 hin, hs₁]
  dsimp only
  rw [hs₂]
  dsimp only
  rw [eraseSaved, hs₃]
  by_cases hok : erased g address (address + length * 4) (script s) = true
  · -- every erase is answered: what was read is written back
    have hall := of_answered hok
    rw [show lastBlock g (address + length * 4) + 1 - address / g.blockSize = blocks g address (address + length * 4) from rfl]
      at hm₃ ho₃ ⊢
    rw [hall.2] at hm₃
    rw [hall.1] at ho₃
    have hlen1 := length_ite_slice (script s 0 = .done) (mem s) (address / g.blockSize * g.blockSize) (front g address)
    have hlen2 := length_ite_slice (script s₁ 0 = .done) (mem s₁) (address + length * 4) (back g (address + length * 4))
    obtain ⟨ho₄, hm₄⟩ := hf.restore s₃
      (if script s 0 = .done then slice (mem s) (address / g.blockSize * g.blockSize) (front g address) else [])
      (a := address / g.blockSize * g.blockSize) h4i (by rw [hlen1]; split <;> omega) (by rw [hlen1]; split <;> omega)
    obtain ⟨-, hm₅⟩ := hf.restore (restore chip s₃ _ (address / g.blockSize * g.blockSize))
      (if script s₁ 0 = .done then slice (mem s₁) (address + length * 4) (back g (address + length * 4)) else [])
      (a := address + length * 4) (by omega) (by rw [hlen2]; split <;> omega) (by rw [hlen2]; split <;> omega)
    refine ⟨_, by rw [show answered (erases g address (address + length * 4) (script s))
      (blocks g address (address + length * 4)) = true from hok, hok]; rfl, ?_⟩
    rw [if_pos hok, hm₅, ho₄, hm₄, hlen1, hlen2, hm₃, ho₃, ho₁, hm₁]
    rw [program_saved (written_le _ _), program_saved (written_le _ _)]
    rfl
  · have hno : erased g address (address + length * 4) (script s) = false := by simpa using hok
    refine ⟨s₃, ?_, ?_⟩
    · rw [show answered (erases g address (address + length * 4) (script s))
        (lastBlock g (address + length * 4) + 1 - address / g.blockSize) = false from hno, hno]
      rfl
    · rw [if_neg hok, hm₃]
      rfl

end USBFlashManager

end CodalMicrobit

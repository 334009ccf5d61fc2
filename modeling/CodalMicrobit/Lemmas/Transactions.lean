import CodalMicrobit.USBFlashManager
import CodalMicrobit.Lib.Attempts
import Mathlib.Tactic.Ring

/-!
# Transactions with the interface chip

What the parts of `read`, `write` and `erase` do when any of their transactions may fail. A transaction that is answered has
done what the protocol says; of one that is not, only the chip knows whether it was carried out.
-/

namespace CodalMicrobit

open Nor Attempts

namespace USBFlashManager

/-! ## Requests -/

/-- The header of a command, byte by byte. -/
theorem header_eq {cmd address : Nat} (n : Nat) (ha : address < 2 ^ 24) :
    header cmd address n =
      [UInt8.ofNat cmd, UInt8.ofNat (address / 2 ^ 16), UInt8.ofNat (address / 2 ^ 8), UInt8.ofNat address,
        UInt8.ofNat (n / 2 ^ 24), UInt8.ofNat (n / 2 ^ 16), UInt8.ofNat (n / 2 ^ 8), UInt8.ofNat n] := by
  have hor : address ||| cmd <<< 24 = 2 ^ 24 * cmd + address := by
    rw [Nat.two_pow_add_eq_or_of_lt ha, Nat.shiftLeft_eq, Nat.mul_comm cmd, Nat.or_comm]
  have hbyte : ∀ k c, UInt8.ofNat (256 * k + c) = UInt8.ofNat c := by
    intro k c
    rw [← UInt8.toNat_inj, UInt8.toNat_ofNat', UInt8.toNat_ofNat']
    omega
  have h3 : (2 ^ 24 * cmd + address) / 2 ^ 24 = cmd := by omega
  have h2 : (2 ^ 24 * cmd + address) / 2 ^ 16 = 256 * cmd + address / 2 ^ 16 := by omega
  have h1 : (2 ^ 24 * cmd + address) / 2 ^ 8 = 256 * (2 ^ 8 * cmd) + address / 2 ^ 8 := by omega
  have h0 : 2 ^ 24 * cmd + address = 256 * (2 ^ 16 * cmd) + address := by omega
  rw [header, hor, htonl, htonl, h3, h2, h1, hbyte, hbyte, h0, hbyte]
  rfl

/-- What the chip finds in a header. -/
theorem header_fields (cmd address n : Nat) (rest : List UInt8) (hc : cmd < 256) (ha : address < 2 ^ 24)
    (hn : n < 2 ^ 32) :
    ntoh ((header cmd address n ++ rest).take 1) = cmd ∧
      ntoh (((header cmd address n ++ rest).drop 1).take 3) = address ∧
      ntoh (((header cmd address n ++ rest).drop 4).take 4) = n ∧
      (header cmd address n ++ rest).drop 8 = rest ∧ (header cmd address n ++ rest).take 1 ≠ [] := by
  rw [header_eq n ha]
  simp only [ntoh, List.cons_append, List.nil_append, List.take_succ_cons, List.take_zero, List.drop_succ_cons,
    List.drop_zero, List.foldl_cons, List.foldl_nil, UInt8.toNat_ofNat']
  exact ⟨by omega, by omega, by omega, trivial, nofun⟩

variable {State : Type}

/-- A chip whose requests are recorded, oldest first. -/
def logged (chip : InterfaceChip State) : InterfaceChip (List (List UInt8) × State) where
  transact s request n :=
    let (response, s') := chip.transact s.2 request n
    (response, s.1 ++ [request], s')

/-! ## A chip that follows a script -/

/-- The chip does what the protocol says for requests on word boundaries inside its storage, as far as the script lets it:
`mem` is what it stores, `script` is what is to come. -/
structure Follows (chip : InterfaceChip State) (g : Geometry) (mem : State → Memory) (script : State → Script) : Prop where
  refused : ∀ s request n, script s 0 = .refused →
    ∃ s', chip.transact s request n = ([], s') ∧ script s' = after (script s) 1 ∧ mem s' = mem s
  read : ∀ s a n, 4 ∣ a → 4 ∣ n → 0 < n → a + n ≤ g.getFlashEnd → script s 0 ≠ .refused →
    ∃ h s', h.length = 8 ∧ script s' = after (script s) 1 ∧ mem s' = mem s ∧
      chip.transact s (header MICROBIT_USB_FLASH_READ_CMD a n) (n + 8) =
        (if script s 0 = .done then h ++ slice (mem s) a n else [], s')
  write : ∀ s a data, 4 ∣ a → 4 ∣ data.length → 0 < data.length → data.length ≤ KL27_FLASH_MAX_WRITE_LENGTH →
    a + data.length ≤ g.getFlashEnd → script s 0 ≠ .refused →
    ∃ r s', (r = [] ↔ script s 0 ≠ .done) ∧ script s' = after (script s) 1 ∧
      mem s' = program (mem s) a data.length (fun k => data.getD k 0) ∧
      chip.transact s (header MICROBIT_USB_FLASH_WRITE_CMD a data.length ++ data) 9 = (r, s')
  erase : ∀ s page, g.blockSize ∣ page → page + g.blockSize ≤ g.getFlashEnd → script s 0 ≠ .refused →
    ∃ r s', (r = [] ↔ script s 0 ≠ .done) ∧ script s' = after (script s) 1 ∧
      mem s' = Nor.erase (mem s) page g.blockSize ∧
      chip.transact s (header MICROBIT_USB_FLASH_ERASE_CMD page page) 1 = (r, s')

/-- The writes it takes to send `n` bytes. -/
def chunks (n : Nat) : Nat := (n + 63) / KL27_FLASH_MAX_WRITE_LENGTH

/-- The result of a series of attempts. -/
def result (ok : Bool) : ErrorCode := if ok then .DEVICE_OK else .DEVICE_I2C_ERROR

/-- The bytes that are written of `n`, as the script has it. -/
def written (o : Script) (n : Nat) : Nat := min (KL27_FLASH_MAX_WRITE_LENGTH * effective o (chunks n)) n

/-- One chunk, and then the rest. -/
theorem chunks_eq {n : Nat} (hn : 0 < n) : chunks n = chunks (n - min KL27_FLASH_MAX_WRITE_LENGTH n) + 1 := by
  unfold chunks KL27_FLASH_MAX_WRITE_LENGTH
  omega

/-- No more is written than was asked for. -/
theorem written_le (o : Script) (n : Nat) : written o n ≤ n := Nat.min_le_right _ _

/-- Everything is written exactly when every one of the writes is carried out. -/
theorem written_eq_iff (o : Script) (n : Nat) : written o n = n ↔ effective o (chunks n) = chunks n := by
  have := effective_le o (chunks n)
  unfold written
  unfold chunks KL27_FLASH_MAX_WRITE_LENGTH at *
  omega

/-- What is answered throughout is written to the end. -/
theorem written_of_answered {o : Script} {n : Nat} (h : answered o (chunks n) = true) : written o n = n :=
  (written_eq_iff o n).mpr (of_answered h).2

variable {chip : InterfaceChip State} {g : Geometry} {mem : State → Memory} {script : State → Script}

/-! ## Writing -/

/-- One segment, however it comes out. -/
theorem Follows.segment (hf : Follows chip g mem script) (s : State) {p : Nat} (data : List UInt8) (hp : 4 ∣ p)
    (h4 : 4 ∣ data.length) (hin : p + data.length ≤ g.getFlashEnd) (hpos : 0 < data.length)
    (hmax : data.length ≤ KL27_FLASH_MAX_WRITE_LENGTH) :
    ∃ r s', chip.transact s (header MICROBIT_USB_FLASH_WRITE_CMD p data.length ++ data) 9 = (r, s') ∧
      (r = [] ↔ script s 0 ≠ .done) ∧ script s' = after (script s) 1 ∧
      mem s' = if script s 0 = .refused then mem s else program (mem s) p data.length (fun k => data.getD k 0) := by
  by_cases hr : script s 0 = .refused
  · obtain ⟨s', hs', ho, hm⟩ := hf.refused s (header MICROBIT_USB_FLASH_WRITE_CMD p data.length ++ data) 9 hr
    exact ⟨[], s', hs', iff_of_true rfl (by rw [hr]; nofun), ho, by rw [if_pos hr, hm]⟩
  · obtain ⟨r, s', hr', ho, hm, hs'⟩ := hf.write s p data hp h4 hpos hmax hin hr
    exact ⟨r, s', hs', hr', ho, by rw [if_neg hr, hm]⟩

/-- The segments of a write program a prefix of the data, up to the first segment that is not answered. -/
theorem Follows.writeLoop (hf : Follows chip g mem script) {stop : Nat} (fuel : Nat) : ∀ (s : State) (p : Nat)
    (data : List UInt8), 4 ∣ p → 4 ∣ data.length → stop = p + data.length → stop ≤ g.getFlashEnd → data.length ≤ fuel →
      ∃ s', writeLoop chip s p stop data fuel = (result (answered (script s) (chunks data.length)), s') ∧
        script s' = after (script s) (issued (script s) (chunks data.length)) ∧
        mem s' = program (mem s) p (written (script s) data.length) (fun k => data.getD k 0) := by
  induction fuel with
  | zero =>
    intro s p data _ _ _ _ hlen
    obtain rfl := List.length_eq_zero_iff.mp (Nat.le_zero.mp hlen)
    exact ⟨s, rfl, (after_zero _).symm, (program_zero _ _ _).symm⟩
  | succ fuel ih =>
    intro s p data hp h4 hstop hin hlen
    by_cases hd : data = []
    · subst hd
      refine ⟨s, ?_, (after_zero _).symm, (program_zero _ _ _).symm⟩
      rw [USBFlashManager.writeLoop, if_neg (by rw [hstop]; exact Nat.lt_irrefl p)]
      rfl
    · have hpos := List.length_pos_of_ne_nil hd
      have hn := chunks_eq hpos
      obtain ⟨seg, hseg⟩ : ∃ seg, seg = min KL27_FLASH_MAX_WRITE_LENGTH data.length := ⟨_, rfl⟩
      rw [← hseg] at hn
      have hbounds : 4 ∣ seg ∧ 0 < seg ∧ seg ≤ data.length ∧ seg ≤ KL27_FLASH_MAX_WRITE_LENGTH := by
        unfold KL27_FLASH_MAX_WRITE_LENGTH at *
        omega
      obtain ⟨hseg4, hseg0, hsegle, hsegmax⟩ := hbounds
      have htake : (data.take seg).length = seg := by
        rw [List.length_take]
        omega
      obtain ⟨r, s₁, hs₁, hr, ho₁, hm₁⟩ := hf.segment s (data.take seg) hp (by rwa [htake]) (by omega) (by omega)
        (by omega)
      rw [htake] at hs₁ hm₁
      have hsrc : program (mem s) p seg (fun k => (data.take seg).getD k 0) =
          program (mem s) p seg (fun k => data.getD k 0) :=
        program_congr fun k hk => by simp [List.getD_eq_getElem?_getD, hk]
      rw [hsrc] at hm₁
      have hlt : p < stop := by omega
      rw [USBFlashManager.writeLoop, if_pos hlt, ← hseg]
      simp only [hs₁]
      by_cases hdone : script s 0 = .done
      · -- the segment is answered: the rest follows
        rw [if_neg (fun h => hr.mp h hdone)]
        obtain ⟨s', hs', ho', hm'⟩ := ih s₁ (p + seg) (data.drop seg) (by omega) (by rw [List.length_drop]; omega)
          (by rw [List.length_drop]; omega) hin (by rw [List.length_drop]; omega)
        rw [List.length_drop, ho₁] at hs' ho' hm'
        refine ⟨s', ?_, ?_, ?_⟩
        · rw [hs', hn, answered, hdone]
          rfl
        · rw [ho', hn, issued, if_pos hdone, after_after, Nat.add_comm 1]
        · have hw : written (script s) data.length = seg + written (after (script s) 1) (data.length - seg) := by
            unfold written
            simp only [hn, effective, hdone]
            unfold KL27_FLASH_MAX_WRITE_LENGTH at *
            omega
          have hrest : (fun k => (data.drop seg).getD k 0) = fun k => data.getD (seg + k) 0 := by
            funext k
            simp [List.getD_eq_getElem?_getD]
          rw [hm', hm₁, if_neg (by rw [hdone]; decide), hw, hrest]
          exact program_add (mem s) p seg _ fun k => data.getD k 0
      · -- the segment is not answered: nothing follows
        rw [if_pos (hr.mpr hdone)]
        refine ⟨s₁, ?_, ?_, ?_⟩
        · rw [hn, answered, beq_eq_false_iff_ne.mpr hdone]
          rfl
        · rw [hn, issued, if_neg hdone, ho₁]
        · rw [hm₁]
          cases ho : script s 0 with
          | done => exact absurd ho hdone
          | unanswered =>
            have hw : written (script s) data.length = seg := by
              unfold written
              simp only [hn, effective, ho]
              omega
            rw [if_neg (by decide), hw]
          | refused =>
            have hw : written (script s) data.length = 0 := by
              unfold written
              simp only [hn, effective, ho]
              omega
            rw [if_pos rfl, hw, program_zero]

/-- `writeWords` writes chunk by chunk, up to the first that is not answered. -/
theorem Follows.writeWords (hf : Follows chip g mem script) (s : State) (data : List UInt8) {a : Nat} (length : Nat)
    (ha : 4 ∣ a) (hl : length * 4 ≤ data.length) (hin : a + length * 4 ≤ g.getFlashEnd) :
    ∃ s', writeWords chip s a data length = (result (answered (script s) (chunks (length * 4))), s') ∧
      script s' = after (script s) (issued (script s) (chunks (length * 4))) ∧
      mem s' = program (mem s) a (written (script s) (length * 4)) (fun k => data.getD k 0) := by
  have hend := g.getFlashEnd_lt
  have htake : (data.take (length * 4)).length = length * 4 := by
    rw [List.length_take]
    omega
  obtain ⟨s', hs', ho', hm'⟩ := hf.writeLoop (length * 4) s a (data.take (length * 4)) ha
    (by rw [htake]; exact Nat.dvd_mul_left 4 length) rfl (by omega) (by omega)
  rw [htake] at hs' ho' hm'
  refine ⟨s', ?_, ho', ?_⟩
  · simp only [USBFlashManager.writeWords, u32_of_lt (show length * 4 < 2 ^ 32 by omega),
      u32_of_lt (show a + length * 4 < 2 ^ 32 by omega)]
    exact hs'
  · rw [hm']
    refine program_congr fun k hk => ?_
    have hk' := written_le (script s) (length * 4)
    simp [List.getD_eq_getElem?_getD, show k < length * 4 by omega]

/-- `write` of a buffer, up to the first chunk that is not answered. -/
theorem Follows.writeBuffer (hf : Follows chip g mem script) (s : State) {data : List UInt8} {a : Nat} (ha : 4 ∣ a)
    (h4 : 4 ∣ data.length) (hin : a + data.length ≤ g.getFlashEnd) :
    ∃ s', USBFlashManager.write chip s data a = (result (answered (script s) (chunks data.length)), s') ∧
      script s' = after (script s) (issued (script s) (chunks data.length)) ∧
      mem s' = program (mem s) a (written (script s) data.length) (fun k => data.getD k 0) := by
  have hcancel := Nat.div_mul_cancel h4
  obtain ⟨s', h⟩ := hf.writeWords s data (data.length / 4) ha (Nat.le_of_eq hcancel) (by rwa [hcancel])
  rw [hcancel] at h
  exact ⟨s', h⟩

/-! ## Saving and restoring -/

/-- The transactions of a save: none where there is nothing to save. -/
def reads (n : Nat) : Nat := if 0 < n then 1 else 0

/-- What a save finds: nothing when the read is not answered. -/
theorem Follows.save (hf : Follows chip g mem script) (s : State) {a n : Nat} (ha : 4 ∣ a) (h4 : 4 ∣ n)
    (hin : a + n ≤ g.getFlashEnd) :
    ∃ s', save chip s a n = (if script s 0 = .done then slice (mem s) a n else [], s') ∧
      script s' = after (script s) (reads n) ∧ mem s' = mem s := by
  have hend := g.getFlashEnd_lt
  unfold USBFlashManager.save reads
  by_cases hn : n > 0
  · have hu : u32 (n / 4 * 4) = n := by
      rw [Nat.div_mul_cancel h4]
      exact u32_of_lt (by omega)
    rw [if_pos hn, if_pos hn]
    unfold USBFlashManager.read
    by_cases hr : script s 0 = .refused
    · obtain ⟨s', hs', ho, hm⟩ := hf.refused s (header MICROBIT_USB_FLASH_READ_CMD a n) (n + 8) hr
      refine ⟨s', ?_, ho, hm⟩
      simp [hu, hs', hr]
    · obtain ⟨h, s', hh, ho, hm, hs'⟩ := hf.read s a n ha h4 hn hin hr
      refine ⟨s', ?_, ho, hm⟩
      simp only [hu, hs']
      by_cases hdone : script s 0 = .done
      · simp only [if_pos hdone]
        rw [if_pos (by simp; omega), ← hh, List.drop_left]
      · simp only [if_neg hdone]
        rfl
  · obtain rfl := Nat.eq_zero_of_not_pos hn
    exact ⟨s, by rw [if_neg hn, slice_zero, ite_self], (after_zero _).symm, rfl⟩

/-- `restore` writes back what it can. -/
theorem Follows.restore (hf : Follows chip g mem script) (s : State) (data : List UInt8) {a : Nat} (ha : 4 ∣ a)
    (h4 : 4 ∣ data.length) (hin : a + data.length ≤ g.getFlashEnd) :
    script (restore chip s data a) = after (script s) (issued (script s) (chunks data.length)) ∧
      mem (restore chip s data a) = program (mem s) a (written (script s) data.length) (fun k => data.getD k 0) := by
  unfold USBFlashManager.restore
  by_cases hd : data.length > 0
  · obtain ⟨s', hs', h⟩ := hf.writeBuffer s ha h4 hin
    rw [if_pos hd, hs']
    exact h
  · rw [if_neg hd, Nat.eq_zero_of_not_pos hd]
    exact ⟨(after_zero _).symm, (program_zero _ _ _).symm⟩

/-! ## Erasing blocks -/

/-- The blocks from number `i` up to and including number `j` are erased, up to the first erase that is not answered. -/
theorem Follows.eraseLoop (hf : Follows chip g mem script) {j : Nat} (hj : (j + 1) * g.blockSize ≤ g.getFlashEnd)
    (hb : 0 < g.blockSize) (fuel : Nat) : ∀ (s : State) (i : Nat), i ≤ j + 1 → j + 1 - i < fuel →
      ∃ s', eraseLoop chip g.blockSize (j * g.blockSize) s (i * g.blockSize) fuel =
          some (result (answered (script s) (j + 1 - i)), s') ∧
        script s' = after (script s) (issued (script s) (j + 1 - i)) ∧
        mem s' = Nor.erase (mem s) (i * g.blockSize) (effective (script s) (j + 1 - i) * g.blockSize) := by
  have hend := g.getFlashEnd_lt
  have hzero : ∀ (m : Memory) a, Nor.erase m a (0 * g.blockSize) = m := fun m a =>
    funext fun x => if_neg (by omega)
  induction fuel with
  | zero => exact fun s i hi hfuel => absurd hfuel (Nat.not_lt_zero _)
  | succ fuel ih =>
    intro s i hi hfuel
    rw [USBFlashManager.eraseLoop]
    by_cases hij : i ≤ j
    · have hle : i * g.blockSize ≤ j * g.blockSize := Nat.mul_le_mul_right _ hij
      have hin : i * g.blockSize + g.blockSize ≤ g.getFlashEnd := by
        rw [Nat.succ_mul] at hj
        omega
      have hn : j + 1 - i = (j + 1 - (i + 1)) + 1 := by omega
      rw [if_pos hle, hn]
      by_cases hr : script s 0 = .refused
      · obtain ⟨s', hs', ho, hm⟩ := hf.refused s (header MICROBIT_USB_FLASH_ERASE_CMD (i * g.blockSize) (i * g.blockSize)) 1 hr
        refine ⟨s', ?_, ?_, ?_⟩
        · rw [hs', answered, hr]
          rfl
        · rw [ho, issued, hr]
          rfl
        · rw [hm]
          simp only [effective, hr]
          exact (hzero _ _).symm
      · obtain ⟨r, s₁, hr', ho₁, hm₁, hs₁⟩ := hf.erase s (i * g.blockSize) (Nat.dvd_mul_left _ _) hin hr
        simp only [hs₁]
        by_cases hdone : script s 0 = .done
        · obtain ⟨s', hs', ho', hm'⟩ := ih s₁ (i + 1) (by omega) (by omega)
          rw [ho₁, Nat.succ_mul] at hs' hm'
          rw [ho₁] at ho'
          refine ⟨s', ?_, ?_, ?_⟩
          · rw [if_neg (fun h => hr'.mp h hdone), u32_of_lt (by omega), hs', answered, hdone]
            rfl
          · rw [ho', issued, if_pos hdone, after_after, Nat.add_comm 1]
          · rw [hm', hm₁]
            simp only [effective, hdone]
            rw [Nat.succ_mul]
            generalize effective (after (script s) 1) (j + 1 - (i + 1)) * g.blockSize = width
            funext x
            simp only [Nor.erase]
            grind
        · have hun : script s 0 = .unanswered := by
            cases h : script s 0 with
            | done => exact absurd h hdone
            | unanswered => rfl
            | refused => exact absurd h hr
          refine ⟨s₁, ?_, ?_, ?_⟩
          · rw [if_pos (hr'.mpr hdone), answered, hun]
            rfl
          · rw [ho₁, issued, hun]
            rfl
          · rw [hm₁]
            simp only [effective, hun]
            rw [Nat.one_mul]
    · have hlt : ¬i * g.blockSize ≤ j * g.blockSize := by
        rw [Nat.not_le]
        exact Nat.mul_lt_mul_of_pos_right (by omega) hb
      have hn : j + 1 - i = 0 := by omega
      rw [if_neg hlt, hn]
      exact ⟨s, rfl, (after_zero _).symm, (hzero _ _).symm⟩

end USBFlashManager

end CodalMicrobit

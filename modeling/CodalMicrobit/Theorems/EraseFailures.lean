import CodalMicrobit.Theorems.RegionErase

/-!
# An erase whose transactions may fail

An erase reads what its first and last block hold outside the region before it erases them, and writes it back afterwards. It
goes on when a read fails, it gives up when an erase fails, and it does not look at the result of the writes. So what lies
around the region survives exactly when its block was never erased, or when the read, every erase and every write have worked.
-/

namespace CodalMicrobit

open Nor Attempts

namespace USBFlashManager

/-- The erase returns, and whatever it returns every byte outside the region has its old value: for every chip that follows the
script and whatever it stores. -/
def Keeps (g : Geometry) (address length : Nat) (o : Script) : Prop :=
  ∀ (State : Type) (chip : InterfaceChip State) (mem : State → Memory) (script : State → Script),
    Follows chip g mem script → ∀ s, script s = o →
      ∃ r s', erase chip g s address length = some (r, s') ∧
        ∀ x, ¬(address ≤ x ∧ x < address + 4 * length) → mem s' x = mem s x

section Conditions

variable (g : Geometry) (address stop : Nat) (o : Script)

/-- What is in front of the region is safe: there is nothing, or the first block is not erased, or it is read, all blocks are
erased, and all of it is written back. -/
def FrontSafe : Prop :=
  front g address = 0 ∨ erases g address stop o 0 = .refused ∨
    erased g address stop o = true ∧ o 0 = .done ∧
      effective (frontWrites g address stop o) (chunks (front g address)) = chunks (front g address)

/-- What is behind the region is safe: likewise, for the last block. -/
def BackSafe : Prop :=
  back g stop = 0 ∨ effective (erases g address stop o) (blocks g address stop) < blocks g address stop ∨
    erased g address stop o = true ∧ after o (reads (front g address)) 0 = .done ∧
      effective (backWrites g address stop o) (chunks (back g stop)) = chunks (back g stop)

end Conditions

variable {State : Type} {chip : InterfaceChip State} {g : Geometry} {mem : State → Memory} {script : State → Script}
  {address stop : Nat} {o : Script}

/-- No more is saved in front of the region than there is. -/
theorem savedFront_le (g : Geometry) (address : Nat) (o : Script) : savedFront g address o ≤ front g address := by
  unfold savedFront
  split <;> omega

/-- No more is saved behind the region than there is. -/
theorem savedBack_le (g : Geometry) (address stop : Nat) (o : Script) : savedBack g address stop o ≤ back g stop := by
  unfold savedBack
  split <;> omega

/-- The front is written back whole exactly when it was read and every write is carried out. -/
theorem written_front_iff (h : front g address ≠ 0) :
    written (frontWrites g address stop o) (savedFront g address o) = front g address ↔
      o 0 = .done ∧ effective (frontWrites g address stop o) (chunks (front g address)) = chunks (front g address) := by
  by_cases hd : o 0 = .done
  · rw [savedFront, if_pos hd, written_eq_iff]
    exact ⟨fun h => ⟨hd, h⟩, fun h => h.2⟩
  · have := written_le (frontWrites g address stop o) 0
    rw [savedFront, if_neg hd]
    exact ⟨fun h' => absurd h' (by omega), fun h' => absurd h'.1 hd⟩

/-- The bytes behind the region are written back exactly when the chip did all they need. -/
theorem written_back_iff (h : back g stop ≠ 0) :
    written (backWrites g address stop o) (savedBack g address stop o) = back g stop ↔
      after o (reads (front g address)) 0 = .done ∧
        effective (backWrites g address stop o) (chunks (back g stop)) = chunks (back g stop) := by
  by_cases hd : after o (reads (front g address)) 0 = .done
  · rw [savedBack, if_pos hd, written_eq_iff]
    exact ⟨fun h => ⟨hd, h⟩, fun h => h.2⟩
  · have := written_le (backWrites g address stop o) 0
    rw [savedBack, if_neg hd]
    exact ⟨fun h' => absurd h' (by omega), fun h' => absurd h'.1 hd⟩

/-- Where the blocks of a region lie, all in one. -/
theorem block_bounds (h0 : 0 < stop) (hle : address ≤ stop) (hin : stop ≤ g.getFlashEnd) :
    address / g.blockSize * g.blockSize + front g address = address ∧
      address / g.blockSize * g.blockSize + blocks g address stop * g.blockSize = stop + back g stop ∧
      (front g address ≠ 0 → 0 < blocks g address stop) ∧ 0 < g.blockSize ∧ back g stop < g.blockSize := by
  obtain ⟨hb, hr⟩ := region_of_inside h0 hle hin
  have hstart := hr.start
  have hstop := hr.stop
  refine ⟨hstart, ?_, ?_, hb, Nat.mod_lt _ hb⟩
  · rw [← Nat.add_mul, blocks, Nat.add_sub_cancel' hr.le]
    exact hstop.symm
  · intro hf
    by_contra hn
    have hij : address / g.blockSize = lastBlock g stop + 1 := by
      have := hr.le
      unfold blocks at hn
      omega
    rw [hij] at hstart
    omega

/-- What an erase leaves, when both the front and the back are safe. -/
theorem kept_of_safe (hf : Follows chip g mem script) (h4 : 4 ∣ g.blockSize) (s : State) {length : Nat} (ha : 4 ∣ address)
    (hs : stop = address + length * 4) (h0 : 0 < stop) (hin : stop ≤ g.getFlashEnd)
    (hfront : FrontSafe g address stop (script s)) (hback : BackSafe g address stop (script s)) :
    ∃ r s', erase chip g s address length = some (r, s') ∧
      ∀ x, ¬(address ≤ x ∧ x < stop) → mem s' x = mem s x := by
  obtain ⟨hstart, hend, hsome, hb, hbackle⟩ := block_bounds h0 (show address ≤ stop by omega) hin
  obtain ⟨s', hs', hm⟩ := erase_spec hf h4 s ha hs h0 hin
  refine ⟨_, s', hs', fun x hx => ?_⟩
  have hle := effective_le (erases g address stop (script s)) (blocks g address stop)
  by_cases hok : erased g address stop (script s) = true
  · rw [if_pos hok] at hm
    have hwf : written (frontWrites g address stop (script s)) (savedFront g address (script s)) = front g address := by
      by_cases hz : front g address = 0
      · have := written_le (frontWrites g address stop (script s)) (savedFront g address (script s))
        have := savedFront_le g address (script s)
        omega
      · refine (written_front_iff hz).mpr ?_
        rcases hfront with h | h | h
        · exact absurd h hz
        · have h' := (answered_iff _ _).mp hok 0 (hsome hz)
          rw [h] at h'
          nomatch h'
        · exact h.2
    have hwb : written (backWrites g address stop (script s)) (savedBack g address stop (script s)) = back g stop := by
      by_cases hz : back g stop = 0
      · have := written_le (backWrites g address stop (script s)) (savedBack g address stop (script s))
        have := savedBack_le g address stop (script s)
        omega
      · refine (written_back_iff hz).mpr ?_
        rcases hback with h | h | h
        · exact absurd h hz
        · rw [(of_answered hok).2] at h
          exact absurd h (Nat.lt_irrefl _)
        · exact h.2
    rw [hm, hwf, hwb, restored_at _ (by omega) (by omega), if_neg (by omega)]
  · rw [if_neg hok] at hm
    rw [hm]
    refine if_neg ?_
    rintro ⟨h1, h2⟩
    have hmul := Nat.mul_le_mul_right g.blockSize hle
    by_cases hx' : x < address
    · -- the front: the first block was not erased
      rcases hfront with h | h | h
      · omega
      · rw [(effective_eq_zero_iff _ _).mpr (Or.inr h), Nat.zero_mul] at h2
        omega
      · exact hok h.1
    · -- the back: the last block was not erased
      rcases hback with h | h | h
      · omega
      · have := Nat.mul_le_mul_right g.blockSize (Nat.succ_le_of_lt h)
        rw [Nat.succ_mul] at this
        omega
      · exact hok h.1

/-- A front that is not safe is lost, whatever it was. -/
theorem frontSafe_of_kept (hf : Follows chip g mem script) (h4 : 4 ∣ g.blockSize) (s : State) {length : Nat} (ha : 4 ∣ address)
    (hs : stop = address + length * 4) (h0 : 0 < stop) (hin : stop ≤ g.getFlashEnd) {r : ErrorCode} {s' : State}
    (he : erase chip g s address length = some (r, s')) (hkeep : ∀ x, x < address → mem s' x = mem s x)
    (hold : ∀ x, mem s x ≠ blank) : FrontSafe g address stop (script s) := by
  obtain ⟨hstart, hend, hsome, hb, hbackle⟩ := block_bounds h0 (show address ≤ stop by omega) hin
  obtain ⟨s'', hs', hm⟩ := erase_spec hf h4 s ha hs h0 hin
  obtain rfl : s'' = s' := congrArg Prod.snd (Option.some.inj (hs'.symm.trans he))
  refine or_iff_not_imp_left.mpr fun hz => or_iff_not_imp_left.mpr fun hne => ?_
  by_cases hok : erased g address stop (script s) = true
  · refine ⟨hok, (written_front_iff hz).mp ?_⟩
    rw [if_pos hok] at hm
    by_contra hw
    have hwle := written_le (frontWrites g address stop (script s)) (savedFront g address (script s))
    have hsle := savedFront_le g address (script s)
    have hvle := written_le (backWrites g address stop (script s)) (savedBack g address stop (script s))
    have htle := savedBack_le g address stop (script s)
    -- the first byte that was not written back
    have hlost := hkeep (address / g.blockSize * g.blockSize +
      written (frontWrites g address stop (script s)) (savedFront g address (script s))) (by omega)
    rw [hm, restored_at _ (by omega) (by omega), if_pos (by omega)] at hlost
    exact hold _ hlost.symm
  · exfalso
    rw [if_neg hok] at hm
    have hpos : 0 < effective (erases g address stop (script s)) (blocks g address stop) := by
      refine Nat.pos_of_ne_zero fun h => ?_
      rcases (effective_eq_zero_iff _ _).mp h with h | h
      · have := hsome hz
        omega
      · exact hne h
    have hmul := Nat.mul_le_mul_right g.blockSize hpos
    have hlost := hkeep (address / g.blockSize * g.blockSize) (by omega)
    rw [hm, Nor.erase, if_pos (by omega)] at hlost
    exact hold _ hlost.symm

/-- A back that is not safe is lost, whatever it was. -/
theorem backSafe_of_kept (hf : Follows chip g mem script) (h4 : 4 ∣ g.blockSize) (s : State) {length : Nat} (ha : 4 ∣ address)
    (hs : stop = address + length * 4) (h0 : 0 < stop) (hin : stop ≤ g.getFlashEnd) {r : ErrorCode} {s' : State}
    (he : erase chip g s address length = some (r, s')) (hkeep : ∀ x, stop ≤ x → mem s' x = mem s x)
    (hold : ∀ x, mem s x ≠ blank) : BackSafe g address stop (script s) := by
  obtain ⟨hstart, hend, hsome, hb, hbackle⟩ := block_bounds h0 (show address ≤ stop by omega) hin
  obtain ⟨s'', hs', hm⟩ := erase_spec hf h4 s ha hs h0 hin
  obtain rfl : s'' = s' := congrArg Prod.snd (Option.some.inj (hs'.symm.trans he))
  refine or_iff_not_imp_left.mpr fun hz => or_iff_not_imp_left.mpr fun hlt => ?_
  have hall : effective (erases g address stop (script s)) (blocks g address stop) = blocks g address stop :=
    Nat.le_antisymm (effective_le _ _) (Nat.le_of_not_lt hlt)
  by_cases hok : erased g address stop (script s) = true
  · refine ⟨hok, (written_back_iff hz).mp ?_⟩
    rw [if_pos hok] at hm
    by_contra hw
    have hwle := written_le (frontWrites g address stop (script s)) (savedFront g address (script s))
    have hsle := savedFront_le g address (script s)
    have hvle := written_le (backWrites g address stop (script s)) (savedBack g address stop (script s))
    have htle := savedBack_le g address stop (script s)
    have hlost := hkeep (stop + written (backWrites g address stop (script s)) (savedBack g address stop (script s)))
      (by omega)
    rw [hm, restored_at _ (by omega) (by omega), if_pos (by omega)] at hlost
    exact hold _ hlost.symm
  · exfalso
    rw [if_neg hok, hall] at hm
    have hlost := hkeep stop (Nat.le_refl _)
    rw [hm, Nor.erase, if_pos (by omega)] at hlost
    exact hold _ hlost.symm

/-! ## A chip for every script -/

/-- The working chip behind a line that fails as the script says. -/
def scriptedChip (g : Geometry) : InterfaceChip (Memory × Script) where
  transact s request n :=
    let (response, m) := (workingChip g).transact s.1 request n
    (if s.2 0 = .done then response else [], if s.2 0 = .refused then s.1 else m, after s.2 1)

/-- The chip that answers by a script follows it. -/
theorem scriptedChip_follows (g : Geometry) : Follows (scriptedChip g) g Prod.fst Prod.snd where
  refused s request n h := by
    refine ⟨(s.1, after s.2 1), ?_, rfl, rfl⟩
    simp [scriptedChip, h]
  read s a n ha hn hpos hin h := by
    obtain ⟨e, m, he, hm, ht⟩ := (workingChip_works g).read s.1 a n ha hn hpos hin
    refine ⟨e, (m, after s.2 1), he, rfl, hm, ?_⟩
    simp only [scriptedChip, ht, if_neg h]
    rfl
  write s a data ha h4 hpos hmax hin h := by
    obtain ⟨r, m, hr, hm, ht⟩ := (workingChip_works g).write s.1 a data ha h4 hpos hmax hin
    refine ⟨if s.2 0 = .done then r else [], (m, after s.2 1), ?_, rfl, hm, by simp only [scriptedChip, ht, if_neg h]⟩
    split
    · rename_i hd
      exact iff_of_false hr (fun h => h hd)
    · rename_i hd
      exact iff_of_true rfl hd
  erase s page hd hin h := by
    obtain ⟨r, m, hr, hm, ht⟩ := (workingChip_works g).erase s.1 page hd hin
    refine ⟨if s.2 0 = .done then r else [], (m, after s.2 1), ?_, rfl, hm, by simp only [scriptedChip, ht, if_neg h]⟩
    split
    · rename_i hd
      exact iff_of_false hr (fun h => h hd)
    · rename_i hd
      exact iff_of_true rfl hd

/-- An empty region at the start of the storage: the first transaction is the erase of a block, so nothing happens if it is
refused. -/
theorem keeps_of_refused (g : Geometry) (h : o 0 = .refused) : Keeps g 0 0 o := by
  rintro State chip mem script hf s rfl
  obtain ⟨s', hs', -, hm⟩ := hf.refused s (header MICROBIT_USB_FLASH_ERASE_CMD 0 0) 1 h
  refine ⟨.DEVICE_I2C_ERROR, s', ?_, fun x _ => by rw [hm]⟩
  have hloop : ∀ eraseEnd, eraseLoop chip g.blockSize eraseEnd s 0 addresses = some (.DEVICE_I2C_ERROR, s') := by
    intro eraseEnd
    obtain ⟨n, hn⟩ : ∃ n, addresses = n + 1 := ⟨2 ^ 32 - 1, by unfold addresses; rfl⟩
    rw [hn, eraseLoop, if_pos (Nat.zero_le _), hs']
    rfl
  have hu : ∀ n, u32 (u32sub n 0 + g.blockSize) = u32 (n + g.blockSize) := fun n => by
    rw [u32sub_of_le (Nat.zero_le n), Nat.sub_zero]
  have hlen : u32 (u32sub 0 g.blockSize + g.blockSize) = 0 := by
    have := g.blockSize_lt
    unfold u32sub u32
    split <;> split <;> omega
  simp [erase, hloop, hu, hlen, u32_of_lt]

/-- Whatever pattern of transactions fails, an erase of a region of the storage loses nothing around it exactly when what is
in front of it and what is behind it are safe. An empty region at the start of the storage is left alone if the first
transaction is refused. -/
theorem erase_keeps_iff (g : Geometry) (h4 : 4 ∣ g.blockSize) (address length : Nat) (ha : 4 ∣ address)
    (hin : address + 4 * length ≤ g.getFlashEnd) (o : Script) :
    (0 < address + 4 * length →
      (Keeps g address length o ↔
        FrontSafe g address (address + 4 * length) o ∧ BackSafe g address (address + 4 * length) o)) ∧
      (address + 4 * length = 0 → o 0 = .refused → Keeps g address length o) := by
  refine ⟨fun h0 => ⟨fun h => ?_, fun h => ?_⟩, fun h0 hr => ?_⟩
  · obtain ⟨r, s', hs', hkeep⟩ := h _ _ _ _ (scriptedChip_follows g) (fun _ => 0, o) rfl
    have hold : ∀ x : Nat, (Prod.fst ((fun _ => 0, o) : Memory × Script)) x ≠ blank :=
      fun _ => (by decide : (0 : UInt8) ≠ blank)
    exact ⟨frontSafe_of_kept (scriptedChip_follows g) h4 _ ha (by omega) h0 hin hs' (fun x hx => hkeep x (by omega)) hold,
      backSafe_of_kept (scriptedChip_follows g) h4 _ ha (by omega) h0 hin hs' (fun x hx => hkeep x (by omega)) hold⟩
  · rintro State chip mem script hf s rfl
    exact kept_of_safe hf h4 s ha (by omega) h0 hin h.1 h.2
  · obtain ⟨rfl, rfl⟩ : address = 0 ∧ length = 0 := by omega
    exact keeps_of_refused g hr

/-- `erase_keeps_iff` for one word in the middle of a block, when the read of what is in front of it is not answered. -/
theorem erase_keeps_iff_unread :
    (¬Keeps ⟨16, 2, by decide, by decide⟩ 4 1 fun k => if k = 0 then .unanswered else .done) ∧
      Keeps ⟨16, 2, by decide, by decide⟩ 4 1 fun _ => .done := by
  refine ⟨fun h => ?_, ?_⟩
  · have := ((erase_keeps_iff ⟨16, 2, by decide, by decide⟩ (by decide) 4 1 (by decide) (by decide) _).1 (by decide)).mp h
    exact absurd this.1 (by unfold FrontSafe; decide)
  · refine ((erase_keeps_iff ⟨16, 2, by decide, by decide⟩ (by decide) 4 1 (by decide) (by decide) _).1 (by decide)).mpr ?_
    exact ⟨by unfold FrontSafe; decide, by unfold BackSafe; decide⟩

/-- The read of what is in front of the word is not answered: the erase reports success, and the block is blank. -/
theorem erase_loses_front :
    ∃ s', erase (scriptedChip ⟨16, 2, by decide, by decide⟩) ⟨16, 2, by decide, by decide⟩
        (fun _ => 0, fun k => if k = 0 then .unanswered else .done) 4 1 = some (.DEVICE_OK, s') ∧
      s'.1 0 = 0xFF := by
  obtain ⟨s', hs', hm⟩ := erase_spec (scriptedChip_follows ⟨16, 2, by decide, by decide⟩) (by decide)
    (fun _ => 0, fun k => if k = 0 then .unanswered else .done) (show 4 ∣ 4 by decide) (show 8 = 4 + 1 * 4 from rfl)
    (by decide) (by decide)
  exact ⟨s', hs', by rw [show s'.1 = _ from hm]; decide⟩

end USBFlashManager

end CodalMicrobit

import CodalMicrobit.Theorems.RegionErase

/-!
# What an erase asks of the chip

An erase computes the end of its region in 32-bit arithmetic, and the block its loop stops at as the block of that end or the
one before it. A region that leaves the storage is refused, unless its end wraps around to an address inside; and an empty
region has no last block.
-/

namespace CodalMicrobit

open Nor

namespace USBFlashManager

/-- The pages that the chip was asked to erase. -/
def erasedPages (requests : List (List UInt8)) : List Nat :=
  (requests.filter fun r => ntoh (r.take 1) == MICROBIT_USB_FLASH_ERASE_CMD).map fun r => ntoh ((r.drop 1).take 3)

variable {State : Type}

/-- The erase ends; every block it asks the chip to erase meets the region; and if the region is not inside the storage, the
erase is refused and asks the chip for nothing. -/
def Sparing (chip : InterfaceChip State) (g : Geometry) (s : State) (address length : Nat) : Prop :=
  ∃ r requests s', erase (logged chip) g ([], s) address length = some (r, requests, s') ∧
    (∀ page ∈ erasedPages requests,
      ∃ x, page ≤ x ∧ x < page + g.blockSize ∧ address ≤ x ∧ x < address + 4 * length) ∧
    (g.getFlashEnd < address + 4 * length → r = .DEVICE_INVALID_PARAMETER ∧ requests = [])

theorem erasedPages_append (l l' : List (List UInt8)) : erasedPages (l ++ l') = erasedPages l ++ erasedPages l' := by
  unfold erasedPages
  rw [List.filter_append, List.map_append]

/-- The command of a header keeps the bits it has, whatever the address. -/
theorem ne_erase_of_testBit {cmd : Nat} (h : cmd.testBit 1 = true) (address n : Nat) (rest : List UInt8) :
    ntoh ((header cmd address n ++ rest).take 1) ≠ MICROBIT_USB_FLASH_ERASE_CMD := by
  intro heq
  have hbit : (address ||| cmd <<< 24).testBit 25 = true := by
    rw [Nat.testBit_or, Nat.testBit_shiftLeft, h]
    simp
  have hbyte : (address ||| cmd <<< 24) / 2 ^ 24 % 2 ^ 8 = MICROBIT_USB_FLASH_ERASE_CMD := by
    simpa [header, htonl, ntoh, UInt8.toNat_ofNat'] using heq
  rw [Nat.testBit_eq_decide_div_mod_eq, decide_eq_true_eq] at hbit
  unfold MICROBIT_USB_FLASH_ERASE_CMD at hbyte
  omega

/-- A message for another command erases no page. -/
theorem erasedPages_of_testBit (cmd : Nat) (h : cmd.testBit 1 = true) (address n : Nat) (rest : List UInt8) :
    erasedPages [header cmd address n ++ rest] = [] := by
  unfold erasedPages
  rw [List.filter_cons_of_neg (by simpa using ne_erase_of_testBit h address n rest)]
  rfl

/-- A message to erase erases its page. -/
theorem erasedPages_erase {page : Nat} (h : page < 2 ^ 24) (rest : List (List UInt8)) :
    erasedPages (header MICROBIT_USB_FLASH_ERASE_CMD page page :: rest) = page :: erasedPages rest := by
  obtain ⟨hc, ha, -⟩ := header_fields MICROBIT_USB_FLASH_ERASE_CMD page page [] (by decide) h (by omega)
  rw [List.append_nil] at hc ha
  unfold erasedPages
  rw [List.filter_cons_of_pos (by simpa using hc), List.map_cons, ha]

variable {chip : InterfaceChip State} {g : Geometry} {address length : Nat}

/-! ## The requests of the parts -/

/-- Saving bytes sends no message that erases. -/
theorem save_logged (chip : InterfaceChip State) (log : List (List UInt8)) (s : State) (a n : Nat) :
    ∃ buffer extra s', save (logged chip) (log, s) a n = (buffer, log ++ extra, s') ∧ erasedPages extra = [] := by
  unfold save
  split
  · refine ⟨_, [header MICROBIT_USB_FLASH_READ_CMD a (u32 (n / 4 * 4))], _, rfl, ?_⟩
    have h := erasedPages_of_testBit MICROBIT_USB_FLASH_READ_CMD (by decide) a (u32 (n / 4 * 4)) []
    rwa [List.append_nil] at h
  · exact ⟨[], [], s, by rw [List.append_nil], rfl⟩

/-- Writing sends no message that erases. -/
theorem writeLoop_quiet (chip : InterfaceChip State) (stop fuel : Nat) :
    ∀ (log : List (List UInt8)) (s : State) (p : Nat) (data : List UInt8),
    ∃ r extra s', writeLoop (logged chip) (log, s) p stop data fuel = (r, log ++ extra, s') ∧ erasedPages extra = [] := by
  induction fuel with
  | zero => exact fun log s p data => ⟨.DEVICE_OK, [], s, by rw [List.append_nil]; rfl, rfl⟩
  | succ fuel ih =>
    intro log s p data
    rw [writeLoop]
    by_cases hlt : p < stop
    · rw [if_pos hlt]
      have hfirst := erasedPages_of_testBit MICROBIT_USB_FLASH_WRITE_CMD (by decide) p
        (min KL27_FLASH_MAX_WRITE_LENGTH data.length) (data.take (min KL27_FLASH_MAX_WRITE_LENGTH data.length))
      dsimp only [logged]
      split
      · exact ⟨_, _, _, rfl, hfirst⟩
      · obtain ⟨r, extra, s', hs', he⟩ := ih (log ++ [header MICROBIT_USB_FLASH_WRITE_CMD p
          (min KL27_FLASH_MAX_WRITE_LENGTH data.length) ++ data.take (min KL27_FLASH_MAX_WRITE_LENGTH data.length)]) _
          (p + min KL27_FLASH_MAX_WRITE_LENGTH data.length) (data.drop (min KL27_FLASH_MAX_WRITE_LENGTH data.length))
        rw [List.append_assoc] at hs'
        exact ⟨r, _, s', hs', by rw [erasedPages_append, hfirst, he]; rfl⟩
    · rw [if_neg hlt]
      exact ⟨.DEVICE_OK, [], s, by rw [List.append_nil], rfl⟩

/-- Writing back sends no message that erases. -/
theorem restore_logged (chip : InterfaceChip State) (log : List (List UInt8)) (s : State) (data : List UInt8) (a : Nat) :
    ∃ extra s', restore (logged chip) (log, s) data a = (log ++ extra, s') ∧ erasedPages extra = [] := by
  unfold restore write writeWords
  split
  · obtain ⟨r, extra, s', hs', he⟩ := writeLoop_quiet chip (u32 (a + u32 (data.length / 4 * 4)))
      (u32 (data.length / 4 * 4)) log s a (data.take (u32 (data.length / 4 * 4)))
    exact ⟨extra, s', by rw [hs'], he⟩
  · exact ⟨[], s, by rw [List.append_nil], rfl⟩

/-- The loop asks for its blocks one after the other, and ends. -/
theorem eraseLoop_logged (chip : InterfaceChip State) {j : Nat} (hj : (j + 1) * g.blockSize ≤ g.getFlashEnd)
    (hb : 0 < g.blockSize) (fuel : Nat) :
    ∀ (log : List (List UInt8)) (s : State) (i : Nat), i ≤ j + 1 → j + 1 - i < fuel →
      ∃ r extra s', eraseLoop (logged chip) g.blockSize (j * g.blockSize) (log, s) (i * g.blockSize) fuel =
          some (r, log ++ extra, s') ∧
        ∀ page ∈ erasedPages extra, ∃ t, i ≤ t ∧ t ≤ j ∧ page = t * g.blockSize := by
  have hend := g.getFlashEnd_lt
  induction fuel with
  | zero => exact fun log s i hi hfuel => absurd hfuel (Nat.not_lt_zero _)
  | succ fuel ih =>
    intro log s i hi hfuel
    rw [eraseLoop]
    by_cases hij : i ≤ j
    · have hle : i * g.blockSize ≤ j * g.blockSize := Nat.mul_le_mul_right _ hij
      rw [Nat.succ_mul] at hj
      have hfirst := erasedPages_erase (show i * g.blockSize < 2 ^ 24 by omega)
      rw [if_pos hle]
      dsimp only [logged]
      split
      · refine ⟨_, _, _, rfl, fun page hp => ?_⟩
        rw [hfirst, List.mem_cons] at hp
        rcases hp with hp | hp
        · exact ⟨i, Nat.le_refl i, hij, hp⟩
        · exact absurd hp List.not_mem_nil
      · obtain ⟨r, extra, s', hs', he⟩ := ih (log ++ [header MICROBIT_USB_FLASH_ERASE_CMD (i * g.blockSize)
          (i * g.blockSize)]) _ (i + 1) (by omega) (by omega)
        rw [List.append_assoc, Nat.succ_mul] at hs'
        rw [u32_of_lt (by omega)]
        refine ⟨r, _, s', hs', fun page hp => ?_⟩
        rw [List.singleton_append, hfirst, List.mem_cons] at hp
        rcases hp with hp | hp
        · exact ⟨i, Nat.le_refl i, hij, hp⟩
        · obtain ⟨t, h1, h2, h3⟩ := he page hp
          exact ⟨t, by omega, h2, h3⟩
    · have hlt : ¬i * g.blockSize ≤ j * g.blockSize := by
        rw [Nat.not_le]
        exact Nat.mul_lt_mul_of_pos_right (by omega) hb
      rw [if_neg hlt]
      exact ⟨.DEVICE_OK, [], s, by rw [List.append_nil], fun page hp => absurd hp List.not_mem_nil⟩

/-- However it ends, the loop has asked for its first block, and does not call its arguments invalid. -/
theorem eraseLoop_first {blockSize eraseEnd : Nat} (fuel : Nat) : ∀ (log : List (List UInt8)) (s : State) (page : Nat)
    (r : ErrorCode) (log' : List (List UInt8)) (s' : State),
    eraseLoop (logged chip) blockSize eraseEnd (log, s) page fuel = some (r, log', s') →
      r ≠ .DEVICE_INVALID_PARAMETER ∧ ∃ extra, log' = log ++ extra ∧
        (page ≤ eraseEnd → ∃ rest, extra = header MICROBIT_USB_FLASH_ERASE_CMD page page :: rest) := by
  induction fuel with
  | zero =>
    intro log s page r log' s' h
    cases h
  | succ fuel ih =>
    intro log s page r log' s' h
    rw [eraseLoop] at h
    by_cases hle : page ≤ eraseEnd
    · rw [if_pos hle] at h
      dsimp only [logged] at h
      split at h
      · cases h
        exact ⟨by decide, _, rfl, fun _ => ⟨[], rfl⟩⟩
      · obtain ⟨hr, extra, hlog, -⟩ := ih _ _ _ _ _ _ h
        exact ⟨hr, _, by rw [hlog, List.append_assoc]; rfl, fun _ => ⟨extra, rfl⟩⟩
    · rw [if_neg hle] at h
      cases h
      exact ⟨by decide, [], by rw [List.append_nil], fun hp => absurd hp hle⟩

/-! ## The requests of an erase -/

/-- What follows the loop adds no erase and no complaint about the arguments. -/
theorem eraseSaved_logged {blockSize start eraseEnd stop : Nat} {buffer1 buffer2 : List UInt8}
    {log : List (List UInt8)} {s : State} {r : ErrorCode} {requests : List (List UInt8)} {s' : State}
    (h : eraseSaved (logged chip) blockSize start eraseEnd stop buffer1 buffer2 (log, s) = some (r, requests, s')) :
    r ≠ .DEVICE_INVALID_PARAMETER ∧ ∃ extra, requests = log ++ extra ∧
      (start ≤ eraseEnd → ∃ rest, extra = header MICROBIT_USB_FLASH_ERASE_CMD start start :: rest) := by
  unfold eraseSaved at h
  cases hloop : eraseLoop (logged chip) blockSize eraseEnd (log, s) start addresses with
  | none =>
    rw [hloop] at h
    nomatch h
  | some x =>
    obtain ⟨r₁, log₁, s₁⟩ := x
    obtain ⟨hr, extra, hlog, hfirst⟩ := eraseLoop_first addresses _ _ _ _ _ _ hloop
    rw [hloop] at h
    split at h
    · rename_i x s₂ hx
      cases hx
      obtain ⟨e₁, t₁, h₁, -⟩ := restore_logged chip log₁ s₁ buffer1 start
      obtain ⟨e₂, t₂, h₂, -⟩ := restore_logged chip (log₁ ++ e₁) t₁ buffer2 stop
      rw [h₁, h₂] at h
      cases h
      refine ⟨nofun, extra ++ (e₁ ++ e₂), by rw [hlog, List.append_assoc, List.append_assoc], fun hp => ?_⟩
      obtain ⟨rest, hrest⟩ := hfirst hp
      exact ⟨rest ++ (e₁ ++ e₂), by rw [hrest]; rfl⟩
    · cases h
      exact ⟨hr, extra, hlog, hfirst⟩

/-- An erase of a region inside the storage that has blocks asks for these blocks only. -/
theorem sparing_of_inside (chip : InterfaceChip State) (s : State) (hin : address + 4 * length ≤ g.getFlashEnd)
    (h : 0 < length ∨ 0 < address ∧ g.blockSize ∣ address) : Sparing chip g s address length := by
  have h0 : 0 < address + length * 4 := by omega
  rw [Nat.mul_comm] at hin
  obtain ⟨hb, hr⟩ := region_of_inside h0 (Nat.le_add_right address (length * 4)) hin
  obtain ⟨b₁, e₁, s₁, h₁, hq₁⟩ := save_logged chip [] s (address / g.blockSize * g.blockSize) (front g address)
  obtain ⟨b₂, e₂, s₂, h₂, hq₂⟩ := save_logged chip ([] ++ e₁) s₁ (address + length * 4)
    (back g (address + length * 4))
  have hfuel : lastBlock g (address + length * 4) + 1 - address / g.blockSize < addresses := by
    have hend := g.getFlashEnd_lt
    have hle : lastBlock g (address + length * 4) + 1 ≤ (lastBlock g (address + length * 4) + 1) * g.blockSize :=
      Nat.le_mul_of_pos_right _ hb
    have := hr.inside
    unfold addresses
    exact (Nat.sub_le _ _).trans_lt (by omega)
  obtain ⟨r, e₃, s₃, h₃, hq₃⟩ := eraseLoop_logged chip hr.inside hb addresses ([] ++ e₁ ++ e₂) s₂ _ hr.le hfuel
  -- the blocks of the loop are those the region meets
  have hmeets : ∀ page ∈ erasedPages e₃, ∃ x, page ≤ x ∧ x < page + g.blockSize ∧ address ≤ x ∧ x < address + 4 * length := by
    intro page hp
    obtain ⟨t, ht1, ht2, rfl⟩ := hq₃ page hp
    have hstart := hr.start_lt
    have hlast := hr.last
    have hlow := Nat.mul_le_mul_right g.blockSize ht1
    have hhigh := Nat.mul_le_mul_right g.blockSize ht2
    rcases Nat.eq_zero_or_pos length with rfl | hl
    · -- an empty region at the start of a block has no blocks
      exfalso
      obtain ⟨k, rfl⟩ := (h.resolve_left (Nat.lt_irrefl 0)).2
      rw [Nat.zero_mul, Nat.add_zero] at hlast hhigh
      rw [Nat.mul_div_cancel_left _ hb, Nat.mul_comm] at hlow
      omega
    · exact ⟨max address (t * g.blockSize), by omega, by omega, by omega, by omega⟩
  have heq := (erase_eq ([], s) h0 hin : erase (logged chip) g _ _ _ = _)
  rw [h₁] at heq
  dsimp only at heq
  rw [h₂] at heq
  dsimp only at heq
  rw [eraseSaved, h₃] at heq
  have hquiet : erasedPages ([] ++ e₁ ++ e₂ ++ e₃) = erasedPages e₃ := by
    rw [List.nil_append, erasedPages_append, erasedPages_append, hq₁, hq₂]
    rfl
  by_cases hok : r = .DEVICE_OK
  · subst hok
    obtain ⟨e₄, s₄, h₄, hq₄⟩ := restore_logged chip ([] ++ e₁ ++ e₂ ++ e₃) s₃ b₁
      (address / g.blockSize * g.blockSize)
    obtain ⟨e₅, s₅, h₅, hq₅⟩ := restore_logged chip ([] ++ e₁ ++ e₂ ++ e₃ ++ e₄) s₄ b₂ (address + length * 4)
    dsimp only at heq
    rw [h₄, h₅] at heq
    refine ⟨_, _, s₅, heq, fun page hp => hmeets page ?_, fun hout => absurd hin (by omega)⟩
    rw [erasedPages_append, erasedPages_append, hq₄, hq₅, hquiet, List.append_nil, List.append_nil] at hp
    exact hp
  · refine ⟨r, [] ++ e₁ ++ e₂ ++ e₃, s₃, ?_, fun page hp => hmeets page ?_, fun hout => absurd hin (by omega)⟩
    · rw [heq]
      split
      · rename_i hx
        cases hx
        exact absurd rfl hok
      · rfl
    · rw [hquiet] at hp
      exact hp

/-- The end of a region, as the erase computes it. -/
theorem stop_eq (address length : Nat) : u32 (address + u32 (length * 4)) = (address + 4 * length) % 2 ^ 32 := by
  unfold u32
  split <;> split <;> omega

/-- An erase is refused for its arguments when its end, as it computes it, is outside the storage. -/
theorem erase_refused (chip : InterfaceChip State) (s : State)
    (h : g.getFlashEnd < (address + 4 * length) % 2 ^ 32) :
    erase chip g s address length = some (.DEVICE_INVALID_PARAMETER, s) := by
  unfold Geometry.getFlashEnd at h
  simp only [erase, stop_eq]
  rw [if_pos (Or.inl h)]

/-- Otherwise it goes to the chip, and asks for the first block if the loop has one. -/
theorem erase_accepted {s : State} {r : ErrorCode} {requests : List (List UInt8)} {s' : State}
    (h : (address + 4 * length) % 2 ^ 32 ≤ g.getFlashEnd)
    (he : erase (logged chip) g ([], s) address length = some (r, requests, s')) :
    r ≠ .DEVICE_INVALID_PARAMETER ∧
      (address / g.blockSize * g.blockSize ≤ u32sub ((address + 4 * length) % 2 ^ 32 / g.blockSize * g.blockSize)
          (if (address + 4 * length) % 2 ^ 32 % g.blockSize = 0 then g.blockSize else 0) →
        header MICROBIT_USB_FLASH_ERASE_CMD (address / g.blockSize * g.blockSize) (address / g.blockSize * g.blockSize) ∈
          requests) := by
  have hmem : ∀ {extra log rest : List (List UInt8)} {request : List UInt8}, extra = request :: rest →
      requests = log ++ extra → request ∈ requests := by
    rintro extra log rest request rfl rfl
    exact List.mem_append_right _ List.mem_cons_self
  obtain ⟨eraseEnd, hend⟩ : ∃ e, e = u32sub ((address + 4 * length) % 2 ^ 32 / g.blockSize * g.blockSize)
    (if (address + 4 * length) % 2 ^ 32 % g.blockSize = 0 then g.blockSize else 0) := ⟨_, rfl⟩
  rw [erase_of_le ([], s) (stop_eq address length).symm h hend] at he
  rw [← hend]
  split at he
  · obtain ⟨b₁, e₁, s₁, h₁, -⟩ := save_logged chip [] s (address / g.blockSize * g.blockSize)
      (address - address / g.blockSize * g.blockSize)
    obtain ⟨b₂, e₂, s₂, h₂, -⟩ := save_logged chip ([] ++ e₁) s₁ ((address + 4 * length) % 2 ^ 32)
      (back g ((address + 4 * length) % 2 ^ 32))
    rw [h₁] at he
    dsimp only at he
    rw [h₂] at he
    dsimp only at he
    obtain ⟨hr, extra, hlog, hfirst⟩ := eraseSaved_logged he
    refine ⟨hr, fun hle => ?_⟩
    obtain ⟨rest, hrest⟩ := hfirst hle
    exact hmem hrest hlog
  · obtain ⟨hr, extra, hlog, hfirst⟩ := eraseSaved_logged he
    refine ⟨hr, fun hle => ?_⟩
    obtain ⟨rest, hrest⟩ := hfirst hle
    exact hmem hrest hlog

/-- An empty region that starts inside a block, or at the start of the storage, costs a block. -/
theorem not_sparing_of_empty (chip : InterfaceChip State) (s : State) (hin : address ≤ g.getFlashEnd)
    (h : ¬(0 < address ∧ g.blockSize ∣ address)) : ¬Sparing chip g s address 0 := by
  rintro ⟨r, requests, s', he, hpages, -⟩
  have hend := g.getFlashEnd_lt
  have hstop : (address + 4 * 0) % 2 ^ 32 = address := Nat.mod_eq_of_lt (by omega)
  obtain ⟨-, hfirst⟩ := erase_accepted (by rw [hstop]; exact hin) he
  rw [hstop] at hfirst
  have hstart := Nat.div_mul_le_self address g.blockSize
  have hreq := hfirst (by
    by_cases hd : g.blockSize ∣ address
    · have hz : address = 0 := Nat.eq_zero_of_not_pos fun h0 => h ⟨h0, hd⟩
      rw [hz, Nat.zero_div, Nat.zero_mul]
      exact Nat.zero_le _
    · rw [if_neg (fun hm => hd (Nat.dvd_of_mod_eq_zero hm)), u32sub_of_le (Nat.zero_le _)]
      exact Nat.le_refl _)
  have hpage : address / g.blockSize * g.blockSize ∈ erasedPages requests := by
    obtain ⟨l, l', rfl⟩ := List.append_of_mem hreq
    rw [erasedPages_append, erasedPages_erase (by omega)]
    exact List.mem_append_right _ List.mem_cons_self
  obtain ⟨x, -, -, h1, h2⟩ := hpages _ hpage
  omega

/-- A region that leaves the storage, and whose end wraps around into it, is not refused. -/
theorem not_sparing_of_wrap (chip : InterfaceChip State) (s : State) (hout : g.getFlashEnd < address + 4 * length)
    (h : (address + 4 * length) % 2 ^ 32 ≤ g.getFlashEnd) : ¬Sparing chip g s address length := by
  rintro ⟨r, requests, s', he, -, hr⟩
  exact (erase_accepted h he).1 (hr hout).1

/-- For every chip, geometry and 32-bit arguments, an erase ends, asks only for blocks of the region, and refuses a region that
is not inside the storage, exactly when the region is inside and either has a word or is empty at the start of a block other
than the first; or when it leaves the storage, and so does its end modulo 2³². -/
theorem erase_sparing_iff (chip : InterfaceChip State) (g : Geometry) (s : State) (address length : UInt32) :
    Sparing chip g s address.toNat length.toNat ↔
      address.toNat + 4 * length.toNat ≤ g.getFlashEnd ∧
          (0 < length.toNat ∨ 0 < address.toNat ∧ g.blockSize ∣ address.toNat) ∨
        g.getFlashEnd < address.toNat + 4 * length.toNat ∧
          g.getFlashEnd < (address.toNat + 4 * length.toNat) % 2 ^ 32 := by
  generalize address.toNat = address
  generalize length.toNat = length
  rcases Nat.lt_or_ge g.getFlashEnd (address + 4 * length) with hout | hin
  · refine ⟨fun h => Or.inr ⟨hout, ?_⟩, fun h => ?_⟩
    · by_contra hw
      exact not_sparing_of_wrap chip s hout (Nat.le_of_not_lt hw) h
    · have hw := (h.resolve_left fun h => absurd h.1 (Nat.not_le.mpr hout)).2
      exact ⟨_, [], s, erase_refused _ _ hw, nofun, fun _ => ⟨rfl, rfl⟩⟩
  · refine ⟨fun h => Or.inl ⟨hin, ?_⟩, fun h => ?_⟩
    · by_contra hc
      rw [not_or] at hc
      obtain rfl : length = 0 := Nat.eq_zero_of_not_pos hc.1
      exact not_sparing_of_empty chip s (by omega) hc.2 h
    · exact sparing_of_inside chip s hin (h.resolve_right fun h => absurd h.1 (Nat.not_lt.mpr hin)).2

/-- 2³⁰ words at the start of the storage are accepted, and so is an empty region, which costs a block of the storage whether it
starts at the first byte or inside a block. -/
theorem erase_not_sparing :
    ¬Sparing (workingChip ⟨1024, 128, by decide, by decide⟩) ⟨1024, 128, by decide, by decide⟩ (fun _ => 0) 0 (2 ^ 30) ∧
      ¬Sparing (workingChip ⟨1024, 128, by decide, by decide⟩) ⟨1024, 128, by decide, by decide⟩ (fun _ => 0) 0 0 ∧
      ¬Sparing (workingChip ⟨1024, 128, by decide, by decide⟩) ⟨1024, 128, by decide, by decide⟩ (fun _ => 0) 4 0 :=
  ⟨not_sparing_of_wrap _ _ (by decide) (by decide), not_sparing_of_empty _ _ (by decide) (by decide),
    not_sparing_of_empty _ _ (by decide) (by decide)⟩

/-- The loop over an empty region at the start of the storage never ends, if the chip answers and the block size is a power of
two: the pages wrap around before they pass the last one. -/
theorem erase_empty_never_ends (chip : InterfaceChip State) (hanswers : ∀ s request n, (chip.transact s request n).1 ≠ [])
    (hb : g.blockSize ∣ 2 ^ 32) (s : State) : erase chip g s 0 0 = none := by
  have hb16 := g.blockSize_lt
  have hpos : 0 < g.blockSize := Nat.pos_of_dvd_of_pos hb (by decide)
  have hloop : ∀ fuel (s : State) page, page < 2 ^ 32 → g.blockSize ∣ page →
      eraseLoop chip g.blockSize (2 ^ 32 - g.blockSize) s page fuel = none := by
    intro fuel
    induction fuel with
    | zero => exact fun s page _ _ => rfl
    | succ fuel ih =>
      intro s page hlt hd
      have hle : page + g.blockSize ≤ 2 ^ 32 := by
        obtain ⟨k, hk⟩ := Nat.dvd_sub hb hd
        have : 0 < k := Nat.pos_of_ne_zero fun h0 => by
          rw [h0, Nat.mul_zero] at hk
          omega
        have := Nat.le_mul_of_pos_right g.blockSize this
        omega
      rw [eraseLoop, if_pos (by omega)]
      dsimp only
      rw [if_neg (hanswers _ _ _)]
      refine ih _ _ ?_ ?_
      · unfold u32
        split <;> omega
      · unfold u32
        split
        · exact Nat.dvd_add hd (Nat.dvd_refl _)
        · rw [Nat.dvd_mod_iff hb]
          exact Nat.dvd_add hd (Nat.dvd_refl _)
  have hend : u32sub 0 g.blockSize = 2 ^ 32 - g.blockSize := by
    unfold u32sub
    split <;> omega
  have hzero : u32 0 = 0 := rfl
  have hnone : ∀ s, eraseLoop chip g.blockSize (2 ^ 32 - g.blockSize) s 0 addresses = none :=
    fun s => hloop _ s 0 (by decide) (Nat.dvd_zero _)
  simp only [erase, Nat.zero_mul, Nat.add_zero, hzero, Nat.zero_div, Nat.zero_mod, if_true, hend, hnone]
  simp

end USBFlashManager

end CodalMicrobit

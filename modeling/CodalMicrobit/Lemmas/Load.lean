import CodalMicrobit.Lemmas.Format

/-!
# Loading a log

What `init` makes of a log it finds: the last journal entry says where the data ends at least, the walk from there stops
at the first erased byte, and the headings are read from behind the metadata. Loading only reads, so it leaves the flash
alone and fills the cache with what the flash holds.
-/

namespace CodalMicrobit

open Nor Outcome FSCache

namespace Log

variable {g : Geometry}

/-- The cache after reads of any kind: over the same flash, and faithful to it. -/
def Fills (c c' : FSCache g CONFIG_MICROBIT_LOG_CACHE_BLOCK_SIZE 4) : Prop := c'.flash = c.flash ∧ c'.Faithful

theorem Fills.trans {c c' c'' : FSCache g CONFIG_MICROBIT_LOG_CACHE_BLOCK_SIZE 4} (h : Fills c c') (h' : Fills c' c'') :
    Fills c c'' :=
  ⟨h'.1.trans h.1, h'.2⟩

/-- A read through the cache. Inside the storage it gives the flash's bytes. -/
theorem cacheRead_spec (hg : g.Fits) {s : Log g} (h : s.cache.Faithful) (a : Nat) (buffer : List UInt8) :
    ∃ bytes c, s.cacheRead a buffer = (bytes, { s with cache := c }) ∧ Fills s.cache c ∧
      (a + buffer.length < g.getFlashEnd → bytes = slice s.mem a buffer.length) := by
  have h4 : 4 ∣ CONFIG_MICROBIT_LOG_CACHE_BLOCK_SIZE := by decide
  have hf := read_faithful h4 hg.block_dvd_flashEnd h a buffer.length
  have hb : a + buffer.length < g.getFlashEnd →
      ∃ c, s.cache.read a buffer.length = (.DEVICE_OK, slice s.mem a buffer.length, c) := fun ha => by
    obtain ⟨c, hc, -⟩ := read_spec (by decide) h4 hg.block_dvd_flashEnd s.cache h.1 h.2 ha fun x _ hx => by omega
    exact ⟨c, hc⟩
  obtain ⟨⟨code, bytes, c⟩, hr⟩ : ∃ r, s.cache.read a buffer.length = r := ⟨_, rfl⟩
  rw [hr] at hf hb
  unfold cacheRead
  rw [hr]
  cases code with
  | DEVICE_OK =>
    refine ⟨bytes, c, rfl, hf, fun ha => ?_⟩
    obtain ⟨c', hc'⟩ := hb ha
    exact (Prod.mk.inj (Prod.mk.inj hc').2).1
  | DEVICE_INVALID_PARAMETER | DEVICE_NOT_SUPPORTED | DEVICE_NO_RESOURCES | DEVICE_INVALID_STATE | DEVICE_I2C_ERROR =>
    refine ⟨buffer, c, rfl, hf, fun ha => ?_⟩
    obtain ⟨c', hc'⟩ := hb ha
    nomatch (Prod.mk.inj hc').1

/-! ## The journal -/

/-- The number that the journal entry at the address gives. -/
def slotValue (m : Memory) (a : Nat) : Nat := strtoul (cString (slice m a MICROBIT_LOG_JOURNAL_ENTRY_SIZE))

/-- The address of a journal entry. -/
structure IsSlot (g : Geometry) (a : Nat) : Prop where
  dvd : MICROBIT_LOG_JOURNAL_ENTRY_SIZE ∣ a
  le : g.journalStart ≤ a
  lt : a < g.dataStart

/-- No journal entry gives a number above `n`. -/
def JournalBound (g : Geometry) (m : Memory) (n : Nat) : Prop := ∀ a, IsSlot g a → slotValue m a ≤ n

/-- A larger bound holds too. -/
theorem JournalBound.mono {m : Memory} {n n' : Nat} (h : JournalBound g m n) (hn : n ≤ n') : JournalBound g m n' :=
  fun a ha => (h a ha).trans hn

/-- The journal starts with a slot. -/
theorem slot_journalStart (hg : g.Fits) : IsSlot g g.journalStart := by
  have hds := g.dataStart_eq
  have hpos := hg.pos
  exact ⟨(by decide : 8 ∣ 256).trans hg.block_dvd_journalStart, Nat.le_refl _, by omega⟩

/-- The loop over the journal: the head stays at the address of an entry, and `dataEnd` keeps a property that the number of
each entry gives it. -/
theorem loadJournal_keeps (hg : g.Fits) {Q : Nat → Prop} (fuel : Nat) :
    ∀ (s : Log g) (a : Nat) (j : List UInt8) (v : Bool), s.cache.Faithful → s.dataStart = g.dataStart →
      (∀ a, IsSlot g a → Q (u32 (g.dataStart + slotValue s.mem a))) → MICROBIT_LOG_JOURNAL_ENTRY_SIZE ∣ a →
      g.journalStart ≤ a → j.length = MICROBIT_LOG_JOURNAL_ENTRY_SIZE → IsSlot g s.journalHead → Q s.dataEnd →
      ∃ c head e, s.loadJournal a j v fuel = { s with cache := c, journalHead := head, dataEnd := e } ∧
        Fills s.cache c ∧ IsSlot g head ∧ Q e := by
  have hord := hg.order
  have hds := g.dataStart_eq
  induction fuel with
  | zero =>
    intro s a j v hf _ _ _ _ _ hh hQ
    exact ⟨s.cache, s.journalHead, s.dataEnd, rfl, ⟨rfl, hf⟩, hh, hQ⟩
  | succ fuel ih =>
    intro s a j v hf hstart hb hd ha hj hh hQ
    unfold loadJournal
    split
    · rename_i hlt
      rw [hstart] at hlt
      obtain ⟨bytes, c, hread, hc, hbytes⟩ := cacheRead_spec hg hf a j
      have hin : a + j.length < g.getFlashEnd := by rw [hj]; unfold MICROBIT_LOG_JOURNAL_ENTRY_SIZE; omega
      have hbytes := hbytes hin
      have hmem : c.flash.mem = s.mem := by rw [hc.1]
      rw [hread]
      dsimp only
      have hlen : bytes.length = MICROBIT_LOG_JOURNAL_ENTRY_SIZE := by rw [hbytes, slice_length, hj]
      have hd' : MICROBIT_LOG_JOURNAL_ENTRY_SIZE ∣ a + MICROBIT_LOG_JOURNAL_ENTRY_SIZE := Nat.dvd_add hd (Nat.dvd_refl _)
      have ha' : g.journalStart ≤ a + MICROBIT_LOG_JOURNAL_ENTRY_SIZE := Nat.le_add_right_of_le ha
      split
      · exact ⟨c, _, _, rfl, hc, hh, hQ⟩
      · split
        · -- the entry is not all zeroes: it gives a number
          have hval : Q (u32 (s.dataStart + strtoul (cString bytes))) := by
            rw [hbytes, hj, hstart]
            exact hb a ⟨hd, ha, hlt⟩
          obtain ⟨c', head, e, heq, hc', hrest⟩ := ih
            { s with cache := c, journalHead := a, dataEnd := u32 (s.dataStart + strtoul (cString bytes)) }
            (a + MICROBIT_LOG_JOURNAL_ENTRY_SIZE) bytes true hc.2 hstart (by rw [LogState.mem, hmem]; exact hb) hd' ha' hlen
            ⟨hd, ha, hlt⟩ hval
          exact ⟨c', head, e, heq, hc.trans hc', hrest⟩
        · obtain ⟨c', head, e, heq, hc', hrest⟩ := ih { s with cache := c } (a + MICROBIT_LOG_JOURNAL_ENTRY_SIZE) bytes v
            hc.2 hstart (by rw [LogState.mem, hmem]; exact hb) hd' ha' hlen hh hQ
          exact ⟨c', head, e, heq, hc.trans hc', hrest⟩
    · exact ⟨s.cache, s.journalHead, s.dataEnd, rfl, ⟨rfl, hf⟩, hh, hQ⟩

/-- The walk stops at the first erased byte, or at the end of the data area. -/
theorem walkData_spec (hg : g.Fits) (fuel : Nat) :
    ∀ (s : Log g) (d : UInt8), s.cache.Faithful → s.logEnd = g.logEnd → s.dataEnd ≤ g.logEnd →
      g.logEnd - s.dataEnd ≤ fuel →
      ∃ c e, s.walkData d fuel = { s with cache := c, dataEnd := e } ∧ Fills s.cache c ∧ s.dataEnd ≤ e ∧ e ≤ g.logEnd ∧
        (∀ x, s.dataEnd ≤ x → x < e → s.mem x ≠ blank) ∧ (e < g.logEnd → s.mem e = blank) := by
  have hord := hg.order
  induction fuel with
  | zero =>
    intro s d hf _ h1 h2
    exact ⟨s.cache, s.dataEnd, rfl, ⟨rfl, hf⟩, Nat.le_refl _, h1, fun x _ _ => by omega, fun _ => by omega⟩
  | succ fuel ih =>
    intro s d hf hend h1 h2
    unfold walkData
    split
    · rename_i hlt
      rw [hend] at hlt
      obtain ⟨bytes, c, hread, hc, hbytes⟩ := cacheRead_spec hg hf s.dataEnd [d]
      have hbytes : bytes = [s.mem s.dataEnd] := (hbytes (by rw [List.length_singleton]; omega)).trans (by simp [slice])
      have hmem : c.flash.mem = s.mem := by rw [hc.1]
      have hd : bytes.headD d = s.mem s.dataEnd := by rw [hbytes]; rfl
      rw [hread]
      dsimp only
      rw [hd]
      by_cases hblank : s.mem s.dataEnd = 0xFF
      · rw [if_pos hblank]
        exact ⟨c, s.dataEnd, rfl, hc, Nat.le_refl _, h1, fun x _ _ => by omega, fun _ => hblank⟩
      · rw [if_neg hblank]
        obtain ⟨c', e, heq, hc', h3, h4, h5, h6⟩ := ih { s with cache := c, dataEnd := s.dataEnd + 1 } (s.mem s.dataEnd)
          hc.2 hend (by exact hlt) (by dsimp only; omega)
        rw [LogState.mem, hmem] at h5 h6
        dsimp only at h3 h5
        refine ⟨c', e, heq, hc.trans hc', by omega, h4, fun x hx1 hx2 => ?_, h6⟩
        rcases Nat.eq_or_lt_of_le hx1 with rfl | hx1
        · exact hblank
        · exact h5 x hx1 hx2
    · rename_i hlt
      rw [hend] at hlt
      exact ⟨s.cache, s.dataEnd, rfl, ⟨rfl, hf⟩, Nat.le_refl _, h1, fun x _ _ => by omega, fun _ => by omega⟩

/-- A walk from behind the end of the data area stays where it is. -/
theorem walkData_beyond {s : Log g} (h : s.logEnd < s.dataEnd) (d : UInt8) (fuel : Nat) : s.walkData d fuel = s := by
  cases fuel with
  | zero => rfl
  | succ fuel => exact if_neg (Nat.not_lt.mpr (Nat.le_of_lt h))

/-- The addresses of a log whose layout is that of `clear`. -/
structure LaidOut (s : Log g) : Prop where
  startAddress : s.startAddress = g.logStart
  journalStart : s.journalStart = g.journalStart
  dataStart : s.dataStart = g.dataStart
  logEnd : s.logEnd = g.logEnd

/-- Finding the end of the data: the journal says where to begin at least, and from there the walk goes on up to the first
erased byte. -/
theorem loadDataEnd_spec (hg : g.Fits) {s : Log g} (h : s.cache.Faithful) (hl : s.LaidOut) {Q : Nat → Prop}
    (h0 : Q g.dataStart) (hQ : ∀ a, IsSlot g a → Q (u32 (g.dataStart + slotValue s.mem a))) :
    ∃ c pages head b e, s.loadDataEnd = { s with cache := c, journalPages := pages, journalHead := head, dataEnd := e } ∧
      Fills s.cache c ∧ IsSlot g head ∧ Q b ∧
        (b ≤ g.logEnd → b ≤ e ∧ e ≤ g.logEnd ∧ (∀ x, b ≤ x → x < e → s.mem x ≠ blank) ∧ (e < g.logEnd → s.mem e = blank)) := by
  obtain ⟨s₁, hs₁⟩ : ∃ s₁ : Log g, s₁ = { s with
    journalPages := u32sub (u32sub s.dataStart s.startAddress / g.getPageSize) 1
    journalHead := s.journalStart, dataEnd := s.dataStart } := ⟨_, rfl⟩
  have hslot : IsSlot g s.journalStart := hl.journalStart ▸ slot_journalStart hg
  obtain ⟨c, head, b, heq, hc, hhead, hb⟩ := loadJournal_keeps hg s.dataStart s₁ s.journalStart
    (List.replicate MICROBIT_LOG_JOURNAL_ENTRY_SIZE '0'.toUInt8) false (hs₁ ▸ h) (by rw [hs₁]; exact hl.dataStart)
    (by rw [hs₁]; exact hQ) hslot.dvd hslot.le List.length_replicate (by rw [hs₁]; exact hslot)
    (by rw [hs₁]; exact hl.dataStart ▸ h0)
  obtain ⟨s₂, hs₂⟩ : ∃ s₂ : Log g, s₂ = { s₁ with cache := c, journalHead := head, dataEnd := b } := ⟨_, rfl⟩
  have hload : s.loadDataEnd = s₂.walkData 0 s₂.logEnd := by
    rw [hs₂, ← heq, hs₁]
    rfl
  have hend : s₂.logEnd = g.logEnd := by
    rw [hs₂, hs₁]
    exact hl.logEnd
  have hmem : s₂.mem = s.mem := by
    rw [hs₂, LogState.mem]
    dsimp only
    rw [hc.1, hs₁]
  have hfaith : s₂.cache.Faithful := by rw [hs₂]; exact hc.2
  have hfills : Fills s.cache s₂.cache := by
    rw [hs₁] at hc
    rw [hs₂]
    exact hc
  have hb₂ : s₂.dataEnd = b := by rw [hs₂]
  rw [hload]
  by_cases hle : b ≤ g.logEnd
  · obtain ⟨c', e, heq', hc', h1, h2, h3, h4⟩ := walkData_spec hg s₂.logEnd s₂ 0 hfaith hend (hb₂ ▸ hle) (by omega)
    rw [hb₂, hmem] at h3
    rw [hmem] at h4
    refine ⟨c', s₁.journalPages, head, b, e, ?_, hfills.trans hc', hhead, hb, fun _ => ⟨hb₂ ▸ h1, h2, h3, h4⟩⟩
    rw [heq', hs₂, hs₁]
  · refine ⟨c, s₁.journalPages, head, b, b, ?_, ?_, hhead, hb, fun h => absurd h hle⟩
    · rw [walkData_beyond (by omega), hs₂, hs₁]
    · rw [hs₂] at hfills
      exact hfills

end Log

end CodalMicrobit

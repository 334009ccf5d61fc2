import CodalMicrobit.Lemmas.Headings
import CodalMicrobit.Lemmas.Reload

/-!
# What a later start finds

A later start trusts what is on the flash: the layout in the metadata, the numbers in the journal, and the end of the
headings. Here is what the flash keeps to so that loading it gives a log whose addresses are where they belong, and that
moving the journal on and storing headings that fit keep it so. A page of the journal that was erased may have left stale
blocks in the cache; but where the flash is not erased, the cache agrees with it.
-/

namespace CodalMicrobit

open Nor Outcome FSCache

namespace Log

variable {g : Geometry}

/-! ## Journal entries -/

/-- The flash's byte `m` is erased, or the cached one is the same. -/
def ErasedOrSame (p m : UInt8) : Prop := m = blank ∨ p = m

/-- The addresses of the journal. -/
def InJournal (g : Geometry) (x : Nat) : Prop := g.journalStart ≤ x ∧ x < g.dataStart

/-- The value of a slot depends on its own bytes only. -/
theorem slotValue_congr {m m' : Memory} {a : Nat}
    (h : ∀ x, a ≤ x → x < a + MICROBIT_LOG_JOURNAL_ENTRY_SIZE → m x = m' x) : slotValue m a = slotValue m' a :=
  congrArg (fun b => strtoul (cString b)) (slice_congr h)

/-- The value of a slot is the number written there. -/
theorem slotValue_put (m : Memory) (a : Nat) {t : List UInt8} (ht : t.length = MICROBIT_LOG_JOURNAL_ENTRY_SIZE) :
    slotValue (put m a t) a = strtoul (cString t) := by
  unfold slotValue
  rw [← ht, slice_put]

/-- An erased entry gives no number. -/
theorem slotValue_blank {m : Memory} {a : Nat} (h : Blank m a (a + MICROBIT_LOG_JOURNAL_ENTRY_SIZE)) :
    slotValue m a = 0 := by
  have hs : slice m a MICROBIT_LOG_JOURNAL_ENTRY_SIZE = List.replicate MICROBIT_LOG_JOURNAL_ENTRY_SIZE 0xFF := by
    refine List.eq_replicate_iff.mpr ⟨slice_length _ _ _, fun b hb => ?_⟩
    obtain ⟨k, hk, rfl⟩ := List.mem_map.mp hb
    exact h _ (Nat.le_add_right _ _) (Nat.add_lt_add_left (List.mem_range.mp hk) a)
  unfold slotValue
  rw [hs]
  decide

/-- Two slots do not overlap. -/
theorem IsSlot.apart {a b : Nat} (ha : IsSlot g a) (hb : IsSlot g b) (hne : a ≠ b) :
    a + MICROBIT_LOG_JOURNAL_ENTRY_SIZE ≤ b ∨ b + MICROBIT_LOG_JOURNAL_ENTRY_SIZE ≤ a :=
  block_disjoint ha.dvd hb.dvd hne

/-- Slots end in the journal. -/
theorem IsSlot.end_le (hg : g.Fits) {a : Nat} (h : IsSlot g a) : a + MICROBIT_LOG_JOURNAL_ENTRY_SIZE ≤ g.dataStart :=
  add_le_of_dvd h.dvd ((by decide : 8 ∣ 256).trans hg.block_dvd_dataStart) h.lt

/-- The bound on the journal depends on the journal only. -/
theorem JournalBound.congr (hg : g.Fits) {m m' : Memory} {n : Nat} (h : JournalBound g m n)
    (he : ∀ x, InJournal g x → m' x = m x) : JournalBound g m' n := by
  intro a ha
  have hend := ha.end_le hg
  have hle := ha.le
  rw [slotValue_congr fun x h1 h2 => he x ⟨by omega, by omega⟩]
  exact h a ha

/-- Writing an entry that gives a number up to the bound. -/
theorem JournalBound.put {m : Memory} {n a : Nat} {t : List UInt8} (h : JournalBound g m n) (ha : IsSlot g a)
    (ht : t.length = MICROBIT_LOG_JOURNAL_ENTRY_SIZE) (hv : strtoul (cString t) ≤ n) : JournalBound g (put m a t) n := by
  intro b hb
  by_cases hab : b = a
  · rw [hab, slotValue_put m a ht]
    exact hv
  · rw [slotValue_congr fun x h1 h2 => put_of_not_mem m t (by have := hb.apart ha hab; omega)]
    exact h b hb

/-- Erasing a page. -/
theorem JournalBound.erase (hg : g.Fits) {m : Memory} {n page : Nat} (h : JournalBound g m n)
    (hd : g.getPageSize ∣ page) : JournalBound g (Nor.erase m page g.getPageSize) n := by
  intro a ha
  have h8 : MICROBIT_LOG_JOURNAL_ENTRY_SIZE ∣ g.getPageSize := (by decide : 8 ∣ 256).trans hg.block_dvd
  by_cases hin : page ≤ a ∧ a < page + g.getPageSize
  · have hend := add_le_of_dvd ha.dvd (Nat.dvd_add (h8.trans hd) h8) hin.2
    have hblank : Blank (Nor.erase m page g.getPageSize) a (a + MICROBIT_LOG_JOURNAL_ENTRY_SIZE) :=
      fun x h1 h2 => if_pos ⟨by omega, by omega⟩
    rw [slotValue_blank hblank]
    exact Nat.zero_le n
  · have hout : a + MICROBIT_LOG_JOURNAL_ENTRY_SIZE ≤ page ∨ page + g.getPageSize ≤ a := by
      rcases Nat.lt_or_ge a page with hlt | hge
      · exact Or.inl (add_le_of_dvd ha.dvd (h8.trans hd) hlt)
      · exact Or.inr (by omega)
    have hsame : slotValue (Nor.erase m page g.getPageSize) a = slotValue m a :=
      slotValue_congr fun x h1 h2 => if_neg (by omega)
    rw [hsame]
    exact h a ha

/-- Writing one entry, where the cache agrees with what is not erased of the journal: it is refused, or its two words go
to the flash one after the other. -/
theorem writeEntry_put (hg : g.Fits) {s : Log g} (h : s.Placed) {a : Nat} {t : List UInt8} (ha : IsSlot g a)
    (ht : t.length = MICROBIT_LOG_JOURNAL_ENTRY_SIZE) (hc : Agrees ErasedOrSame s.cache (InJournal g)) :
    Agrees ErasedOrSame (s.writeEntry a t).cache (InJournal g) ∧
      ∃ ops, s.cache.flash.After ops (s.writeEntry a t).cache.flash ∧
        (ops = [] ∨ ∀ n, replay s.mem (ops.take n) = put s.mem a (t.take (4 * min n 2))) := by
  have hord := hg.order
  have hend := ha.end_le hg
  have hd : (8 : Nat) ∣ a := ha.dvd
  have h8 : MICROBIT_LOG_JOURNAL_ENTRY_SIZE = 8 := rfl
  obtain ⟨c, hcdef⟩ : ∃ c, c = (s.cache.write a t).2 := ⟨_, rfl⟩
  have hcache : (s.writeEntry a t).cache = c := by rw [hcdef]; rfl
  rw [hcache]
  have hfit : t.length ≤ 256 - a % 256 := by omega
  rcases write_block (by decide) (by decide) hg.block_dvd_flashEnd s.cache h.nodup (a := a) (t := t)
    (by rintro rfl; simp [h8] at ht) (by omega) (by omega) hfit (by omega) with
    ⟨c', hw, hf⟩ | ⟨c', p, src, hw, hsrc, hwrote, hp, hleg, hload⟩
  · rw [hw] at hcdef
    rw [hcdef]
    exact ⟨hf.agrees (fun x => Or.inr rfl) hc, [], hf.flash_eq ▸ Flash.After.refl _, Or.inl rfl⟩
  · rw [hw] at hcdef
    rw [hcdef]
    obtain ⟨hdvd, hsum, hlt⟩ := block_facts (a := a) (by decide : 0 < 256)
    have hleg : ∀ k (hk : k < t.length), Legal (p (a % 256 + k)) t[k] := hleg
    have hload : ∀ b q, c'.Loaded b q → b = a / 256 * 256 ∧ q = put p (a % 256) t ∨
        b ≠ a / 256 * 256 ∧ s.cache.Loaded b q := hload
    -- the bytes of the paged block, on the journal
    have hpage : ∀ k, k < 256 → InJournal g (a / 256 * 256 + k) →
        ErasedOrSame (p k) (s.mem (a / 256 * 256 + k)) := by
      intro k hk hx
      rcases hp with hp | hp
      · exact hc _ p hdvd hp k hk hx
      · exact Or.inr (hp k hk)
    have hlegal : ∀ k (hk : k < t.length), Legal (s.mem (a + k)) t[k] := by
      intro k hk
      have hx : InJournal g (a + k) := ⟨by have := ha.le; omega, by omega⟩
      have hb := hpage (a % 256 + k) (by omega) (by rw [← Nat.add_assoc, hsum]; exact hx)
      rw [← Nat.add_assoc, hsum] at hb
      rcases hb with hb | hb
      · rw [hb]
        exact legal_blank _
      · rw [← hb]
        exact hleg k hk
    have htake : ∀ n, replay s.mem ((programWords 4 a (t.length / 4) src).take n) =
        put s.mem a (t.take (4 * min n 2)) := by
      intro n
      have hlen : (t.take (4 * min n 2)).length = 4 * min n 2 := by rw [List.length_take]; omega
      have hput := program_eq_put (m := s.mem) (a := a) (t := t.take (4 * min n 2))
        (fun k hk => by rw [List.getElem_take]; exact hsrc k (by omega))
        (fun k hk => by rw [List.getElem_take]; exact hlegal k (by omega))
      rw [programWords_take, replay_programWords, ht, h8, ← hput, hlen]
    have hmem : c'.flash.mem = put s.mem a t := by
      have hfull := htake 2
      rw [List.take_of_length_le (by rw [programWords_length, ht, h8]), List.take_of_length_le (by omega)] at hfull
      exact hwrote.after.1.trans hfull
    refine ⟨fun b q hb hq k (hk : k < 256) hx => ?_, _, hwrote.after, Or.inr htake⟩
    rw [hmem]
    rcases hload b q hq with ⟨rfl, rfl⟩ | ⟨hne, hq⟩
    · by_cases hin : a ≤ a / 256 * 256 + k ∧ a / 256 * 256 + k < a + t.length
      · right
        rw [put_of_mem s.mem t hin.1 (by omega), put_of_mem p t (by omega) (by omega)]
        congr 1
        omega
      · rw [put_of_not_mem s.mem t hin, put_of_not_mem p t (by omega)]
        exact hpage k hk hx
    · have hdis : b + 256 ≤ a / 256 * 256 ∨ a / 256 * 256 + 256 ≤ b := block_disjoint hb hdvd hne
      rw [put_of_not_mem s.mem t (by omega)]
      exact hc b q hb hq k hk hx

/-- Moving the head on, where the cache agrees with what is not erased of the journal. -/
theorem advanceJournal_agrees (hg : g.Fits) {s : Log g} (h : s.Placed)
    (hc : Agrees ErasedOrSame s.cache (InJournal g)) :
    Agrees ErasedOrSame s.advanceJournal.cache (InJournal g) ∧
      ∀ n, JournalBound g s.mem n → JournalBound g s.advanceJournal.mem n := by
  obtain ⟨ops, hafter, -, -, -, hload, -, hops⟩ := advanceJournal_spec hg h
  have hmem : s.advanceJournal.mem = replay s.mem ops := hafter.1
  rcases hops with ⟨rfl, hpage, hnext⟩ | ⟨rfl, hd⟩
  · have hmem : s.advanceJournal.mem = s.mem := hmem
    refine ⟨fun b q hb hq k hk hx => ?_, fun n hn => hmem ▸ hn⟩
    rw [← LogState.mem, hmem]
    rcases hload b q hq with ⟨rfl, hd, -⟩ | hq
    · -- the head stays on its page, so it is not at the start of one
      have h1 := Geometry.pageEnd_of_dvd hg.pos hd
      have h2 := Geometry.pageEnd_bounds hg.pos s.journalHead
      omega
    · exact hc b q hb hq k hk hx
  · have hmem : s.advanceJournal.mem = Nor.erase s.mem s.nextHead g.getPageSize := hmem
    refine ⟨fun b q hb hq k hk hx => ?_, fun n hn => ?_⟩
    · rw [← LogState.mem, hmem]
      by_cases hin : s.nextHead ≤ b + k ∧ b + k < s.nextHead + g.getPageSize
      · exact Or.inl (if_pos hin)
      · have hsame : Nor.erase s.mem s.nextHead g.getPageSize (b + k) = s.mem (b + k) := if_neg hin
        rw [hsame]
        rcases hload b q hq with ⟨rfl, -, -⟩ | hq
        · have : 256 ≤ g.getPageSize := hg.block_le_page
          have : k < 256 := hk
          omega
        · exact hc b q hb hq k hk hx
    · rw [hmem]
      exact hn.erase hg hd

/-- Moving the journal on keeps the bound of its entries, and the agreement. -/
theorem writeJournal_agrees (hg : g.Fits) {s : Log g} (h : s.Placed) (hc : Agrees ErasedOrSame s.cache (InJournal g)) :
    Agrees ErasedOrSame s.writeJournal.cache (InJournal g) ∧
      ∀ n, s.dataEnd - s.dataStart ≤ n → JournalBound g s.mem n → JournalBound g s.writeJournal.mem n := by
  obtain ⟨hc₁, hb₁⟩ := advanceJournal_agrees hg h hc
  obtain ⟨-, -, hjo₁, hhead₁, hp₁, -, -, -⟩ := advanceJournal_spec hg h
  obtain ⟨s₁, hs₁⟩ : ∃ s₁, s₁ = s.advanceJournal := ⟨_, rfl⟩
  rw [← hs₁] at hc₁ hb₁ hjo₁ hhead₁ hp₁
  obtain ⟨hn1, hn2, hn3⟩ := nextHead_facts hg h
  have hslot : IsSlot g s₁.journalHead := hhead₁ ▸ ⟨hn1, hn2, hn3⟩
  obtain ⟨entry, hentry⟩ : ∃ entry, entry = writeNum s₁.journalLength := ⟨_, rfl⟩
  have hlen : entry.length = MICROBIT_LOG_JOURNAL_ENTRY_SIZE := hentry ▸ writeNum_length _
  obtain ⟨hc₂, ops₂, hafter₂, hops₂⟩ := writeEntry_put hg hp₁ hslot hlen hc₁
  obtain ⟨-, -, -, -, hp₂, -, -, -⟩ := writeEntry_spec hg hp₁ hn1 hn3 hlen
  obtain ⟨s₂, hs₂⟩ : ∃ s₂, s₂ = s₁.writeEntry s₁.journalHead entry := ⟨_, rfl⟩
  rw [hhead₁] at hs₂ hc₂ hafter₂ hops₂ hslot
  rw [← hs₂] at hc₂ hafter₂ hp₂
  obtain ⟨hc₃, ops₃, hafter₃, hops₃⟩ := writeEntry_put hg hp₂ (a := s.journalHead)
    (t := List.replicate MICROBIT_LOG_JOURNAL_ENTRY_SIZE 0) ⟨h.head_dvd, h.le_head, h.head_lt⟩ List.length_replicate hc₂
  have heq : s.writeJournal = s₂.writeEntry s.journalHead (List.replicate MICROBIT_LOG_JOURNAL_ENTRY_SIZE 0) := by
    rw [hs₂, hentry, ← hhead₁, hs₁]
    rfl
  rw [heq]
  -- an entry that is written is written whole
  have hwhole : ∀ {m m' : Memory} {a : Nat} {t : List UInt8} {ops : List Op} {n : Nat},
      t.length = MICROBIT_LOG_JOURNAL_ENTRY_SIZE → m' = replay m ops →
      (ops = [] ∨ ∀ n, replay m (ops.take n) = put m a (t.take (4 * min n 2))) → IsSlot g a →
      strtoul (cString t) ≤ n → JournalBound g m n → JournalBound g m' n := by
    intro m m' a t ops n ht hm hops ha hv hb
    rw [hm]
    rcases hops with rfl | hops
    · exact hb
    · have hfull := hops (ops.length + 2)
      have h8 : MICROBIT_LOG_JOURNAL_ENTRY_SIZE = 8 := rfl
      rw [List.take_of_length_le (by omega), List.take_of_length_le (by omega)] at hfull
      rw [hfull]
      exact hb.put ha ht hv
  refine ⟨hc₃, fun n hn hb => ?_⟩
  have hord := hg.order
  have hle : strtoul (cString entry) ≤ n := by
    have hjl : s₁.journalLength ≤ s.dataEnd - s.dataStart := by
      have hsame : s₁.dataEnd = s.dataEnd ∧ s₁.dataStart = s.dataStart := by
        rw [hjo₁]
        exact ⟨rfl, rfl⟩
      unfold journalLength
      rw [hsame.1, hsame.2]
      exact Nat.div_mul_le_self _ _
    have hend := h.dataEnd_le
    rw [hentry, strtoul_writeNum (by omega)]
    omega
  have hzero : strtoul (cString (List.replicate MICROBIT_LOG_JOURNAL_ENTRY_SIZE 0)) ≤ n := by
    have : strtoul (cString (List.replicate MICROBIT_LOG_JOURNAL_ENTRY_SIZE 0)) = 0 := by decide
    omega
  exact hwhole List.length_replicate hafter₃.1 hops₃ ⟨h.head_dvd, h.le_head, h.head_lt⟩ hzero
    (hwhole hlen hafter₂.1 hops₂ hslot hle (hb₁ n hb))

/-! ## The end of the headings -/

/-- What is stored of headings ends with a byte that is not zero, and the rest of the page is erased. -/
def HeadingsEnd (g : Geometry) (m : Memory) : Prop :=
  ∃ y, g.logStart + metaDataSize ≤ y ∧ y ≤ g.journalStart ∧ Blank m y g.journalStart ∧
    (y = g.logStart + metaDataSize ∨ m (y - 1) ≠ 0)

/-- So there is a first byte behind the metadata that is not zero. -/
theorem HeadingsEnd.first (hg : g.Fits) {m : Memory} (h : HeadingsEnd g m) : ∃ k,
    g.logStart + metaDataSize + k < g.journalStart ∧ m (g.logStart + metaDataSize + k) ≠ 0 ∧
      ∀ j, j < k → m (g.logStart + metaDataSize + j) = 0 := by
  obtain ⟨y, h1, h2, hblank, hy⟩ := h
  have hjs := g.journalStart_eq
  have hps : 256 ≤ g.getPageSize := hg.block_le_page
  have h40 : metaDataSize = 40 := rfl
  obtain ⟨k, hk, hne⟩ : ∃ k, g.logStart + metaDataSize + k < g.journalStart ∧ m (g.logStart + metaDataSize + k) ≠ 0 := by
    by_cases heq : y = g.logStart + metaDataSize
    · refine ⟨0, by omega, ?_⟩
      rw [hblank _ (by omega) (by omega)]
      decide
    · refine ⟨y - 1 - (g.logStart + metaDataSize), by omega, ?_⟩
      rw [Nat.add_sub_cancel' (by omega)]
      exact hy.resolve_left heq
  have hex : ∃ k, m (g.logStart + metaDataSize + k) ≠ 0 := ⟨k, hne⟩
  have hle := Nat.find_min' hex hne
  exact ⟨Nat.find hex, by omega, Nat.find_spec hex, fun j hj => not_not.mp (Nat.find_min hex hj)⟩

/-- Zeroing the old headings and writing new ones behind them, in the page, or only zeroing them where the flash cannot
take the new ones. -/
theorem HeadingsEnd.store {m m₁ : Memory} (h : HeadingsEnd g m) {a l : Nat} {t : List UInt8} {b : UInt8}
    (ha : g.logStart + metaDataSize ≤ a) (hfit : a + l + (t ++ [b]).length ≤ g.journalStart) (hb : b ≠ 0)
    (hm : m₁ = put m a (List.replicate l 0)) :
    HeadingsEnd g (put m₁ (a + l) (t ++ [b])) ∧
      ((¬∀ k (hk : k < (t ++ [b]).length), Legal (m₁ (a + l + k)) (t ++ [b])[k]) → HeadingsEnd g m₁) := by
  obtain ⟨y, h1, h2, hblank, hy⟩ := h
  have hlen : (t ++ [b]).length = t.length + 1 := by rw [List.length_append]; rfl
  have hsame : ∀ x, a + l ≤ x → m₁ x = m x := fun x hx => by
    rw [hm, put_of_le m _ (by rw [List.length_replicate]; exact hx)]
  refine ⟨?_, fun hleg => ?_⟩
  · by_cases hlt : a + l + (t ++ [b]).length < y
    · refine ⟨y, h1, h2, fun x hx1 hx2 => ?_, Or.inr ?_⟩
      · rw [put_of_le m₁ _ (by omega), hsame x (by omega)]
        exact hblank x hx1 hx2
      · rw [put_of_le m₁ _ (by omega), hsame _ (by omega)]
        exact hy.resolve_left (by omega)
    · refine ⟨a + l + (t ++ [b]).length, by omega, hfit, fun x hx1 hx2 => ?_, Or.inr ?_⟩
      · rw [put_of_le m₁ _ hx1, hsame x (by omega)]
        exact hblank x (by omega) hx2
      · have hpos : a + l + (t ++ [b]).length - 1 = a + l + t.length := by omega
        rw [hpos, put_add m₁ _ _ _ (by omega)]
        simpa using hb
  · -- the byte that cannot be written is not an erased one
    have hex : ∃ k, a + l + k < y := by
      by_contra hno
      refine hleg fun k hk => ?_
      have hge : y ≤ a + l + k := not_lt.mp fun hlt => hno ⟨k, hlt⟩
      rw [hsame _ (by omega), hblank _ hge (by omega)]
      exact legal_blank _
    obtain ⟨k, hk⟩ := hex
    refine ⟨y, h1, h2, fun x hx1 hx2 => ?_, Or.inr ?_⟩
    · rw [hsame x (by omega)]
      exact hblank x hx1 hx2
    · rw [hsame _ (by omega)]
      exact hy.resolve_left (by omega)

/-- Where the headings end depends on their page only. -/
theorem HeadingsEnd.congr {m m' : Memory} (h : HeadingsEnd g m) (hg : g.Fits)
    (he : ∀ x, g.logStart ≤ x → x < g.journalStart → m' x = m x) : HeadingsEnd g m' := by
  obtain ⟨y, h1, h2, hblank, hy⟩ := h
  have hjs := g.journalStart_eq
  have hps : 256 ≤ g.getPageSize := hg.block_le_page
  have h40 : metaDataSize = 40 := rfl
  refine ⟨y, h1, h2, hblank.congr fun x hx1 hx2 => he x (by omega) hx2, hy.imp_right fun hne => ?_⟩
  rw [he _ (by omega) (by omega)]
  exact hne

/-! ## Loading -/

/-- What the flash keeps to where there is a log: it has the layout that `clear` gives, no journal entry gives a number
beyond the end of the data area, and the headings end in their page. -/
structure Sound (g : Geometry) (m : Memory) : Prop where
  metaOk : MetaOk g m
  journal : JournalBound g m (g.logEnd - g.dataStart)
  headings : HeadingsEnd g m

/-- `isPresent` only sets the addresses. -/
theorem isPresent_same {s : Log g} (hi : s.initialized = false) : ∃ a j d e m, s.isPresent.2 =
    { s with startAddress := a, journalStart := j, dataStart := d, logEnd := e, metaData := m } := by
  unfold isPresent
  rw [hi, if_neg Bool.false_ne_true]
  exact ⟨_, _, _, _, _, rfl⟩

/-- On an initialized log `isPresent` does nothing. -/
theorem isPresent_initialized {s : Log g} (hi : s.initialized = true) : s.isPresent = (true, s) := if_pos hi

/-- Whether the bytes of the metadata say that there is a log. -/
def foundIn (g : Geometry) (bytes : List UInt8) : Bool :=
  let m := MicroBitLogMetaData.ofBytes bytes
  let dataStart := strtoul (cString (m.dataStart.set 10 0))
  let logEnd := strtoul (cString (m.logEnd.set 10 0))
  decide (dataStart ≥ g.logStart + 2 * g.getPageSize) && decide (dataStart < logEnd) &&
    decide (logEnd < g.getFlashEnd) && (m.version.set 17 0).take 17 == MICROBIT_LOG_VERSION.take 17

/-- `isPresent` looks at the metadata on the flash. -/
theorem isPresent_eq (hg : g.Fits) {s : Log g} (hi : s.initialized = false) :
    s.isPresent.1 = foundIn g (slice s.mem g.logStart metaDataSize) := by
  have hord := hg.order
  have hds := g.dataStart_eq
  have hjs := g.journalStart_eq
  have hpos := hg.pos
  have hbuffer : slice (s.cache.flash.read (fun k => s.metaData.bytes.getD k 0) g.logStart (metaDataSize / 4)) 0
      metaDataSize = slice s.mem g.logStart metaDataSize := by
    refine List.map_congr_left fun k hk => ?_
    have hk' : k < metaDataSize := List.mem_range.mp hk
    have h40 : metaDataSize = 40 := rfl
    unfold Flash.read
    rw [if_pos (by omega), Nat.zero_add, if_pos (by omega)]
  have hfst : s.isPresent.1 = foundIn g (slice (s.cache.flash.read (fun k => s.metaData.bytes.getD k 0) g.logStart
      (metaDataSize / 4)) 0 metaDataSize) := by
    unfold isPresent foundIn
    rw [hi, if_neg Bool.false_ne_true]
  rw [hfst, hbuffer]

/-- Where the metadata is zeroed, no log is found. -/
theorem isPresent_of_zero (hg : g.Fits) {s : Log g} (hi : s.initialized = false)
    (hz : slice s.mem g.logStart metaDataSize = List.replicate metaDataSize 0) : s.isPresent.1 = false := by
  have hversion : (((MicroBitLogMetaData.ofBytes (List.replicate metaDataSize 0)).version.set 17 0).take 17 ==
      MICROBIT_LOG_VERSION.take 17) = false := by decide
  rw [isPresent_eq hg hi, hz]
  unfold foundIn
  dsimp only
  rw [hversion, Bool.and_false]

/-- Where the addresses are in place, the log is laid out. -/
theorem Placed.laidOut {s : Log g} (h : s.Placed) : s.LaidOut := ⟨h.startAddress, h.journalStart, h.dataStart, h.logEnd⟩

/-- What `invalidate` does where a log is found. -/
theorem invalidate_eq {s u : Log g} (hp : s.isPresent = (true, u)) : s.invalidate =
    { u.setCache .invalidation { u.cache with
        flash := (u.cache.flash.write u.startAddress (fun _ => 0) (metaDataSize / 4)).write u.logEnd (fun _ => 0) 1 } with
      initialized := false } := by
  unfold invalidate
  rw [hp]

/-- Invalidating a log zeroes its metadata, so that it is not found any more. -/
theorem invalidate_gone (hg : g.Fits) {s u : Log g} (hp : s.isPresent = (true, u)) (ha : u.startAddress = g.logStart) :
    s.invalidate.initialized = false ∧ s.invalidate.isPresent.1 = false := by
  have hord := hg.order
  have hds := g.dataStart_eq
  have hjs := g.journalStart_eq
  have hps : 256 ≤ g.getPageSize := hg.block_le_page
  have h40 : metaDataSize = 40 := rfl
  obtain ⟨f₁, hf₁⟩ : ∃ f₁, f₁ = u.cache.flash.write u.startAddress (fun _ => 0) (metaDataSize / 4) := ⟨_, rfl⟩
  have hmem₁ : ∀ x, g.logStart ≤ x → x < g.logStart + metaDataSize → f₁.mem x = 0 := by
    intro x h1 h2
    rw [hf₁, Flash.write_eq _ _ (by rw [ha]; omega)]
    unfold program
    rw [ha]
    exact (if_pos (by omega)).trans UInt8.and_zero
  have hmem : ∀ x, g.logStart ≤ x → x < g.logStart + metaDataSize → (f₁.write u.logEnd (fun _ => 0) 1).mem x = 0 := by
    intro x h1 h2
    unfold Flash.write
    split
    · dsimp only
      unfold program
      split
      · exact UInt8.and_zero
      · exact hmem₁ x h1 h2
    · exact hmem₁ x h1 h2
  rw [invalidate_eq hp, ← hf₁]
  refine ⟨rfl, isPresent_of_zero hg rfl ?_⟩
  refine List.eq_replicate_iff.mpr ⟨slice_length _ _ _, fun b hb => ?_⟩
  obtain ⟨k, hk, rfl⟩ := List.mem_map.mp hb
  exact hmem _ (Nat.le_add_right _ _) (Nat.add_lt_add_left (List.mem_range.mp hk) _)

/-- What invalidating a log with the layout of `clear` records. -/
theorem invalidate_spec (hg : g.Fits) {s u : Log g} (hp : s.isPresent = (true, u)) (hl : u.LaidOut) :
    ∃ ops, s.invalidate.history = u.history ++ [.wrote .invalidation ops] ∧ ∀ o ∈ ops, ∀ x, o.Covers x →
      (g.logStart ≤ x ∧ x < g.logStart + metaDataSize) ∨ (g.logEnd ≤ x ∧ x < g.logEnd + 4) := by
  have hord := hg.order
  have hds := g.dataStart_eq
  have hjs := g.journalStart_eq
  have hps : 256 ≤ g.getPageSize := hg.block_le_page
  have h40 : metaDataSize = 40 := rfl
  obtain ⟨f₁, hf₁⟩ : ∃ f₁, f₁ = u.cache.flash.write u.startAddress (fun _ => 0) (metaDataSize / 4) := ⟨_, rfl⟩
  have hafter₁ : u.cache.flash.After _ f₁ := hf₁ ▸ Flash.after_write _ _ (by rw [hl.startAddress]; omega)
  have hafter₂ : f₁.After _ (f₁.write u.logEnd (fun _ => 0) 1) := Flash.after_write _ _ (by rw [hl.logEnd]; omega)
  rw [invalidate_eq hp, ← hf₁]
  refine ⟨_, setCache_history (hafter₁.trans hafter₂), fun o ho x hx => ?_⟩
  rcases List.mem_append.mp ho with ho | ho
  · have hcov := covers_of_mem_programWords ho hx
    rw [hl.startAddress] at hcov
    exact Or.inl ⟨hcov.1, hcov.2⟩
  · have hcov := covers_of_mem_programWords ho hx
    rw [hl.logEnd] at hcov
    exact Or.inr hcov

/-- Scanning for a delimiter only fills the cache. -/
theorem scan_fills (hg : g.Fits) (stop : UInt8 → Bool) (fuel : Nat) : ∀ (s : Log g) (a : Nat) (c : UInt8),
    s.cache.Faithful → Meets (fun r => ∃ cache, r.2.2 = { s with cache } ∧ Fills s.cache cache) (fun _ => True)
      (s.scan stop a c fuel) := by
  induction fuel with
  | zero => exact fun _ _ _ _ => trivial
  | succ fuel ih =>
    intro s a c h
    obtain ⟨bytes, cache, hread, hc, -⟩ := cacheRead_spec hg h a [c]
    unfold scan
    rw [hread]
    dsimp only
    split
    · exact ⟨cache, rfl, hc⟩
    · refine (ih { s with cache } _ _ hc.2).imp fun r hr => ?_
      obtain ⟨cache', heq, hc'⟩ := hr
      exact ⟨cache', heq, hc.trans hc'⟩

/-- Looking for the end of a heading only fills the cache. -/
theorem headingEnd_fills (hg : g.Fits) {s : Log g} (h : s.cache.Faithful) (a : Nat) (c : UInt8) :
    Meets (fun r => ∃ cache, r.2 = { s with cache } ∧ Fills s.cache cache) (fun _ => True) (s.headingEnd a c) := by
  unfold headingEnd
  split
  · exact ⟨s.cache, rfl, rfl, h⟩
  · exact (scan_fills hg _ _ s _ _ h).bind fun r hr => hr

/-- Parsing the headings fills the cache and the row. -/
theorem parseHeadings_fills (hg : g.Fits) {s : Log g} (h : s.cache.Faithful) (a l : Nat) :
    ∃ cache start row, s.parseHeadings a l =
      { s with cache, headingLength := l, headingStart := start, rowData := row } ∧ Fills s.cache cache ∧
        (start = s.headingStart ∨ start = a) := by
  unfold parseHeadings
  dsimp only
  split
  · obtain ⟨bytes, cache, hread, hc, -⟩ := cacheRead_spec hg (s := { s with headingLength := l }) h a
      (List.replicate l 0)
    rw [hread]
    exact ⟨cache, a, _, rfl, hc, Or.inr rfl⟩
  · exact ⟨s.cache, s.headingStart, s.rowData, rfl, ⟨rfl, h⟩, Or.inl rfl⟩

/-- Loading the headings of a sound flash finds them in their page. -/
theorem loadHeadings_fills (hg : g.Fits) {s : Log g} (h : s.cache.Faithful) (hstart : s.startAddress = g.logStart)
    (hend : HeadingsEnd g s.mem) :
    Meets (fun t => ∃ cache length start row, t =
      { s with cache, headingLength := length, headingStart := start, rowData := row } ∧ Fills s.cache cache ∧
        (start = s.headingStart ∨ g.logStart + metaDataSize ≤ start ∧ start < g.journalStart)) (fun _ => True)
      s.loadHeadings := by
  have hord := hg.order
  have hds := g.dataStart_eq
  obtain ⟨k, hk, hne, hzero⟩ := hend.first hg
  obtain ⟨c, hscan, hc⟩ := scan_spec hg (· != 0) k s (g.logStart + metaDataSize) 0 addressSpace h (by omega)
    (fun j hj => bne_eq_false_iff_eq.mpr (hzero j hj)) (bne_iff_ne.mpr hne) (lt_addressSpace (by omega))
  have ha : g.logStart + metaDataSize = s.startAddress + metaDataSize := by rw [hstart]
  rw [ha] at hscan hk
  unfold loadHeadings
  rw [hscan]
  change Meets _ _ (({ s with cache := c } : Log g).headingEnd _ _ >>= _)
  refine (headingEnd_fills hg (s := { s with cache := c }) hc.2 _ _).bind fun r hr => ?_
  obtain ⟨c', heq, hc'⟩ := hr
  obtain ⟨c'', start, row, hparse, hc'', hst⟩ := parseHeadings_fills hg (s := { s with cache := c' }) hc'.2
    (s.startAddress + metaDataSize + k) (u32sub r.1 (s.startAddress + metaDataSize + k))
  refine ⟨c'', u32sub r.1 (s.startAddress + metaDataSize + k), start, row, ?_, hc.trans (hc'.trans hc''),
    hst.imp_right fun he => by omega⟩
  rw [heq]
  exact hparse

/-- Loading a sound flash gives a log with its addresses where they belong, and a cache faithful to the flash. -/
theorem load_spec (hg : g.Fits) {s t : Log g} (hf : s.cache.Faithful) (hl : s.LaidOut) (hs : Sound g s.mem)
    (ht : s.load = .ok t) :
    t.Placed ∧ Fills s.cache t.cache ∧ t.full = s.full ∧
      (t.headingStart = s.headingStart ∨ g.logStart + metaDataSize ≤ t.headingStart ∧
        t.headingStart < g.journalStart) := by
  have hord := hg.order
  obtain ⟨s₁, hs₁⟩ : ∃ s₁, s₁ = s.note (.loading s.toLogState) := ⟨_, rfl⟩
  have hf₁ : s₁.cache.Faithful := hs₁ ▸ hf
  have hl₁ : s₁.LaidOut := hs₁ ▸ ⟨hl.startAddress, hl.journalStart, hl.dataStart, hl.logEnd⟩
  have hmem₁ : s₁.mem = s.mem := hs₁ ▸ rfl
  -- the end of the data
  obtain ⟨c, pages, head, b, e, heq, hc, hhead, ⟨hb1, hb2⟩, hwalk⟩ := loadDataEnd_spec hg hf₁ hl₁
    (Q := fun b => g.dataStart ≤ b ∧ b ≤ g.logEnd) ⟨Nat.le_refl _, Nat.le_of_lt hord.1⟩ fun a ha => by
      have hv := hs.journal a ha
      rw [hmem₁, u32_of_lt (by omega)]
      omega
  obtain ⟨he1, he2, -, -⟩ := hwalk hb2
  obtain ⟨s₂, hs₂⟩ : ∃ s₂ : Log g, s₂ = { s₁ with cache := c, journalPages := pages, journalHead := head, dataEnd := e } :=
    ⟨_, rfl⟩
  have hmem₂ : s₂.mem = s.mem := by
    rw [hs₂, LogState.mem]
    dsimp only
    rw [hc.1]
    exact hmem₁
  -- the headings
  obtain ⟨u, hu, ht⟩ := bind_eq_ok.mp ht
  obtain rfl := Except.ok.inj ht
  rw [← hs₁, heq, ← hs₂] at hu
  obtain ⟨c', length, start, row, hrow, hc', hst⟩ := (loadHeadings_fills hg (s := s₂) (by rw [hs₂]; exact hc.2)
    (by rw [hs₂]; exact hl₁.startAddress) (hmem₂ ▸ hs.headings)).of_ok hu
  have hfills : Fills s.cache c' := by
    have hall : Fills s₁.cache s₂.cache := by
      rw [hs₂]
      exact hc
    have hall := hall.trans hc'
    rw [hs₁] at hall
    exact hall
  rw [hs₂, hs₁] at hrow hst
  rw [hrow]
  refine ⟨⟨hl.startAddress, hl.journalStart, hl.dataStart, hl.logEnd, ?_, he2, hhead.dvd, hhead.le, hhead.lt,
    hfills.2.1⟩, hfills, rfl, hst⟩
  change g.dataStart ≤ e
  omega

end Log

end CodalMicrobit

import CodalMicrobit.Lemmas.Steady

/-!
# Recovery after a power cut

A later start trusts the number of a journal entry only as a place to begin: from there it walks to the first erased byte.
So it finds the end of the data wherever a power cut stopped a call of `logString`, if no journal entry ever gives a number
beyond the text, and the text has no byte 0xFF. An entry of which only the first word was written gives a smaller number, and
an entry on an erased page none.
-/

namespace CodalMicrobit

open Nor Outcome FSCache

namespace Log

variable {g : Geometry}

/-! ## The journal at every cut -/

/-- Writing the first words of an entry, after which it gives a number up to the bound. -/
theorem JournalBound.put_words {m : Memory} {n a : Nat} {t : List UInt8} (h : JournalBound g m n) (ha : IsSlot g a)
    (ht : t.length ≤ MICROBIT_LOG_JOURNAL_ENTRY_SIZE) (hv : slotValue (Nor.put m a t) a ≤ n) :
    JournalBound g (Nor.put m a t) n := by
  intro b hb
  by_cases hab : b = a
  · rw [hab]
    exact hv
  · rw [slotValue_congr fun x h1 h2 => put_of_not_mem m t (by have := hb.apart ha hab; omega)]
    exact h b hb

/-- The number of an entry of which the first word is written. -/
theorem slotValue_put_half (m : Memory) (a : Nat) {t : List UInt8} (ht : t.length = 4) :
    slotValue (Nor.put m a t) a = strtoul (cString (t ++ slice m (a + 4) 4)) := by
  have hfirst : slice (Nor.put m a t) a 4 = t := by
    rw [← ht]
    exact slice_put m a t
  have hrest : slice (Nor.put m a t) (a + 4) 4 = slice m (a + 4) 4 :=
    slice_congr fun x h1 _ => put_of_le m t (by omega)
  unfold slotValue
  change strtoul (cString (slice (Nor.put m a t) a (4 + 4))) = _
  rw [slice_add, hfirst, hrest]

/-- Writing the number of an entry to erased words, cut anywhere. -/
theorem throughout_writeNum {m : Memory} {n v a : Nat} {ops : List Op} (h : JournalBound g m n) (ha : IsSlot g a)
    (hblank : Blank m a (a + 8)) (hv : v ≤ n) (hlt : v < 2 ^ 32)
    (hops : ops = [] ∨ ∀ k, replay m (ops.take k) = Nor.put m a ((writeNum v).take (4 * min k 2))) :
    Throughout (fun m => JournalBound g m n) m ops := by
  have hlen := writeNum_length v
  rcases hops with rfl | hops
  · exact .nil h
  · intro k
    rw [hops k]
    refine h.put_words ha (by rw [List.length_take, hlen]; exact Nat.min_le_right _ _) ?_
    rcases Nat.lt_or_ge k 2 with hk | hk
    · rcases Nat.lt_or_ge k 1 with hk | hk
      · obtain rfl : k = 0 := by omega
        rw [Nat.zero_min, Nat.mul_zero, List.take_zero, put_nil]
        exact h a ha
      · -- the first word of the number, and an erased word
        obtain rfl : k = 1 := by omega
        have hrest : slice m (a + 4) 4 = [blank, blank, blank, blank] := by
          refine (slice_eq_iff m (a + 4) 4 _).mpr ⟨rfl, fun k hk => ?_⟩
          have hk' : k < 4 := hk
          rw [hblank _ (by omega) (by omega)]
          rcases k with _ | _ | _ | _ | k
          · rfl
          · rfl
          · rfl
          · rfl
          · omega
        have hends : EndsNumber [blank, blank, blank, blank] := by
          intro b hb
          obtain rfl := Option.some.inj hb
          decide
        have hne : ∀ b ∈ [blank, blank, blank, blank], b ≠ 0 := by
          intro b hb
          have hrep : b ∈ List.replicate 4 blank := hb
          rw [List.eq_of_mem_replicate hrep]
          decide
        rw [slotValue_put_half m a (by rw [List.length_take, hlen]; rfl), hrest]
        exact (strtoul_half_writeNum hlt _ hends hne).trans hv
    · have hall : 4 * min k 2 = 8 := by omega
      have htake : (writeNum v).take 8 = writeNum v := List.take_of_length_le (Nat.le_of_eq hlen)
      rw [hall, htake, slotValue_put m a hlen, strtoul_writeNum hlt]
      exact hv

/-- Zeroing an entry, cut anywhere. -/
theorem throughout_zero {m : Memory} {n a : Nat} {ops : List Op} (h : JournalBound g m n) (ha : IsSlot g a)
    (hops : ops = [] ∨ ∀ k, replay m (ops.take k) =
      Nor.put m a ((List.replicate MICROBIT_LOG_JOURNAL_ENTRY_SIZE 0).take (4 * min k 2))) :
    Throughout (fun m => JournalBound g m n) m ops := by
  rcases hops with rfl | hops
  · exact .nil h
  · intro k
    rw [hops k]
    refine h.put_words ha (by rw [List.length_take, List.length_replicate]; exact Nat.min_le_right _ _) ?_
    rcases Nat.lt_or_ge k 2 with hk | hk
    · rcases Nat.lt_or_ge k 1 with hk | hk
      · obtain rfl : k = 0 := by omega
        rw [Nat.zero_min, Nat.mul_zero, List.take_zero, put_nil]
        exact h a ha
      · obtain rfl : k = 1 := by omega
        rw [slotValue_put_half m a rfl]
        exact Nat.zero_le n
    · have hall : 4 * min k 2 = 8 := by omega
      have htake : (List.replicate MICROBIT_LOG_JOURNAL_ENTRY_SIZE (0 : UInt8)).take 8 =
          List.replicate MICROBIT_LOG_JOURNAL_ENTRY_SIZE 0 := rfl
      rw [hall, htake, slotValue_put m a rfl]
      exact Nat.zero_le n

/-- Moving the head on, cut anywhere. The words from the new head to the end of its page are erased. -/
theorem advanceJournal_throughout (hg : g.Fits) {s : Log g} (h : s.Placed)
    (htail : Blank s.mem (s.journalHead + 8) (g.pageEnd s.journalHead)) {n : Nat} (hb : JournalBound g s.mem n) :
    ∃ ops, s.cache.flash.After ops s.advanceJournal.cache.flash ∧
      Throughout (fun m => JournalBound g m n) s.mem ops ∧
      Blank s.advanceJournal.mem s.nextHead (g.pageEnd s.nextHead) := by
  obtain ⟨ops, hafter, -, -, -, -, -, hops⟩ := advanceJournal_spec hg h
  have hmem : s.advanceJournal.mem = replay s.mem ops := hafter.1
  refine ⟨ops, hafter, ?_⟩
  rw [hmem]
  rcases hops with ⟨rfl, hpage, hnext⟩ | ⟨rfl, hd⟩
  · refine ⟨.nil hb, ?_⟩
    rw [hpage, hnext]
    exact htail
  · have herase : replay s.mem [.erase s.nextHead g.getPageSize] = Nor.erase s.mem s.nextHead g.getPageSize := rfl
    refine ⟨fun k => ?_, fun x h1 h2 => ?_⟩
    · rcases k with _ | k
      · exact hb
      · rw [List.take_succ_cons, List.take_nil, herase]
        exact hb.erase hg hd
    · rw [Geometry.pageEnd_of_dvd hg.pos hd] at h2
      rw [herase]
      unfold Nor.erase
      exact if_pos ⟨h1, h2⟩

/-- Moving the journal on, cut anywhere: no entry gives a number beyond the data. -/
theorem writeJournal_throughout (hg : g.Fits) {s : Log g} (h : s.Placed)
    (hc : Agrees ErasedOrSame s.cache (InJournal g))
    (htail : Blank s.mem (s.journalHead + 8) (g.pageEnd s.journalHead)) {n : Nat} (hn : s.dataEnd - s.dataStart ≤ n)
    (hb : JournalBound g s.mem n) :
    ∃ ops, s.cache.flash.After ops s.writeJournal.cache.flash ∧ Throughout (fun m => JournalBound g m n) s.mem ops ∧
      Blank s.writeJournal.mem (s.nextHead + 8) (g.pageEnd s.nextHead) := by
  have hord := hg.order
  have hds := g.dataStart_eq
  have hpos : 256 ≤ g.getPageSize := hg.block_le_page
  obtain ⟨hn1, hn2, hn3⟩ := nextHead_facts hg h
  have hslot : IsSlot g s.nextHead := ⟨hn1, hn2, hn3⟩
  have hold : IsSlot g s.journalHead := ⟨h.head_dvd, h.le_head, h.head_lt⟩
  obtain ⟨hc₁, -⟩ := advanceJournal_agrees hg h hc
  obtain ⟨_, -, hjo₁, hhead₁, hp₁, -, -, -⟩ := advanceJournal_spec hg h
  obtain ⟨ops₁, hafter₁, hthrough₁, hblank₁⟩ := advanceJournal_throughout hg h htail hb
  obtain ⟨s₁, hs₁⟩ : ∃ s₁, s₁ = s.advanceJournal := ⟨_, rfl⟩
  rw [← hs₁] at hc₁ hjo₁ hhead₁ hp₁ hafter₁ hblank₁
  have hmem₁ : replay s.mem ops₁ = s₁.mem := hafter₁.1.symm
  have hnext8 : s.nextHead + 8 ≤ g.pageEnd s.nextHead :=
    add_le_of_dvd hn1 ((by decide : 8 ∣ 256).trans (hg.block_dvd_of_page (g.page_dvd_pageEnd _)))
      (Geometry.pageEnd_bounds hg.pos _).1
  -- the number
  obtain ⟨hc₂, ops₂, hafter₂, hops₂⟩ := writeEntry_put hg hp₁ hslot (writeNum_length s₁.journalLength) hc₁
  obtain ⟨_, -, -, -, hp₂, -, -, -⟩ := writeEntry_spec hg hp₁ hn1 hn3 (writeNum_length s₁.journalLength)
  have hjl : s₁.journalLength ≤ s.dataEnd - s.dataStart := by
    have hsame : s₁.dataEnd = s.dataEnd ∧ s₁.dataStart = s.dataStart := by
      rw [hjo₁]
      exact ⟨rfl, rfl⟩
    unfold journalLength
    rw [hsame.1, hsame.2]
    exact Nat.div_mul_le_self _ _
  have hend := h.dataEnd_le
  have hb₁ : JournalBound g s₁.mem n := hmem₁ ▸ hthrough₁.finish
  have hthrough₂ := throughout_writeNum hb₁ hslot (hblank₁.mono (Nat.le_refl _) hnext8) (hjl.trans hn) (by omega) hops₂
  obtain ⟨s₂, hs₂⟩ : ∃ s₂, s₂ = s₁.writeEntry s.nextHead (writeNum s₁.journalLength) := ⟨_, rfl⟩
  rw [← hs₂] at hc₂ hafter₂ hp₂
  have hmem₂ : replay s₁.mem ops₂ = s₂.mem := hafter₂.1.symm
  -- the zeroes over the old one
  obtain ⟨-, ops₃, hafter₃, hops₃⟩ := writeEntry_put hg hp₂ hold
    (t := List.replicate MICROBIT_LOG_JOURNAL_ENTRY_SIZE 0) List.length_replicate hc₂
  have hthrough₃ := throughout_zero (hmem₂ ▸ hthrough₂.finish) hold hops₃
  have heq : s.writeJournal = s₂.writeEntry s.journalHead (List.replicate MICROBIT_LOG_JOURNAL_ENTRY_SIZE 0) := by
    rw [hs₂, ← hhead₁, hs₁]
    rfl
  rw [heq]
  refine ⟨ops₁ ++ (ops₂ ++ ops₃), hafter₁.trans (hafter₂.trans hafter₃),
    hthrough₁.append (hmem₁ ▸ hthrough₂.append (hmem₂ ▸ hthrough₃)), fun x h1 h2 => ?_⟩
  have hout : ¬(s.journalHead ≤ x ∧ x < s.journalHead + 8) := by
    have hbounds := Geometry.pageEnd_bounds hg.pos s.nextHead
    have hlt := h.head_lt
    have hle := h.le_head
    unfold nextHead at h1 h2 hbounds
    unfold MICROBIT_LOG_JOURNAL_ENTRY_SIZE at h1 h2 hbounds
    split at h1
    · rename_i hlast
      rw [if_pos hlast] at h2 hbounds
      omega
    · omega
  have hsame : ∀ {m : Memory} {a : Nat} {t : List UInt8} {ops : List Op}, t.length = 8 →
      (ops = [] ∨ ∀ k, replay m (ops.take k) = Nor.put m a (t.take (4 * min k 2))) → ¬(a ≤ x ∧ x < a + 8) →
      replay m ops x = m x := by
    intro m a t ops ht hops hx
    rcases hops with rfl | hops
    · rfl
    · have hfull := hops ops.length
      rw [List.take_length] at hfull
      rw [hfull, put_of_not_mem m _ (by rw [List.length_take]; omega)]
  have hmem₃ : (s₂.writeEntry s.journalHead (List.replicate MICROBIT_LOG_JOURNAL_ENTRY_SIZE 0)).mem =
      replay s₂.mem ops₃ := hafter₃.1
  rw [hmem₃, hsame List.length_replicate hops₃ hout, ← hmem₂, hsame (writeNum_length _) hops₂ (by omega)]
  exact hblank₁ x (by omega) h2

/-! ## Recovery -/

/-- What a later start finds a text by: the metadata, no headings, a journal with no number beyond the text, and the text. -/
structure OnFlash (g : Geometry) (m : Memory) (text : List UInt8) : Prop where
  metaOk : MetaOk g m
  headings : Blank m (g.logStart + metaDataSize) g.journalStart
  journal : JournalBound g m text.length
  holds : Holds g m text

/-- A later start on such a flash finds the log, and exactly the text. -/
theorem OnFlash.recovered (hg : g.Fits) {m : Memory} {text : List UInt8} (h : OnFlash g m text) (hb : blank ∉ text)
    (trace : List Op) (header : Nat → UInt8) :
    ∃ u, (new (⟨m, trace⟩ : Flash g) header).isPresent.1 = true ∧ (new (⟨m, trace⟩ : Flash g) header).init = .ok u ∧
      u.mem = m ∧ u.dataStart = g.dataStart ∧ u.logEnd = g.logEnd ∧ u.dataEnd = g.dataStart + text.length := by
  have hord := hg.order
  have hds := g.dataStart_eq
  have hjs := g.journalStart_eq
  have hpos : 256 ≤ g.getPageSize := hg.block_le_page
  have h40 : metaDataSize = 40 := rfl
  obtain ⟨s, hs⟩ : ∃ s, s = new (⟨m, trace⟩ : Flash g) header := ⟨_, rfl⟩
  have hmem : s.mem = m := by rw [hs]; rfl
  have hi : s.initialized = false := by rw [hs]; rfl
  have hf : s.cache.Faithful := by
    rw [hs]
    exact faithful_of_empty fun _ => rfl
  have hpresent := isPresent_of_metaOk hg hi (hmem ▸ h.metaOk)
  obtain ⟨s₁, hs₁⟩ : ∃ s₁, s₁ = s.found.note (.loading s.found.toLogState) := ⟨_, rfl⟩
  have hf₁ : s₁.cache.Faithful := hs₁ ▸ hf
  have hl₁ : s₁.LaidOut := hs₁ ▸ ⟨rfl, rfl, rfl, rfl⟩
  have hmem₁ : s₁.mem = m := (hs₁ ▸ rfl : s₁.mem = s.mem).trans hmem
  have hle := h.holds.le
  -- the walk begins inside the text, and stops at its end
  obtain ⟨c, pages, head, b, e, heq, hc, -, ⟨hb1, hb2⟩, hwalk⟩ := loadDataEnd_spec hg hf₁ hl₁
    (Q := fun b => g.dataStart ≤ b ∧ b ≤ g.dataStart + text.length) ⟨Nat.le_refl _, Nat.le_add_right _ _⟩ fun a ha => by
      have hv := h.journal a ha
      rw [hmem₁, u32_of_lt (by omega)]
      omega
  obtain ⟨h1, h2, h3, h4⟩ := hwalk (by omega)
  rw [hmem₁] at h3 h4
  have hend : e = g.dataStart + text.length := by
    rcases Nat.lt_trichotomy e (g.dataStart + text.length) with hlt | heq | hlt
    · refine absurd (h4 (by omega)) fun hblank => hb ?_
      obtain ⟨-, hbytes⟩ := (slice_eq_iff m g.dataStart text.length text).mp h.holds.bytes
      have hk : e - g.dataStart < text.length := by omega
      have hbyte := hbytes (e - g.dataStart) hk
      rw [Nat.add_sub_cancel' (by omega), hblank] at hbyte
      exact hbyte ▸ List.getElem_mem hk
    · exact heq
    · have hbounds := Geometry.pageEnd_bounds hg.pos (g.dataStart + text.length)
      exact absurd (h.holds.tail _ (Nat.le_refl _) (by omega)) (h3 _ hb2 hlt)
  -- no headings
  obtain ⟨s₂, hs₂⟩ : ∃ s₂ : Log g, s₂ = { s₁ with cache := c, journalPages := pages, journalHead := head, dataEnd := e } :=
    ⟨_, rfl⟩
  have hf₂ : s₂.cache.Faithful := by rw [hs₂]; exact hc.2
  have hmem₂ : s₂.mem = m := by
    rw [hs₂, LogState.mem]
    dsimp only
    rw [hc.1]
    exact hmem₁
  have hplace : Place g s₂.mem [] := ⟨by rw [List.length_nil]; omega, rfl, by rw [hmem₂]; exact h.headings⟩
  obtain ⟨t, ht, -⟩ := loadHeadings_nil hg hf₂ (by rw [hs₂]; exact hl₁.startAddress) hplace
  obtain ⟨c', length, start, row, hrow, hc'⟩ := (loadHeadings_reads hg hf₂).of_ok ht
  have hinit : s.init = .ok { t with initialized := true } := by
    rw [init_cases, hi, if_neg Bool.false_ne_true, hpresent]
    change s.found.load = _
    unfold load
    rw [← hs₁, heq, ← hs₂, ht]
    rfl
  have hsame : t = { s₂ with cache := c', headingLength := length, headingStart := start, rowData := row } := hrow
  rw [← hs]
  refine ⟨_, by rw [hpresent], hinit, ?_, ?_, ?_, ?_⟩
  all_goals rw [hsame]
  · rw [LogState.mem]
    dsimp only
    rw [hc'.1]
    exact hmem₂
  · rw [hs₂]
    exact hl₁.dataStart
  · rw [hs₂]
    exact hl₁.logEnd
  · rw [hs₂]
    exact hend

/-! ## Runs of `clear` and `logString` -/

/-- `s` is reached from the start of the device by calls of `clear` and `logString`, the first one `clear`, and `text` is what
was logged since the last `clear`. No text has a byte 0xFF before its end, and no text that there is room for enters a page of
which the cache holds a block that is not erased. -/
inductive Logs (flash : Flash g) (header : Nat → UInt8) : Log g → List UInt8 → Prop where
  | start {s : Log g} (fullErase : Bool) (h : (new flash header).clear fullErase = .ok s) : Logs flash header s []
  | clear {s t : Log g} {text : List UInt8} (fullErase : Bool) (hs : Logs flash header s text)
    (h : s.clear fullErase = .ok t) : Logs flash header t []
  | logString {s t : Log g} {text str : List UInt8} {code : ErrorCode} (hs : Logs flash header s text)
    (hb : blank ∉ cString str)
    (hf : s.dataEnd + (cString str).length ≤ s.logEnd → FreshPages s.toLogState (cString str).length)
    (h : s.logString str = .ok (code, t)) :
    Logs flash header t (text ++ if code = .DEVICE_OK then cleaned (cString str) false else [])

/-- The log holds the text, and a later start would find it. -/
structure Recoverable (s : Log g) (text : List UInt8) : Prop where
  placed : s.Placed
  stored : s.Stored text
  noBlank : blank ∉ text
  metaOk : MetaOk g s.mem
  headings : Blank s.mem (g.logStart + metaDataSize) g.journalStart
  bound : JournalBound g s.mem text.length
  agrees : Agrees ErasedOrSame s.cache (InJournal g)
  tail : Blank s.mem (s.journalHead + 8) (g.pageEnd s.journalHead)

/-- A recoverable text is on the flash. -/
theorem Recoverable.onFlash {s : Log g} {text : List UInt8} (h : Recoverable s text) : OnFlash g s.mem text :=
  ⟨h.metaOk, h.headings, h.bound, h.stored.holds⟩

/-- A change in RAM only leaves the text recoverable. -/
theorem Recoverable.ramOnly {s t : Log g} {text : List UInt8} (h : Recoverable s text) (hr : RamOnly s t) :
    Recoverable t text := by
  have hst := hr.stored h.stored
  have hp := hr.placed h.placed
  rw [hr] at hst hp ⊢
  exact ⟨hp, hst, h.noBlank, h.metaOk, h.headings, h.bound, h.agrees, h.tail⟩

/-- A fresh log has the empty text to recover. -/
theorem Fresh.recoverable (hg : g.Fits) {s : Log g} (h : s.Fresh) : Recoverable s [] := by
  refine ⟨h.placed, h.stored hg, List.not_mem_nil, h.metaOk, h.headings, fun a ha => ?_, ?_, ?_⟩
  · by_cases hfirst : a = g.journalStart
    · have hentry : slice s.mem a MICROBIT_LOG_JOURNAL_ENTRY_SIZE = List.replicate 8 '0'.toUInt8 := hfirst ▸ h.entry
      unfold slotValue
      rw [hentry]
      decide
    · have hapart := ha.apart (slot_journalStart hg) hfirst
      have hend := ha.end_le hg
      have hle := ha.le
      have h8 : MICROBIT_LOG_JOURNAL_ENTRY_SIZE = 8 := rfl
      exact Nat.le_of_eq (slotValue_blank (h.journal.mono (by omega) (by omega)))
  · exact fun b q hb hq k hk _ => Or.inr (h.coherent b q hb hq k hk trivial)
  · rw [h.journalHead, Geometry.pageEnd_of_dvd hg.pos g.page_dvd_journalStart]
    have hds := g.dataStart_eq
    exact h.journal.mono (Nat.le_refl _) (by omega)

/-- What is written from the data area on leaves the metadata and the journal as they are. -/
theorem OnFlash.frame (hg : g.Fits) {m m' : Memory} {text text' : List UInt8} (h : OnFlash g m text)
    (hm : ∀ x, x < g.dataStart → m' x = m x) (hl : text.length ≤ text'.length) (hh : Holds g m' text') :
    OnFlash g m' text' := by
  have hds := g.dataStart_eq
  have hjs := g.journalStart_eq
  have hpos : 256 ≤ g.getPageSize := hg.block_le_page
  have h40 : metaDataSize = 40 := rfl
  refine ⟨h.metaOk.congr fun x hx => hm x (by omega), h.headings.congr fun x _ hx => hm x (by omega), ?_, hh⟩
  exact (h.journal.congr hg fun x hx => hm x hx.2).mono hl

/-- The page of the journal's head lies in the journal. -/
theorem head_pageEnd (hg : g.Fits) {s : Log g} (h : s.Placed) : g.pageEnd s.journalHead ≤ g.dataStart := by
  obtain ⟨hlt, hle⟩ := Geometry.pageEnd_bounds hg.pos s.journalHead
  by_contra hc
  have := add_le_of_dvd g.page_dvd_dataStart (g.page_dvd_pageEnd s.journalHead) (by omega)
  have := h.head_lt
  omega

/-- What is written to the journal leaves the metadata and the text as they are. -/
theorem OnFlash.journaled (hg : g.Fits) {m m' : Memory} {text : List UInt8} (h : OnFlash g m text)
    (hm : ∀ x, ¬InJournal g x → m' x = m x) (hb : JournalBound g m' text.length) : OnFlash g m' text := by
  have hjs := g.journalStart_eq
  have hpos : 256 ≤ g.getPageSize := hg.block_le_page
  have h40 : metaDataSize = 40 := rfl
  refine ⟨h.metaOk.congr fun x hx => hm x fun hj => ?_, h.headings.congr fun x _ hx => hm x fun hj => ?_, hb,
    h.holds.congr hg fun x hx _ => hm x fun hj => ?_⟩
  · have := hj.1
    omega
  · have := hj.1
    omega
  · have := hj.2
    omega

/-- A text that is refused: only the indicator that the log is full is written. -/
theorem Recoverable.refuse (hg : g.Fits) {s : Log g} {text : List UInt8} (h : Recoverable s text) :
    Recoverable s.refuse text ∧ ∃ ops, s.cache.flash.After ops s.refuse.cache.flash ∧
      Throughout (fun m => OnFlash g m text) s.mem ops := by
  have hord := hg.order
  have hpage := head_pageEnd hg h.placed
  obtain ⟨ops, hr⟩ := refuse_refused hg h.placed
  have hout : ∀ n x, x < g.logEnd → replay s.mem (ops.take n) x = s.mem x :=
    fun n x hx => (hr.within.take n).replay_eq _ (Or.inl hx)
  have hcut : Throughout (fun m => OnFlash g m text) s.mem ops := fun n => h.onFlash.frame hg
    (fun x hx => hout n x (by omega)) (Nat.le_refl _) (h.stored.holds.congr hg fun x _ hx => hout n x (by omega))
  have hmem : s.refuse.mem = replay s.mem ops := hr.after.1
  have hbelow : ∀ x, x < g.dataStart → s.refuse.mem x = s.mem x := by
    intro x hx
    rw [hmem]
    exact hr.within.replay_eq _ (Or.inl (by omega))
  have hall : OnFlash g s.refuse.mem text := hmem ▸ hcut.finish
  have hhead : s.refuse.journalHead = s.journalHead := by rw [hr.same]
  refine ⟨⟨hr.placed, hr.stored hg h.stored, h.noBlank, hall.metaOk, hall.headings, hall.journal, ?_, ?_⟩, ops, hr.after,
    hcut⟩
  · refine h.agrees.frame (fun x hx => hbelow x hx.2) fun b q hb hq => (hr.loaded b q hq).imp_right fun ht k hk hx => ?_
    have hlo := le_of_touches ht hg.block_dvd_dataStart (Nat.le_of_lt hord.1)
    have := hx.2
    omega
  · rw [hhead]
    exact h.tail.congr fun x _ hx => hbelow x (by omega)

/-- A text that is written to the data area, before the journal is moved on. -/
theorem Recoverable.append (hg : g.Fits) {s t : Log g} {text data : List UInt8} (h : Recoverable s text)
    (hb : blank ∉ data) {ops : List Op} (ha : Appended s t data.length ops) (hst : t.Stored (text ++ data))
    (hcut : ∀ n, ∃ j, Holds g (replay s.mem (ops.take n)) (text ++ data.take j)) :
    Recoverable t (text ++ data) ∧ Throughout (fun m => ∃ j, OnFlash g m (text ++ data.take j)) s.mem ops := by
  have hpage := head_pageEnd hg h.placed
  have hmem : t.mem = replay s.mem ops := ha.after.1
  have hwithin := ha.within hg h.placed
  have hbelow : ∀ x, x < g.dataStart → t.mem x = s.mem x := by
    intro x hx
    rw [hmem]
    exact hwithin.replay_eq _ (Or.inl hx)
  have hall : OnFlash g t.mem (text ++ data) :=
    h.onFlash.frame hg hbelow (by rw [List.length_append]; omega) hst.holds
  refine ⟨⟨ha.placed, hst, ?_, hall.metaOk, hall.headings, hall.journal, ?_, ?_⟩, fun n => ?_⟩
  · rw [List.mem_append]
    exact fun hin => hin.elim h.noBlank hb
  · exact ha.agrees hg h.placed h.agrees fun x hx => hx.2
  · rw [ha.dataOnly.journalHead]
    exact h.tail.congr fun x _ hx => hbelow x (by omega)
  · obtain ⟨j, hj⟩ := hcut n
    exact ⟨j, h.onFlash.frame hg (fun x hx => (hwithin.take n).replay_eq _ (Or.inl hx))
      (by rw [List.length_append]; omega) hj⟩

/-- The journal is moved on. -/
theorem Recoverable.writeJournal (hg : g.Fits) {s : Log g} {text : List UInt8} (h : Recoverable s text) :
    Recoverable s.writeJournal text ∧ ∃ ops, s.cache.flash.After ops s.writeJournal.cache.flash ∧
      Throughout (fun m => OnFlash g m text) s.mem ops := by
  have hp := h.placed
  have hend := h.stored.dataEnd
  obtain ⟨ops, hafter, hbound, htail⟩ := writeJournal_throughout hg hp h.agrees h.tail (n := text.length)
    (by rw [hp.dataStart]; omega) h.bound
  obtain ⟨_, hj⟩ := writeJournal_journaled hg hp
  obtain rfl := hj.after.unique hafter
  have hcut : Throughout (fun m => OnFlash g m text) s.mem _ := fun n => h.onFlash.journaled hg
    (fun x hx => (hj.within.take n).replay_eq _ (by unfold InJournal at hx; omega)) (hbound n)
  have hmem : s.writeJournal.mem = replay s.mem _ := hafter.1
  have hall : OnFlash g s.writeJournal.mem text := hmem ▸ hcut.finish
  exact ⟨⟨hj.placed, hj.stored hg h.stored, h.noBlank, hall.metaOk, hall.headings, hall.journal,
    (writeJournal_agrees hg hp h.agrees).1, hj.head ▸ htail⟩, _, hafter, hcut⟩

/-- A call of `logString`: it keeps the text where a later start finds it, with what it appends, and at every cut a later
start finds the text with a beginning of what is appended. -/
theorem Recoverable.logString (hg : g.Fits) {s t : Log g} {text str : List UInt8} {code : ErrorCode} (h : Recoverable s text)
    (hready : s.Ready) (hb : blank ∉ cString str)
    (hf : s.dataEnd + (cString str).length ≤ s.logEnd → FreshPages s.toLogState (cString str).length)
    (ht : s.logString str = .ok (code, t)) {data : List UInt8}
    (hdata : data = if code = .DEVICE_OK then cleaned (cString str) false else []) :
    Recoverable t (text ++ data) ∧ ∃ ops, s.cache.flash.After ops t.cache.flash ∧
      Throughout (fun m => ∃ j, OnFlash g m (text ++ data.take j)) s.mem ops := by
  have h₀ : Recoverable (s.entered (cString str)) text := h.ramOnly (entered_ramOnly s (cString str))
  by_cases hl : s.dataEnd + (cString str).length ≤ g.logEnd
  · obtain ⟨serial, _, s₁, hw, -, hcases⟩ := accept_cases hg h₀.placed hl
    have hlen := cleaned_length (cString str) false
    obtain ⟨s₀, hs₀⟩ : ∃ s₀ : Log g, s₀ = { s.entered (cString str) with serial } := ⟨_, rfl⟩
    have hflash₀ : s₀.cache.flash = s.cache.flash := by rw [hs₀]; rfl
    have hmem₀ : s₀.mem = s.mem := congrArg Flash.mem hflash₀
    have hend₀ : s₀.dataEnd = s.dataEnd := by rw [hs₀]; rfl
    have h₁ : Recoverable s₀ text := hs₀ ▸ h₀.ramOnly rfl
    rw [← hs₀] at hw
    have hb' : blank ∉ cleaned (cString str) false := by
      rw [cleaned_eq]
      exact not_mem_sanitised hb (by decide) false
    have hfresh₀ : FreshPages s₀.toLogState (cString str).length := by
      rw [hs₀]
      exact hf (by rw [h.placed.logEnd]; exact hl)
    rw [← hlen] at hw hfresh₀
    obtain ⟨ops, s', hw', ha, hst, hcut⟩ := writeData_stored hg _ s₀ text (cleaned (cString str) false)
      h₁.placed h₁.stored (Nat.le_refl _) (by rw [hend₀, hlen]; exact hl) hfresh₀
    obtain rfl : s₁ = s' := Except.ok.inj (hw.symm.trans hw')
    obtain ⟨h₂, hcut₂⟩ := h₁.append hg hb' ha hst hcut
    have hafter := ha.after
    rw [hmem₀] at hcut₂
    rw [hflash₀] at hafter
    rcases hcases with ⟨-, heq⟩ | ⟨-, heq⟩
    · obtain ⟨rfl, rfl⟩ := Prod.mk.inj (Except.ok.inj (ht.symm.trans (logString_accepted hready hl heq)))
      obtain rfl : data = cleaned (cString str) false := hdata.trans (if_pos rfl)
      exact ⟨h₂.ramOnly (RamOnly.notify _), ops, hafter, hcut₂⟩
    · obtain ⟨rfl, rfl⟩ := Prod.mk.inj (Except.ok.inj (ht.symm.trans (logString_accepted hready hl heq)))
      obtain rfl : data = cleaned (cString str) false := hdata.trans (if_pos rfl)
      obtain ⟨h₃, ops', hafter', hcut₃⟩ := h₂.writeJournal hg
      have hmem : replay s.mem ops = s₁.mem := hafter.1.symm
      refine ⟨h₃.ramOnly (RamOnly.notify _), ops ++ ops', hafter.trans hafter', hcut₂.append ?_⟩
      rw [hmem]
      exact hcut₃.imp fun m hm => ⟨(cleaned (cString str) false).length, by rw [List.take_length]; exact hm⟩
  · obtain ⟨rfl, rfl⟩ := Prod.mk.inj (Except.ok.inj (ht.symm.trans (logString_refused hready (by omega))))
    obtain rfl : data = [] := hdata.trans (if_neg nofun)
    obtain ⟨hrec, ops, hafter, hcut⟩ := h₀.refuse hg
    rw [List.append_nil]
    refine ⟨hrec.ramOnly (RamOnly.notify _), ops, hafter, hcut.imp fun m hm => ⟨0, ?_⟩⟩
    rw [List.take_nil, List.append_nil]
    exact hm

/-! ## A power cut -/

/-- Every state that is reached. -/
theorem Logs.recoverable (hg : g.Fits) {flash : Flash g} {header : Nat → UInt8} {s : Log g} {text : List UInt8}
    (h : Logs flash header s text) : s.Ready ∧ Recoverable s text := by
  have hclear : ∀ {s t : Log g} {fullErase : Bool}, s.mutex = false → s.clear fullErase = .ok t →
      t.Ready ∧ Recoverable t [] := by
    intro s t fullErase hm ht
    obtain ⟨_, ht', hfresh, hm', -⟩ := clear_fresh hg hm fullErase
    obtain rfl := Except.ok.inj (ht.symm.trans ht')
    exact ⟨hfresh.ready hm', hfresh.recoverable hg⟩
  induction h with
  | start fullErase h => exact hclear rfl h
  | clear fullErase _ h ih => exact hclear ih.1.mutex h
  | @logString s t text str code _ hb hf h ih =>
    obtain ⟨_, _, h', hready, -⟩ := logString_members hg ih.1 str
    obtain ⟨rfl, rfl⟩ := Prod.mk.inj (Except.ok.inj (h.symm.trans h'))
    exact ⟨hready, (ih.2.logString hg ih.1 hb hf h rfl).1⟩

/-- A new log on the flash finds the log there, and its data is exactly the text, behind which the flash is erased up to the
end of the page, or to the word of the FULL indicator. -/
def Recovers (g : Geometry) (m : Memory) (text : List UInt8) : Prop :=
  ∀ trace header, ∃ u, (new (⟨m, trace⟩ : Flash g) header).isPresent.1 = true ∧
    (new (⟨m, trace⟩ : Flash g) header).init = .ok u ∧ u.mem = m ∧ u.dataEnd = u.dataStart + text.length ∧
    slice m u.dataStart text.length = text ∧ Blank m u.dataEnd (min (g.pageEnd u.dataEnd) u.logEnd)

/-- A text on the flash without blank bytes is recovered. -/
theorem OnFlash.recovers (hg : g.Fits) {m : Memory} {text : List UInt8} (h : OnFlash g m text) (hb : blank ∉ text) :
    Recovers g m text := by
  intro trace header
  obtain ⟨u, hp, hi, hm, hs, he, hd⟩ := h.recovered hg hb trace header
  rw [← hs] at hd
  refine ⟨u, hp, hi, hm, hd, ?_, ?_⟩
  · rw [hs]
    exact h.holds.bytes
  · rw [hd, hs, he]
    exact h.holds.tail

/-- The operations on the flash between two states. -/
def issued (s t : Log g) : List Op := t.cache.flash.trace.drop s.cache.flash.trace.length

/-- Crash recovery. After every run of calls of `clear` and `logString` from the start of the device, beginning with `clear`,
of texts without a byte 0xFF that enter no page of which the cache holds a stale block: wherever a power cut stops a call of
`logString` with such a text, a new log on the flash finds the log, and recovers the data logged before, followed by a beginning
of what the call appends, which is all of it if the call had finished. A text that is refused appends nothing. -/
theorem crash_recovery (hg : g.Fits) (flash : Flash g) (header : Nat → UInt8) (s : Log g) (text : List UInt8)
    (hs : Logs flash header s text) (str : List UInt8) (hb : blank ∉ cString str)
    (hf : s.dataEnd + (cString str).length ≤ s.logEnd → FreshPages s.toLogState (cString str).length) :
    ∃ code t, s.logString str = .ok (code, t) ∧
      ∀ n, ∃ data, data <+: (if code = .DEVICE_OK then cleaned (cString str) false else []) ∧
        ((issued s t).length ≤ n → data = if code = .DEVICE_OK then cleaned (cString str) false else []) ∧
        Recovers g (replay s.mem ((issued s t).take n)) (text ++ data) := by
  obtain ⟨hready, hrec⟩ := hs.recoverable hg
  obtain ⟨code, t, ht, -⟩ := logString_members hg hready str
  obtain ⟨data, hdata⟩ : ∃ data, data = if code = .DEVICE_OK then cleaned (cString str) false else [] := ⟨_, rfl⟩
  obtain ⟨hrec', ops, hafter, hcut⟩ := hrec.logString hg hready hb hf ht hdata
  have hissued : issued s t = ops := hafter.drop
  refine ⟨code, t, ht, fun n => ?_⟩
  rw [← hdata, hissued]
  by_cases hn : ops.length ≤ n
  · have hmem : replay s.mem (ops.take n) = t.mem := by
      rw [List.take_of_length_le hn]
      exact hafter.1.symm
    rw [hmem]
    exact ⟨data, List.prefix_refl _, fun _ => rfl, hrec'.onFlash.recovers hg hrec'.noBlank⟩
  · obtain ⟨j, hj⟩ := hcut n
    refine ⟨data.take j, List.take_prefix _ _, fun h => absurd h hn, hj.recovers hg fun hin => ?_⟩
    rcases List.mem_append.mp hin with hin | hin
    · exact hrec'.noBlank (List.mem_append_left _ hin)
    · exact hrec'.noBlank (List.mem_append_right _ (List.mem_of_mem_take hin))

/-- A text of 300 bytes, which enters a page. -/
def firstText : List UInt8 := List.replicate 300 'a'.toUInt8

/-- One of 400 bytes, which enters another. -/
def secondText : List UInt8 := List.replicate 400 'b'.toUInt8

/-- `crash_recovery` for the second text behind the first. -/
theorem crash_recovery_second :
    ∃ s code t, Logs (blankFlash nineteenPages) (fun _ => 0) s firstText ∧
      s.logString secondText = .ok (code, t) ∧
        ∀ n, ∃ data, data <+: secondText ∧
          ((issued s t).length ≤ n → data = secondText) ∧
          Recovers nineteenPages (replay s.mem ((issued s t).take n)) (firstText ++ data) := by
  obtain ⟨s₀, hs₀, hfresh, hm, -⟩ := clear_fresh nineteenPages_fits (s := new (blankFlash nineteenPages) fun _ => 0) rfl false
  obtain ⟨code₁, s, hs, -⟩ := logString_members nineteenPages_fits (hfresh.ready hm) firstText
  have hrun : (match (new (blankFlash nineteenPages) fun _ => 0).clear false with
      | .ok s₀ => decide (FreshPages s₀.toLogState (cString firstText).length) && match s₀.logString firstText with
        | .ok (code₁, s) => code₁ == .DEVICE_OK && decide (FreshPages s.toLogState (cString secondText).length) &&
          match s.logString secondText with
          | .ok (code, _) => code == .DEVICE_OK
          | .error _ => false
        | .error _ => false
      | .error _ => false) = true := by
    decide +kernel
  simp only [hs₀, hs, Bool.and_eq_true, decide_eq_true_eq, beq_iff_eq] at hrun
  obtain ⟨hfresh₁, ⟨rfl, hfresh₂⟩, hcode⟩ := hrun
  have hfirst : cleaned (cString firstText) false = firstText := by
    decide +kernel
  have hsecond : cleaned (cString secondText) false = secondText := by
    decide +kernel
  have hlogs := (Logs.start false hs₀).logString (by decide +kernel) (fun _ => hfresh₁) hs
  rw [if_pos rfl, hfirst, List.nil_append] at hlogs
  obtain ⟨code, t, ht, hcut⟩ := crash_recovery nineteenPages_fits (blankFlash nineteenPages) (fun _ => 0) s _ hlogs
    secondText (by decide +kernel) fun _ => hfresh₂
  simp only [ht, beq_iff_eq] at hcode
  rw [hcode, if_pos rfl, hsecond] at hcut
  exact ⟨s, code, t, hlogs, ht, hcut⟩

/-- A refused text of 300 bytes on the last page leaves its indicator at the end of the page. The next call writes two words,
and a power cut stops it between them: a later start finds the log, and the flash is not erased from the end of its data to the
end of the page. -/
theorem indicator_behind_data :
    ∃ s code t u, (new (blankFlash sixteenPages) fun _ => 0).run
        [.clear true, .logString (List.replicate 300 'a'.toUInt8), .logString (List.replicate 300 'a'.toUInt8)] = .ok s ∧
      s.logString (List.replicate 8 'b'.toUInt8) = .ok (code, t) ∧ (issued s t).length = 2 ∧
      (new (⟨replay s.mem ((issued s t).take 1), []⟩ : Flash sixteenPages) fun _ => 0).isPresent.1 = true ∧
      (new (⟨replay s.mem ((issued s t).take 1), []⟩ : Flash sixteenPages) fun _ => 0).init = .ok u ∧
      ¬Blank u.mem u.dataEnd (sixteenPages.pageEnd u.dataEnd) := by
  have hrun : (match (new (blankFlash sixteenPages) fun _ => 0).run
        [.clear true, .logString (List.replicate 300 'a'.toUInt8), .logString (List.replicate 300 'a'.toUInt8)] with
      | .ok s =>
        match s.logString (List.replicate 8 'b'.toUInt8) with
        | .ok (_, t) =>
          match (new (⟨replay s.mem ((issued s t).take 1), []⟩ : Flash sixteenPages) fun _ => 0).init with
          | .ok u => decide ((issued s t).length = 2 ∧
              (new (⟨replay s.mem ((issued s t).take 1), []⟩ : Flash sixteenPages) fun _ => 0).isPresent.1 = true ∧
              u.dataEnd ≤ 3837 ∧ 3837 < sixteenPages.pageEnd u.dataEnd ∧ u.mem 3837 ≠ blank)
          | .error _ => false
        | .error _ => false
      | .error _ => false) = true := by
    decide +kernel
  cases hs : (new (blankFlash sixteenPages) fun _ => 0).run
      [.clear true, .logString (List.replicate 300 'a'.toUInt8), .logString (List.replicate 300 'a'.toUInt8)] with
  | error e =>
    rw [hs] at hrun
    nomatch hrun
  | ok s =>
    rw [hs] at hrun
    cases ht : s.logString (List.replicate 8 'b'.toUInt8) with
    | error e =>
      simp only [ht] at hrun
      nomatch hrun
    | ok r =>
      obtain ⟨code, t⟩ := r
      simp only [ht] at hrun
      cases hu : (new (⟨replay s.mem ((issued s t).take 1), []⟩ : Flash sixteenPages) fun _ => 0).init with
      | error e =>
        simp only [hu] at hrun
        nomatch hrun
      | ok u =>
        simp only [hu, decide_eq_true_eq] at hrun
        obtain ⟨hl, hp, h1, h2, h3⟩ := hrun
        exact ⟨s, code, t, u, rfl, ht, hl, hp, hu, fun hb => h3 (hb 3837 h1 h2)⟩

end Log

end CodalMicrobit

import CodalMicrobit.Lemmas.Layout
import CodalMicrobit.Lib.Outcome

/-!
# Appending text

What `logString` does to the flash and the cache, page by page. `Placed` is what the addresses of an initialised log
keep to whatever the cache holds; `Stored` says that the data area holds exactly a given text and that the cache agrees
with it, which stays true as long as no page is entered of which a stale block is cached.
-/

namespace CodalMicrobit

open Nor Outcome FSCache

/-! ## Erased pages and the cache -/

namespace FSCache

variable {g : Geometry} {bs n : Nat}

/-- No block of the page that is cached holds anything but 0xFF. -/
def Clean (c : FSCache g bs n) (page : Nat) : Prop :=
  ∀ b q, c.Loaded b q → page ≤ b → b < page + g.getPageSize → ∀ k, k < bs → q k = blank

instance (c : FSCache g bs n) (page : Nat) : Decidable (c.Clean page) :=
  decidable_of_iff (∀ i p, (c.cache i).page = some p → page ≤ (c.cache i).address →
      (c.cache i).address < page + g.getPageSize → ∀ k, k < bs → p k = blank)
    ⟨fun h b q hq => by
      obtain ⟨i, rfl, hp⟩ := hq
      exact h i q hp, fun h i p hp => h _ p ⟨i, rfl, hp⟩⟩

/-- The cache after the flash erased a page behind its back. -/
def flashErase (c : FSCache g bs n) (page : Nat) : FSCache g bs n := { c with flash := c.flash.erase page }

/-- Which blocks are cached is a matter of the entries alone. -/
theorem loaded_congr {c c' : FSCache g bs n} (h : c'.cache = c.cache) {b : Nat} {q : Nat → UInt8} :
    c'.Loaded b q ↔ c.Loaded b q := by
  unfold Loaded
  rw [h]

/-- Whether addresses are apart depends on the entries only. -/
theorem Nodup.congr {c c' : FSCache g bs n} (hn : c.Nodup) (h : c'.cache = c.cache) : c'.Nodup := by
  unfold Nodup
  rw [h]
  exact hn

/-- Erasing a page of which the cache holds only erased blocks keeps the cache coherent. -/
theorem Coherent.flashErase {c : FSCache g bs n} {page : Nat} {R : Nat → Prop} (hc : c.Coherent R)
    (hd : bs ∣ page) (hin : page + g.getPageSize ≤ g.getFlashEnd) (hclean : c.Clean page) :
    (c.flashErase page).Coherent R := by
  intro b q hb hq k hk hx
  unfold FSCache.flashErase
  rw [Flash.erase_eq _ hin]
  dsimp only
  unfold Nor.erase
  split
  · rename_i hk'
    refine hclean b q hq ?_ ?_ k hk
    · by_contra h
      have := add_le_of_dvd hb hd (by omega)
      omega
    · omega
  · exact hc b q hb hq k hk hx

end FSCache

namespace Log

variable {g : Geometry}

/-! ## Addresses -/

/-- The addresses of an initialised log: the layout is the one `clear` gives, the data ends inside the data area, and the
journal head is the address of an entry. -/
structure Placed (s : Log g) : Prop where
  startAddress : s.startAddress = g.logStart
  journalStart : s.journalStart = g.journalStart
  dataStart : s.dataStart = g.dataStart
  logEnd : s.logEnd = g.logEnd
  le_dataEnd : g.dataStart ≤ s.dataEnd
  dataEnd_le : s.dataEnd ≤ g.logEnd
  head_dvd : MICROBIT_LOG_JOURNAL_ENTRY_SIZE ∣ s.journalHead
  le_head : g.journalStart ≤ s.journalHead
  head_lt : s.journalHead < g.dataStart
  nodup : s.cache.Nodup

/-- Writing data changes the cache, the end of the data and the record, and nothing else. -/
def DataOnly (s s' : Log g) : Prop :=
  s' = { s with cache := s'.cache, dataEnd := s'.dataEnd, history := s'.history }

theorem DataOnly.refl (s : Log g) : DataOnly s s := rfl

theorem DataOnly.trans {s s' s'' : Log g} (h : DataOnly s s') (h' : DataOnly s' s'') : DataOnly s s'' := by
  unfold DataOnly at h h' ⊢
  rw [h'] at *
  rw [h]

/-- Writing data leaves the end of the log alone. -/
theorem DataOnly.logEnd {s s' : Log g} (h : DataOnly s s') : s'.logEnd = s.logEnd := by
  rw [h]

/-- Writing data leaves the journal alone. -/
theorem DataOnly.journalHead {s s' : Log g} (h : DataOnly s s') : s'.journalHead = s.journalHead := by
  rw [h]

/-- Writing data within the data area leaves the addresses in place. -/
theorem Placed.dataOnly {s s' : Log g} (h : s.Placed) (hd : DataOnly s s') (hn : s'.cache.Nodup)
    (h1 : g.dataStart ≤ s'.dataEnd) (h2 : s'.dataEnd ≤ g.logEnd) : s'.Placed := by
  unfold DataOnly at hd
  rw [hd]
  exact ⟨h.startAddress, h.journalStart, h.dataStart, h.logEnd, h1, h2, h.head_dvd, h.le_head, h.head_lt, hn⟩

/-- The room for a text, as `logString` computes it. -/
theorem Placed.room {s : Log g} (h : s.Placed) : u32sub s.logEnd s.dataEnd = g.logEnd - s.dataEnd := by
  rw [h.logEnd]
  exact u32sub_of_le h.dataEnd_le

/-- What is left on a page ends with the page and is not nothing. -/
theorem spaceOnPage_eq (hg : g.Fits) (s : Log g) :
    s.dataEnd + s.spaceOnPage = g.pageEnd s.dataEnd ∧ 0 < s.spaceOnPage := by
  have := Geometry.pageEnd_eq hg.pos s.dataEnd
  unfold spaceOnPage
  omega

/-- The next page is erased exactly when the text fills the current one and the next one still holds data. -/
theorem eraseNextPage_cases (hg : g.Fits) {s : Log g} (h : s.Placed) (l : Nat) :
    s.eraseNextPage l = s ∧ (s.dataEnd + l < g.pageEnd s.dataEnd ∨ g.logEnd ≤ g.pageEnd s.dataEnd) ∨
      s.eraseNextPage l = s.erasePage .data (g.pageEnd s.dataEnd) ∧ g.pageEnd s.dataEnd ≤ s.dataEnd + l ∧
        g.pageEnd s.dataEnd < g.logEnd := by
  obtain ⟨hsp, -⟩ := spaceOnPage_eq hg s
  unfold eraseNextPage
  rw [hsp, h.logEnd]
  split
  · rename_i hc
    exact Or.inr ⟨rfl, by omega, hc.2⟩
  · rename_i hc
    exact Or.inl ⟨rfl, by omega⟩

/-! ## Turns, whatever the cache holds -/

/-- What is recorded of the writing of `l` bytes of data: words inside the data area, and erases of pages that the text
enters. At an erase, what is cached of that page was cached before. -/
def DataEvent (s : Log g) (l : Nat) : LogEvent g → Prop
  | .wrote w ops => w = .data ∧ (Within g.dataStart g.logEnd ops ∨
      ∃ page, ops = [.erase page g.getPageSize] ∧ g.dataStart ≤ page ∧ page + g.getPageSize ≤ g.logEnd + 4)
  | .erased page after => g.getPageSize ∣ page ∧ s.dataEnd < page ∧ page ≤ s.dataEnd + l ∧ page < g.logEnd ∧
      ∀ b q, after.Loaded b q → page ≤ b → s.cache.Loaded b q
  | _ => False

/-- The page of the word of the FULL indicator. -/
def lastPage (g : Geometry) : Nat := g.logEnd + 4 - g.getPageSize

/-- `s'` is `s` after `l` bytes of data were written with the operations `ops`. -/
structure Appended (s s' : Log g) (l : Nat) (ops : List Op) : Prop where
  dataOnly : DataOnly s s'
  placed : s'.Placed
  dataEnd : s'.dataEnd = s.dataEnd + l
  after : s.cache.flash.After ops s'.cache.flash
  ahead : Within (wordStart s.dataEnd) (g.logEnd + 4) ops
  loaded : ∀ b q, s'.cache.Loaded b q →
    s.cache.Loaded b q ∨ Touches CONFIG_MICROBIT_LOG_CACHE_BLOCK_SIZE s.dataEnd l b
  events : ∃ es, s'.history = s.history ++ es ∧ ∀ e ∈ es, DataEvent s l e
  /-- The word of the FULL indicator is erased with its page, and otherwise stays as it is. -/
  marker : ∀ x, g.logEnd ≤ x → x < g.logEnd + 4 →
    s'.mem x = if s.dataEnd < lastPage g ∧ lastPage g ≤ s.dataEnd + l then blank else s.mem x

theorem Appended.refl {s : Log g} (h : s.Placed) : Appended s s 0 [] := by
  refine ⟨rfl, h, rfl, Flash.After.refl _, Within.nil _ _, fun _ _ h => Or.inl h, ⟨[], by simp, by simp⟩, ?_⟩
  intro x _ _
  rw [if_neg (by omega)]

/-- A later address is in no earlier word. -/
theorem wordStart_mono {a b : Nat} (h : a ≤ b) : wordStart a ≤ wordStart b := by
  unfold wordStart
  omega

/-- The words that are written lie in the data area, and in the word behind it. -/
theorem Appended.within (hg : g.Fits) {s s' : Log g} {l : Nat} {ops : List Op} (h : Appended s s' l ops)
    (hp : s.Placed) : Within g.dataStart (g.logEnd + 4) ops := by
  have hle := hp.le_dataEnd
  have h4 : (4 : Nat) ∣ g.dataStart := (by decide : 4 ∣ 256).trans hg.block_dvd_dataStart
  refine h.ahead.mono ?_ (Nat.le_refl _)
  unfold wordStart
  omega

theorem Appended.trans {s s' s'' : Log g} {l l' : Nat} {ops ops' : List Op} (h : Appended s s' l ops)
    (h' : Appended s' s'' l' ops') : Appended s s'' (l + l') (ops ++ ops') := by
  have he := h.dataEnd
  obtain ⟨es, hes, hev⟩ := h.events
  obtain ⟨es', hes', hev'⟩ := h'.events
  refine ⟨h.dataOnly.trans h'.dataOnly, h'.placed, by rw [h'.dataEnd, he, Nat.add_assoc], h.after.trans h'.after,
    h.ahead.append (h'.ahead.mono (wordStart_mono (by omega)) (Nat.le_refl _)), fun b q hq => ?_,
    ⟨es ++ es', by rw [hes', hes, List.append_assoc], ?_⟩, ?_⟩
  · rcases h'.loaded b q hq with hq | ht
    · rcases h.loaded b q hq with hq | ht
      · exact Or.inl hq
      · exact Or.inr ⟨ht.1, by have := ht.2.1; omega, ht.2.2⟩
    · exact Or.inr ⟨ht.1, by have := ht.2.1; omega, by have := ht.2.2; omega⟩
  · intro e hmem
    rcases List.mem_append.mp hmem with hmem | hmem
    · have := hev e hmem
      cases e with
      | wrote w ops => exact this
      | erased page after => exact ⟨this.1, this.2.1, by have := this.2.2.1; omega, this.2.2.2⟩
      | loading | storing | logging => exact this
    · have := hev' e hmem
      cases e with
      | wrote w ops => exact this
      | erased page after =>
        obtain ⟨h1, h2, h3, h4, h5⟩ := this
        refine ⟨h1, by omega, by omega, h4, fun b q hq hb => ?_⟩
        rcases h.loaded b q (h5 b q hq hb) with hq | ht
        · exact hq
        · have := ht.2.1
          omega
      | loading | storing | logging => exact this
  · intro x h1 h2
    rw [h'.marker x h1 h2, h.marker x h1 h2]
    by_cases hc : s.dataEnd < lastPage g ∧ lastPage g ≤ s.dataEnd + l
    · rw [if_neg (by omega), if_pos hc, if_pos (by omega)]
    · by_cases hc' : s'.dataEnd < lastPage g ∧ lastPage g ≤ s'.dataEnd + l'
      · rw [if_pos hc', if_pos (by omega)]
      · rw [if_neg hc', if_neg hc, if_neg (by omega)]

/-- `setCache` records the operations that its cache's flash went through. -/
theorem setCache_history {s : Log g} {w : Writer} {c : FSCache g CONFIG_MICROBIT_LOG_CACHE_BLOCK_SIZE 4}
    {ops : List Op} (h : s.cache.flash.After ops c.flash) :
    (s.setCache w c).history = s.history ++ [.wrote w ops] := by
  unfold setCache
  rw [h.drop]

/-- A block that the bytes from `lo` on meet starts at `lo` at the earliest, if `lo` is a block address. -/
theorem le_of_touches {bs a len b lo : Nat} (ht : Touches bs a len b) (hlo : bs ∣ lo) (h : lo ≤ a) : lo ≤ b := by
  by_contra hc
  have := add_le_of_dvd ht.1 hlo (by omega)
  have := ht.2.2
  omega

/-- The erase before a turn: the next page is erased exactly when the text fills the current one and the next one still
holds data. -/
theorem eraseNextPage_spec (hg : g.Fits) {s : Log g} (h : s.Placed) (l : Nat) :
    ∃ ops, s.cache.flash.After ops (s.eraseNextPage l).cache.flash ∧ DataOnly s (s.eraseNextPage l) ∧
      (s.eraseNextPage l).dataEnd = s.dataEnd ∧ (s.eraseNextPage l).cache.cache = s.cache.cache ∧
      Within (g.pageEnd s.dataEnd) (g.logEnd + 4) ops ∧
      (∃ es, (s.eraseNextPage l).history = s.history ++ es ∧ ∀ e ∈ es, DataEvent s (min l s.spaceOnPage) e) ∧
      ∀ x, (s.eraseNextPage l).mem x =
        if (g.pageEnd s.dataEnd ≤ s.dataEnd + l ∧ g.pageEnd s.dataEnd < g.logEnd) ∧
          g.pageEnd s.dataEnd ≤ x ∧ x < g.pageEnd s.dataEnd + g.getPageSize then blank else s.mem x := by
  obtain ⟨hb1, hb2⟩ := Geometry.pageEnd_bounds hg.pos s.dataEnd
  obtain ⟨hsp, -⟩ := spaceOnPage_eq hg s
  rcases eraseNextPage_cases hg h l with ⟨heq, hc⟩ | ⟨heq, hc1, hc2⟩
  · rw [heq]
    refine ⟨[], Flash.After.refl _, rfl, rfl, rfl, Within.nil _ _, ⟨[], by simp, by simp⟩, fun x => ?_⟩
    rw [if_neg (by omega)]
  · have hd := g.page_dvd_pageEnd s.dataEnd
    have hpage := hg.page_le hd hc2
    have hord := hg.order
    have hle := h.le_dataEnd
    have hin : g.pageEnd s.dataEnd + g.getPageSize ≤ g.getFlashEnd := by omega
    have hafter := Flash.after_erase s.cache.flash hin
    obtain ⟨c, hc⟩ : ∃ c, c = s.cache.flashErase (g.pageEnd s.dataEnd) := ⟨_, rfl⟩
    have herase : s.erasePage .data (g.pageEnd s.dataEnd) =
        (s.setCache .data c).note (.erased (g.pageEnd s.dataEnd) c) := by
      rw [hc]
      rfl
    have hhist := setCache_history (s := s) (w := .data) (c := c) (by rw [hc]; exact hafter)
    rw [heq, herase]
    subst hc
    refine ⟨_, hafter, rfl, rfl, rfl, (Within.erase _ _).mono (Nat.le_refl _) hpage,
      ⟨[.wrote .data [.erase (g.pageEnd s.dataEnd) g.getPageSize],
        .erased (g.pageEnd s.dataEnd) (s.cache.flashErase (g.pageEnd s.dataEnd))], ?_, ?_⟩, fun x => ?_⟩
    · change (s.setCache _ _).history ++ _ = _
      rw [hhist, List.append_assoc]
      rfl
    · intro e he
      rcases List.mem_cons.mp he with rfl | he
      · exact ⟨rfl, Or.inr ⟨_, rfl, by omega, hpage⟩⟩
      · rw [List.mem_singleton.mp he]
        exact ⟨hd, hb1, by omega, hc2, fun b q hq _ => hq⟩
    · change (s.cache.flash.erase _).mem x = _
      rw [Flash.erase_eq _ hin, if_congr (and_iff_right ⟨hc1, hc2⟩) rfl rfl]
      rfl

/-- The last page is the one with the end of the log. -/
theorem page_lastPage (hg : g.Fits) : g.getPageSize ∣ lastPage g ∧ lastPage g + g.getPageSize = g.logEnd + 4 ∧
    g.dataStart ≤ lastPage g ∧ lastPage g < g.logEnd := by
  have hord := hg.order
  have hps : 256 ≤ g.getPageSize := hg.block_le_page
  have hpage := add_le_of_dvd g.page_dvd_dataStart hg.page_dvd_logEnd (by omega)
  have hsum : lastPage g + g.getPageSize = g.logEnd + 4 := by
    unfold lastPage
    omega
  refine ⟨?_, hsum, by omega, by omega⟩
  have hd := hg.page_dvd_logEnd
  rw [← hsum] at hd
  exact (Nat.dvd_add_left (Nat.dvd_refl _)).mp hd

/-- One turn of the loop of `logString`. -/
theorem writeTurn_appended (hg : g.Fits) {s : Log g} (h : s.Placed) {data : List UInt8} (hd : data ≠ [])
    (hl : s.dataEnd + data.length ≤ g.logEnd) :
    ∃ ops, Appended s (s.writeTurn data) (min data.length s.spaceOnPage) ops := by
  have hpos : 0 < data.length := List.length_pos_iff.mpr hd
  obtain ⟨hsp, hsp0⟩ := spaceOnPage_eq hg s
  obtain ⟨ops₁, hafter, hdo, hend, hentries, hwithin, ⟨es, hes, hev⟩, hmem⟩ := eraseNextPage_spec hg h data.length
  obtain ⟨l, hldef⟩ : ∃ l, l = min data.length s.spaceOnPage := ⟨_, rfl⟩
  obtain ⟨s₁, hs₁⟩ : ∃ s₁, s₁ = s.eraseNextPage data.length := ⟨_, rfl⟩
  have hchunk : (data.take l).length = l := by rw [List.length_take]; omega
  have hord := hg.order
  have hle := h.le_dataEnd
  have hturn : s.writeTurn data =
      (s₁.setCache .data (s₁.cache.write s.dataEnd (data.take l)).2).setDataEnd (s.dataEnd + l) := by
    have hend₁ : s₁.dataEnd = s.dataEnd := by rw [hs₁]; exact hend
    simp only [writeTurn, ← hldef, ← hs₁, hend₁]
  rw [← hs₁] at hafter hdo hentries hes hmem
  obtain ⟨ops₂, hwrote⟩ := write_wrote (by decide) (by decide) hg.block_dvd_flashEnd s₁.cache (a := s.dataEnd)
    (t := data.take l) (h.nodup.congr hentries) (by omega)
  rw [hchunk] at hwrote
  obtain ⟨hw1, hw2⟩ := words_within (a := s.dataEnd) (l := l) ((by decide : 4 ∣ 256).trans hg.block_dvd_dataStart)
    hord.2.2.2 hle (by omega)
  have hahead : Within (wordStart s.dataEnd) g.logEnd ops₂ := Within.mono hwrote.within (Nat.le_refl _) hw2
  have hwithin₂ : Within g.dataStart g.logEnd ops₂ := Within.mono hwrote.within hw1 hw2
  have hws := wordStart_le s.dataEnd
  have hb := (Geometry.pageEnd_bounds hg.pos s.dataEnd).1
  rw [← hldef] at hev ⊢
  rw [hturn]
  obtain ⟨c, hc⟩ : ∃ c, c = (s₁.cache.write s.dataEnd (data.take l)).2 := ⟨_, rfl⟩
  rw [← hc] at hwrote ⊢
  have hdo' : DataOnly s ((s₁.setCache .data c).setDataEnd (s.dataEnd + l)) := by
    unfold DataOnly at hdo ⊢
    rw [hdo]
    rfl
  refine ⟨ops₁ ++ ops₂, hdo', h.dataOnly hdo' hwrote.nodup ?_ ?_, rfl, hafter.trans hwrote.after,
    (hwithin.mono (by omega) (Nat.le_refl _)).append (hahead.mono (Nat.le_refl _) (by omega)), fun b q hq => ?_,
    ⟨es ++ [.wrote .data ops₂], ?_, ?_⟩, ?_⟩
  · exact Nat.le_add_right_of_le hle
  · change s.dataEnd + l ≤ g.logEnd
    omega
  · exact (hwrote.loaded b q hq).imp_left (loaded_congr hentries).mp
  · change (s₁.setCache .data c).history = _
    rw [setCache_history hwrote.after, hes, List.append_assoc]
  · intro e he
    rcases List.mem_append.mp he with he | he
    · exact hev e he
    · rw [List.mem_singleton.mp he]
      exact ⟨rfl, Or.inl hwithin₂⟩
  · intro x h1 h2
    obtain ⟨hlast, hsum, hlast1, hlast2⟩ := page_lastPage hg
    change c.flash.mem x = _
    rw [hwrote.mem_eq (by omega)]
    refine (hmem x).trans (if_congr ?_ rfl rfl)
    -- of the pages after the current one, only the last one has the word on it
    constructor
    · rintro ⟨⟨h3, h4⟩, h5, h6⟩
      have hpage : ¬g.pageEnd s.dataEnd < lastPage g := fun hlt => by
        have := add_le_of_dvd (g.page_dvd_pageEnd _) hlast hlt
        omega
      have := hg.page_le (g.page_dvd_pageEnd s.dataEnd) h4
      omega
    · rintro ⟨h3, h4⟩
      have hpage : ¬lastPage g < g.pageEnd s.dataEnd := fun hlt => by
        have := add_le_of_dvd hlast (g.page_dvd_pageEnd _) hlt
        have := Geometry.pageEnd_bounds hg.pos s.dataEnd
        omega
      omega

/-- The loop of `logString`. -/
theorem writeData_appended (hg : g.Fits) (fuel : Nat) :
    ∀ (s : Log g) (data : List UInt8), s.Placed → data.length ≤ fuel → s.dataEnd + data.length ≤ g.logEnd →
      ∃ ops s', s.writeData data fuel = .ok s' ∧ Appended s s' data.length ops := by
  induction fuel with
  | zero =>
    intro s data h hf _
    obtain rfl : data = [] := List.eq_nil_of_length_eq_zero (by omega)
    exact ⟨[], s, by simp [writeData], Appended.refl h⟩
  | succ fuel ih =>
    intro s data h hf hl
    by_cases hd : data = []
    · subst hd
      exact ⟨[], s, by simp [writeData], Appended.refl h⟩
    · have hpos : 0 < data.length := List.length_pos_iff.mpr hd
      obtain ⟨-, hsp0⟩ := spaceOnPage_eq hg s
      obtain ⟨ops, hturn⟩ := writeTurn_appended hg h hd hl
      have hend := hturn.dataEnd
      have hdrop : (data.drop (min data.length s.spaceOnPage)).length =
          data.length - min data.length s.spaceOnPage := List.length_drop
      obtain ⟨ops', s', heq, hrest⟩ := ih (s.writeTurn data) (data.drop (min data.length s.spaceOnPage)) hturn.placed
        (by omega) (by omega)
      have hall := hturn.trans hrest
      rw [hdrop, Nat.add_sub_cancel' (by omega)] at hall
      refine ⟨_, s', ?_, hall⟩
      unfold writeData
      rw [if_neg hd]
      exact heq

/-! ## The text in the data area -/

/-- The data area holds exactly the text: its bytes, and after them erased ones to the end of the page. -/
structure Holds (g : Geometry) (m : Memory) (text : List UInt8) : Prop where
  le : g.dataStart + text.length ≤ g.logEnd
  bytes : slice m g.dataStart text.length = text
  tail : Blank m (g.dataStart + text.length) (min (g.pageEnd (g.dataStart + text.length)) g.logEnd)

/-- Adding a chunk that does not leave the page; if it fills the page, the next one must be erased. -/
theorem Holds.put (hg : g.Fits) {m : Memory} {text chunk : List UInt8} (h : Holds g m text)
    (hle : g.dataStart + text.length + chunk.length ≤ min (g.pageEnd (g.dataStart + text.length)) g.logEnd)
    (hnext : g.dataStart + text.length + chunk.length = g.pageEnd (g.dataStart + text.length) →
      g.pageEnd (g.dataStart + text.length) < g.logEnd →
      Blank m (g.pageEnd (g.dataStart + text.length)) (g.pageEnd (g.dataStart + text.length) + g.getPageSize)) :
    Holds g (Nor.put m (g.dataStart + text.length) chunk) (text ++ chunk) := by
  have hlen : (text ++ chunk).length = text.length + chunk.length := List.length_append
  have hold : slice (Nor.put m (g.dataStart + text.length) chunk) g.dataStart text.length = text :=
    (slice_congr fun x _ hx => put_of_lt m chunk hx).trans h.bytes
  refine ⟨by omega, ?_, ?_⟩
  · rw [hlen, slice_add, slice_put, hold]
  · rw [hlen, ← Nat.add_assoc]
    intro x h1 h2
    rw [put_of_le m chunk h1]
    by_cases hf : g.dataStart + text.length + chunk.length < g.pageEnd (g.dataStart + text.length)
    · rw [Geometry.pageEnd_of_lt hg.pos (Nat.le_add_right _ _) hf] at h2
      exact h.tail x (by omega) h2
    · have hfull : g.dataStart + text.length + chunk.length = g.pageEnd (g.dataStart + text.length) := by omega
      rw [hfull, Geometry.pageEnd_of_dvd hg.pos (g.page_dvd_pageEnd _)] at h2
      exact hnext hfull (by omega) x (by omega) (by omega)

/-- What is written outside the page of the end of the text, and outside the text, does not matter. -/
theorem Holds.congr (hg : g.Fits) {m m' : Memory} {text : List UInt8} (h : Holds g m text)
    (he : ∀ x, g.dataStart ≤ x → x < min (g.pageEnd (g.dataStart + text.length)) g.logEnd → m' x = m x) :
    Holds g m' text := by
  have hb := (Geometry.pageEnd_bounds hg.pos (g.dataStart + text.length)).1
  have hle := h.le
  refine ⟨hle, ?_, h.tail.congr fun x h1 h2 => he x (by omega) h2⟩
  exact (slice_congr fun x h1 h2 => he x h1 (by omega)).trans h.bytes

/-- The log has exactly the text in its data area, and the cache agrees with the flash there. -/
structure Stored (s : Log g) (text : List UInt8) : Prop where
  dataEnd : s.dataEnd = g.dataStart + text.length
  holds : Holds g s.mem text
  coherent : s.cache.Coherent fun x => g.dataStart ≤ x

/-- No block is cached, with a byte that is not erased, of a page that a text of `l` bytes would enter. -/
def FreshPages (s : LogState g) (l : Nat) : Prop :=
  ∀ page, g.getPageSize ∣ page → s.dataEnd < page → page ≤ s.dataEnd + l → page < s.logEnd → s.cache.Clean page

instance (s : LogState g) (l : Nat) : Decidable (FreshPages s l) :=
  decidable_of_iff (∀ k, k < l → g.getPageSize ∣ s.dataEnd + 1 + k → s.dataEnd + 1 + k < s.logEnd →
      s.cache.Clean (s.dataEnd + 1 + k))
    ⟨fun h page hd h1 h2 h3 => by
      obtain ⟨k, rfl⟩ := Nat.exists_eq_add_of_lt h1
      rw [Nat.add_right_comm] at h2 h3 hd ⊢
      exact h k (by omega) hd h3, fun h k hk hd h3 => h _ hd (by omega) (by omega) h3⟩

/-- The erase before a turn, where the cache holds nothing stale of the page: the text and the cache stay as they were. -/
theorem eraseNextPage_stored (hg : g.Fits) {s : Log g} {text : List UInt8} (hp : s.Placed) (h : s.Stored text)
    {l : Nat} (hf : FreshPages s.toLogState l) :
    (s.eraseNextPage l).Stored text ∧ ∃ ops, s.cache.flash.After ops (s.eraseNextPage l).cache.flash ∧
      ∀ n, Holds g (replay s.mem (ops.take n)) text := by
  obtain ⟨ops, hafter, -, hend, -, hwithin, -, -⟩ := eraseNextPage_spec hg hp l
  have hcut : ∀ n, Holds g (replay s.mem (ops.take n)) text := by
    refine fun n => h.holds.congr hg fun x _ h2 => (hwithin.take n).replay_eq _ (Or.inl ?_)
    rw [← h.dataEnd] at h2
    omega
  refine ⟨⟨hend.trans h.dataEnd, ?_, ?_⟩, ops, hafter, hcut⟩
  · have hall := hcut ops.length
    rw [List.take_length] at hall
    rw [LogState.mem, hafter.1]
    exact hall
  · rcases eraseNextPage_cases hg hp l with ⟨heq, -⟩ | ⟨heq, hc1, hc2⟩
    · rw [heq]
      exact h.coherent
    · have hd := g.page_dvd_pageEnd s.dataEnd
      have hpage := hg.page_le hd hc2
      have hord := hg.order
      rw [heq]
      refine h.coherent.flashErase (hg.block_dvd_of_page hd) (by omega) ?_
      exact hf _ hd (Geometry.pageEnd_bounds hg.pos _).1 hc1 (by rw [hp.logEnd]; exact hc2)

/-- One turn of the loop, where the cache holds nothing stale of the pages the text enters: it adds a chunk to the text,
and at every word in between the flash holds the text with a beginning of the chunk. -/
theorem writeTurn_stored (hg : g.Fits) {s : Log g} {text data : List UInt8} (hp : s.Placed) (h : s.Stored text)
    (hd : data ≠ []) (hl : s.dataEnd + data.length ≤ g.logEnd) (hf : FreshPages s.toLogState data.length) {l : Nat}
    (hldef : l = min data.length s.spaceOnPage) :
    (s.writeTurn data).Stored (text ++ data.take l) ∧
      FreshPages (s.writeTurn data).toLogState (data.length - l) ∧
      ∃ ops, s.cache.flash.After ops (s.writeTurn data).cache.flash ∧
        ∀ n, ∃ j, Holds g (replay s.mem (ops.take n)) (text ++ data.take j) := by
  have hpos : 0 < data.length := List.length_pos_iff.mpr hd
  obtain ⟨hsp, hsp0⟩ := spaceOnPage_eq hg s
  obtain ⟨hst, ops₁, hafter, hcut⟩ := eraseNextPage_stored hg hp h hf
  obtain ⟨_, -, hdo, hend, hentries, -, -, hmem₁⟩ := eraseNextPage_spec hg hp data.length
  obtain ⟨_, hturn⟩ := writeTurn_appended hg hp hd hl
  have hdo' := hturn.dataOnly
  obtain ⟨s₁, hs₁⟩ : ∃ s₁, s₁ = s.eraseNextPage data.length := ⟨_, rfl⟩
  rw [← hs₁] at hst hafter hend hentries hmem₁
  have hchunk : (data.take l).length = l := by rw [List.length_take]; omega
  have hord := hg.order
  have he := h.dataEnd
  have hle := hp.le_dataEnd
  -- the chunk goes to erased bytes, in blocks of the data area
  have hleg : ∀ k (hk : k < (data.take l).length), Legal (s₁.cache.flash.mem (s.dataEnd + k)) (data.take l)[k] := by
    intro k hk
    have hb : s₁.cache.flash.mem (s.dataEnd + k) = blank := hst.holds.tail _ (by omega) (by rw [← he]; omega)
    rw [hb]
    exact legal_blank _
  obtain ⟨ops₂, c, hwrite, hwrote, hmem, hcoh, hcut₂⟩ := write_put (by decide) (by decide) hg.block_dvd_flashEnd
    s₁.cache (hp.nodup.congr hentries) hst.coherent (a := s.dataEnd) (t := data.take l) (by omega)
    (fun b hb k _ => Nat.le_add_right_of_le (le_of_touches hb hg.block_dvd_dataStart hle)) hleg
  have hput : ∀ j, Holds g (Nor.put s₁.mem s.dataEnd ((data.take l).take j)) (text ++ (data.take l).take j) := by
    intro j
    have hj : ((data.take l).take j).length ≤ l := by rw [List.length_take]; omega
    rw [he]
    refine hst.holds.put hg (by rw [← he]; omega) fun h1 h2 x h3 h4 => ?_
    rw [← he] at h1 h2 h3 h4
    rw [hmem₁, if_pos ⟨⟨by omega, h2⟩, h3, h4⟩]
  have hcache : (s.writeTurn data).cache = c := by
    simp only [writeTurn, ← hldef, ← hs₁, hend, hwrite]
    rfl
  refine ⟨⟨?_, ?_, hcache ▸ hcoh⟩, ?_, ops₁ ++ ops₂, ?_, ?_⟩
  · rw [hturn.dataEnd, List.length_append, hchunk]
    omega
  · have hfull := hput l
    rw [List.take_take, Nat.min_self] at hfull
    rw [LogState.mem, hcache, hmem]
    exact hfull
  · intro page h1 h2 h3 h4 b q hq hb1 hb2 k hk
    rw [hturn.dataEnd, ← hldef] at h2 h3
    rw [hdo'.logEnd] at h4
    rw [hcache] at hq
    rcases hwrote.loaded b q hq with hq | ht
    · exact hf page h1 (by omega) (by omega) h4 b q ((loaded_congr hentries).mp hq) hb1 hb2 k hk
    · have := ht.2.1
      omega
  · rw [hcache]
    exact hafter.trans hwrote.after
  · intro n
    rw [List.take_append, replay_append]
    rcases Nat.le_total n ops₁.length with hn | hn
    · rw [Nat.sub_eq_zero_of_le hn, List.take_zero, replay_nil]
      exact ⟨0, by simpa using hcut n⟩
    · rw [List.take_of_length_le hn]
      obtain ⟨j, hj⟩ := hcut₂ (n - ops₁.length)
      refine ⟨min j l, ?_⟩
      have hm : replay s.mem ops₁ = s₁.cache.flash.mem := hafter.1.symm
      rw [hm, hj]
      have hh := hput j
      rwa [List.take_take] at hh ⊢

/-- The loop of `logString`, where the cache holds nothing stale of the pages the text enters. -/
theorem writeData_stored (hg : g.Fits) (fuel : Nat) :
    ∀ (s : Log g) (text data : List UInt8), s.Placed → s.Stored text → data.length ≤ fuel →
      s.dataEnd + data.length ≤ g.logEnd → FreshPages s.toLogState data.length →
      ∃ ops s', s.writeData data fuel = .ok s' ∧ Appended s s' data.length ops ∧ s'.Stored (text ++ data) ∧
        ∀ n, ∃ j, Holds g (replay s.mem (ops.take n)) (text ++ data.take j) := by
  induction fuel with
  | zero =>
    intro s text data hp h hf _ _
    obtain rfl : data = [] := List.eq_nil_of_length_eq_zero (by omega)
    exact ⟨[], s, by simp [writeData], Appended.refl hp, by simpa using h, fun n => ⟨0, by simpa using h.holds⟩⟩
  | succ fuel ih =>
    intro s text data hp h hf hl hfresh
    by_cases hd : data = []
    · subst hd
      exact ⟨[], s, by simp [writeData], Appended.refl hp, by simpa using h, fun n => ⟨0, by simpa using h.holds⟩⟩
    · have hpos : 0 < data.length := List.length_pos_iff.mpr hd
      obtain ⟨-, hsp0⟩ := spaceOnPage_eq hg s
      obtain ⟨l, hldef⟩ : ∃ l, l = min data.length s.spaceOnPage := ⟨_, rfl⟩
      obtain ⟨ops₁, hturn⟩ := writeTurn_appended hg hp hd hl
      obtain ⟨hst, hfresh₁, ops₁', hafter, hcut₁⟩ := writeTurn_stored hg hp h hd hl hfresh hldef
      obtain rfl := hturn.after.unique hafter
      rw [← hldef] at hturn
      have hend := hturn.dataEnd
      have hdrop : (data.drop l).length = data.length - l := List.length_drop
      obtain ⟨ops₂, s', heq, hrest, hst', hcut₂⟩ := ih (s.writeTurn data) (text ++ data.take l) (data.drop l)
        hturn.placed hst (by omega) (by omega) (by rw [hdrop]; exact hfresh₁)
      have hall := hturn.trans hrest
      rw [hdrop, Nat.add_sub_cancel' (by omega)] at hall
      refine ⟨_, s', ?_, hall, ?_, fun n => ?_⟩
      · unfold writeData
        rw [if_neg hd, ← hldef]
        exact heq
      · rw [List.append_assoc, List.take_append_drop] at hst'
        exact hst'
      · rw [List.take_append, replay_append]
        rcases Nat.le_total n ops₁.length with hn | hn
        · rw [Nat.sub_eq_zero_of_le hn, List.take_zero, replay_nil]
          exact hcut₁ n
        · obtain ⟨j, hj⟩ := hcut₂ (n - ops₁.length)
          rw [List.take_of_length_le hn, LogState.mem, ← hafter.1]
          rw [List.append_assoc, ← List.take_add] at hj
          exact ⟨l + j, hj⟩

end Log

end CodalMicrobit

import CodalMicrobit.Lemmas.Append
import CodalMicrobit.Lemmas.Text

/-!
# The journal

After a text that crosses a block boundary the journal gets a new entry, and the old one is zeroed. An entry is two
words of one cache block, so writing it is all or nothing but for a power cut between the two words. Nothing here
supposes that the cache agrees with the journal pages: a page that is erased may leave stale blocks behind, and then an
entry can be refused.
-/

namespace CodalMicrobit

open Nor Outcome FSCache

namespace FSCache

variable {g : Geometry} {bs n : Nat}

/-- `erase` changes only the cached copy of one block, if there is one. -/
theorem erase_spec (c : FSCache g bs n) (hn : c.Nodup) (page : Nat) :
    (c.erase page).flash = c.flash ∧ (c.erase page).Nodup ∧ ∀ b q, (c.erase page).Loaded b q →
      b = page ∧ (∀ k, k < bs → q k = blank) ∨ b ≠ page ∧ c.Loaded b q := by
  unfold erase
  split
  · rename_i c' h
    obtain ⟨rfl, hmiss⟩ := getCacheEntry_none h
    refine ⟨rfl, hn, fun b q hq => Or.inr ⟨?_, hq⟩⟩
    rintro rfl
    exact hmiss q hq
  · rename_i i c' h
    obtain ⟨hs, ha, hp⟩ := getCacheEntry_some h
    have hn' := hs.nodup hn
    have hai := (hs.2 i).1.trans ha
    have hsome : (c'.cache i).page.isSome := by rw [(hs.2 i).2]; exact hp
    refine ⟨hs.1, ?_, ?_⟩
    · intro j k hj hk hjk
      by_cases hji : j = i <;> by_cases hki : k = i <;>
        simp only [hji, hki, ne_eq, not_false_eq_true, Function.update_of_ne, Function.update_self] at hj hk hjk ⊢
      · exact (hki (hn' i k hsome hk hjk).symm).elim
      · exact (hji (hn' j i hj hsome hjk)).elim
      · exact hn' j k hj hk hjk
    · rintro b q ⟨j, hja, hjq⟩
      by_cases hji : j = i
      · subst hji
        simp only [Function.update_self] at hja hjq
        refine Or.inl ⟨hja.symm.trans hai, fun k hk => ?_⟩
        rw [← Option.some.inj hjq]
        exact if_pos hk
      · simp only [ne_eq, hji, not_false_eq_true, Function.update_of_ne] at hja hjq
        refine Or.inr ⟨fun hb => hji (hn' j i (by simp [hjq]) hsome ?_), hs.loaded.mp ⟨j, hja, hjq⟩⟩
        rw [hja, hb, hai]

variable [NeZero n]

/-- Writing bytes of one block: it is refused and changes nothing, if the cached copy of the block cannot take them, and
otherwise they are what the cache gets, and the flash is programmed with the words that cover them. -/
theorem write_turn (hbs : 0 < bs) (h4 : 4 ∣ bs) (hdiv : bs ∣ g.getFlashEnd) (c : FSCache g bs n) (hn : c.Nodup)
    {a : Nat} {t : List UInt8} (ht : t ≠ []) (hl : t.length ≤ bs - a % bs) (ha : a + t.length < g.getFlashEnd) :
    ∃ c' p, (c.Loaded (a / bs * bs) p ∨ ∀ k, k < bs → p k = c.flash.mem (a / bs * bs + k)) ∧
      (c.write a t = (.DEVICE_NOT_SUPPORTED, c') ∧ Fetched c a t.length c' ∧
        (¬∀ k (h : k < t.length), Legal (p (a % bs + k)) t[k]) ∨
      c.write a t = (.DEVICE_OK, c') ∧ Wrote c a t.length (turnOps bs a t.length (put p (a % bs) t)) c' ∧
        (∀ k (h : k < t.length), Legal (p (a % bs + k)) t[k]) ∧
        ∀ b q, c'.Loaded b q → b = a / bs * bs ∧ q = put p (a % bs) t ∨ b ≠ a / bs * bs ∧ c.Loaded b q) := by
  obtain ⟨i, p, c₁, hp, h₁⟩ := cachePage_paged c hn (a / bs * bs)
  have hpos : 0 < t.length := List.length_pos_iff.mpr ht
  obtain ⟨m, hm⟩ : ∃ m, t.length = m + 1 := ⟨t.length - 1, by omega⟩
  obtain ⟨hd, hsum, hlt⟩ := block_facts (a := a) hbs
  have hend : a / bs * bs + bs ≤ g.getFlashEnd := block_le_end hd hdiv (by omega)
  have hmin : min t.length (bs - a % bs) = t.length := by omega
  have hu : u32 (a + t.length) = a + t.length := by
    have := g.getFlashEnd_lt
    exact u32_of_lt (by omega)
  have hfetch := validateLoop_fetched hbs h4 hdiv t.length c a t hn (by omega)
  have horigin : c.Loaded (a / bs * bs) p ∨ ∀ k, k < bs → p k = c.flash.mem (a / bs * bs + k) := by
    rcases h₁.origin with hl' | ⟨-, d, rfl⟩
    · exact Or.inl hl'
    · exact Or.inr fun k hk => read_block h4 hend hk
  -- validation is one turn, since the bytes lie in one block
  have hval : ∀ m, c.validateLoop a t (m + 1) =
      (!(List.range t.length).any fun k => needsErase (p (a % bs + k)) (t.getD k 0), c₁) := by
    intro m
    simp only [validateLoop, ht, if_false, hp, hmin, hu, h₁.page_eq, List.drop_length]
    cases (List.range t.length).any fun k => needsErase (p (a % bs + k)) (t.getD k 0)
    · cases m <;> rfl
    · rfl
  have hval : c.validateLoop a t t.length = _ := (congrArg _ hm).trans (hval m)
  rw [hval] at hfetch
  have hwrite : c.write a t = if (List.range t.length).any fun k => needsErase (p (a % bs + k)) (t.getD k 0)
      then (.DEVICE_NOT_SUPPORTED, c₁) else (.DEVICE_OK, c₁.writeLoop a t t.length) := by
    unfold write
    rw [outOfLimits_eq_false ha, if_neg (by simp), hval]
    cases (List.range t.length).any fun k => needsErase (p (a % bs + k)) (t.getD k 0) <;> rfl
  cases hany : (List.range t.length).any fun k => needsErase (p (a % bs + k)) (t.getD k 0) with
  | true =>
    rw [hany, if_pos rfl] at hwrite
    refine ⟨c₁, p, horigin, Or.inl ⟨hwrite, hfetch, fun hleg => ?_⟩⟩
    obtain ⟨k, hk, hne⟩ := List.any_eq_true.mp hany
    have hk := List.mem_range.mp hk
    rw [List.getD_eq_getElem _ _ hk, (needsErase_eq_false _ _).mpr (hleg k hk)] at hne
    exact absurd hne Bool.false_ne_true
  | false =>
    rw [hany, if_neg Bool.false_ne_true] at hwrite
    have hloaded : c₁.Loaded (a / bs * bs) p := ⟨i, h₁.address, h₁.page⟩
    obtain ⟨j, p', c₂, hp₂, h₂⟩ := cachePage_paged c₁ h₁.nodup (a / bs * bs)
    obtain rfl : p' = p := by
      rcases h₂.origin with hl' | ⟨hmiss, -⟩
      · exact h₁.nodup.loaded_unique hl' hloaded
      · exact absurd hloaded (hmiss p)
    have hloop : ∀ m, c₁.writeLoop a t (m + 1) = turn c₂ j a t.length (put p' (a % bs) t) := by
      intro m
      rw [writeLoop_succ ht hp₂ h₂ (by omega) hmin.symm, List.take_length, List.drop_length]
      cases m <;> rfl
    have hloop : c₁.writeLoop a t t.length = _ := (congrArg _ hm).trans (hloop m)
    have hwrote := hfetch.wrote.trans (turn_wrote hbs h4 hdiv h₂ hl hpos (by omega) (put p' (a % bs) t))
    rw [List.nil_append] at hwrote
    refine ⟨_, p', horigin, Or.inr ⟨hwrite.trans (by rw [hloop]), hwrote, fun k hk => ?_, fun b q hq => ?_⟩⟩
    · have hk' := List.any_eq_false.mp hany k (List.mem_range.mpr hk)
      rw [Bool.not_eq_true, needsErase_eq_false, List.getD_eq_getElem _ _ hk] at hk'
      exact hk'
    · rcases (h₂.setPage _).2 b q hq with hb | ⟨hb, hq⟩
      · exact Or.inl hb
      · rcases h₁.others b q hq with ⟨hb', -⟩ | ho
        · exact absurd hb' hb
        · exact Or.inr ho

/-- Writing whole words of one block. -/
theorem write_block (hbs : 0 < bs) (h4 : 4 ∣ bs) (hdiv : bs ∣ g.getFlashEnd) (c : FSCache g bs n) (hn : c.Nodup)
    {a : Nat} {t : List UInt8} (ht : t ≠ []) (ha4 : 4 ∣ a) (ht4 : 4 ∣ t.length) (hl : t.length ≤ bs - a % bs)
    (ha : a + t.length < g.getFlashEnd) :
    (∃ c', c.write a t = (.DEVICE_NOT_SUPPORTED, c') ∧ Fetched c a t.length c') ∨
    ∃ c' p src, c.write a t = (.DEVICE_OK, c') ∧ (∀ k (h : k < t.length), src k = t[k]) ∧
      Wrote c a t.length (programWords 4 a (t.length / 4) src) c' ∧
      (c.Loaded (a / bs * bs) p ∨ ∀ k, k < bs → p k = c.flash.mem (a / bs * bs + k)) ∧
      (∀ k (h : k < t.length), Legal (p (a % bs + k)) t[k]) ∧
      ∀ b q, c'.Loaded b q → b = a / bs * bs ∧ q = put p (a % bs) t ∨ b ≠ a / bs * bs ∧ c.Loaded b q := by
  obtain ⟨c', p, horigin, ⟨hw, hf, -⟩ | ⟨hw, hwrote, hleg, hload⟩⟩ := write_turn hbs h4 hdiv c hn ht hl ha
  · exact Or.inl ⟨c', hw, hf⟩
  · have hws : wordStart a = a := by
      unfold wordStart
      omega
    have hwe : wordEnd (a + t.length) = a + t.length := by
      unfold wordEnd
      rw [if_neg (by omega)]
      omega
    have hops : turnOps bs a t.length (put p (a % bs) t) =
        programWords 4 a (t.length / 4) fun k => put p (a % bs) t (a % bs + k) := by
      unfold turnOps
      rw [hws, hwe, Nat.add_sub_cancel_left]
    rw [hops] at hwrote
    exact Or.inr ⟨c', p, _, hw, fun k hk => put_add _ _ _ _ hk, hwrote, horigin, hleg, hload⟩

end FSCache

namespace Log

variable {g : Geometry}

/-- Moving the journal on changes the cache, the journal head and the record, and nothing else. -/
def JournalOnly (s s' : Log g) : Prop :=
  s' = { s with cache := s'.cache, journalHead := s'.journalHead, history := s'.history }

theorem JournalOnly.trans {s s' s'' : Log g} (h : JournalOnly s s') (h' : JournalOnly s' s'') : JournalOnly s s'' := by
  unfold JournalOnly at h h' ⊢
  rw [h'] at *
  rw [h]

/-- Writing the journal leaves the end of the data alone. -/
theorem JournalOnly.dataEnd {s s' : Log g} (h : JournalOnly s s') : s'.dataEnd = s.dataEnd := by
  rw [h]

/-- Writing the journal leaves the addresses in place. -/
theorem Placed.journalOnly {s s' : Log g} (h : s.Placed) (hj : JournalOnly s s') (hn : s'.cache.Nodup)
    (h1 : MICROBIT_LOG_JOURNAL_ENTRY_SIZE ∣ s'.journalHead) (h2 : g.journalStart ≤ s'.journalHead)
    (h3 : s'.journalHead < g.dataStart) : s'.Placed := by
  unfold JournalOnly at hj
  rw [hj]
  exact ⟨h.startAddress, h.journalStart, h.dataStart, h.logEnd, h.le_dataEnd, h.dataEnd_le, h1, h2, h3, hn⟩

/-- The address of the next journal entry. -/
def nextHead (s : Log g) : Nat :=
  if s.journalHead + MICROBIT_LOG_JOURNAL_ENTRY_SIZE = g.dataStart then g.journalStart
  else s.journalHead + MICROBIT_LOG_JOURNAL_ENTRY_SIZE

/-- What is recorded of the journal: operations inside the journal, and the erase of the page that the head enters, of
which the first block is then not cached, or as erased. -/
def JournalEvent (s : Log g) : LogEvent g → Prop
  | .wrote w ops => w = .journal ∧ Within g.journalStart g.dataStart ops
  | .erased page after => page = s.nextHead ∧ g.getPageSize ∣ page ∧
      ∀ b q, after.Loaded b q → b = page ∧ (∀ k, k < CONFIG_MICROBIT_LOG_CACHE_BLOCK_SIZE → q k = blank) ∨
        b ≠ page ∧ s.cache.Loaded b q
  | _ => False

/-- The next head of the journal is a slot of it. -/
theorem nextHead_facts (hg : g.Fits) {s : Log g} (h : s.Placed) :
    MICROBIT_LOG_JOURNAL_ENTRY_SIZE ∣ s.nextHead ∧ g.journalStart ≤ s.nextHead ∧ s.nextHead < g.dataStart := by
  have h8 : (8 : Nat) ∣ g.dataStart := (by decide : 8 ∣ 256).trans hg.block_dvd_dataStart
  have h8' : (8 : Nat) ∣ g.journalStart := (by decide : 8 ∣ 256).trans hg.block_dvd_journalStart
  have hd : (8 : Nat) ∣ s.journalHead := h.head_dvd
  have h1 := h.le_head
  have h2 := h.head_lt
  have hpos := hg.pos
  have hds := g.dataStart_eq
  unfold nextHead MICROBIT_LOG_JOURNAL_ENTRY_SIZE
  split
  · exact ⟨h8', Nat.le_refl _, by omega⟩
  · exact ⟨by omega, by omega, by omega⟩

/-- The operations of moving the head on: none on the same page, and the erase of a new one. -/
def AdvanceOps (s : Log g) (ops : List Op) : Prop :=
  ops = [] ∧ g.pageEnd s.nextHead = g.pageEnd s.journalHead ∧ s.nextHead = s.journalHead + 8 ∨
    ops = [.erase s.nextHead g.getPageSize] ∧ g.getPageSize ∣ s.nextHead

/-- The operations of writing an entry: none if it is refused, and otherwise its two words. -/
def EntryOps (a : Nat) (t : List UInt8) (ops : List Op) : Prop :=
  ops = [] ∨ ∃ src, ops = programWords 4 a 2 src ∧ ∀ k (h : k < t.length), src k = t[k]

/-- Moving the head on: the page of the new head is erased when it is a new one. -/
theorem advanceJournal_spec (hg : g.Fits) {s : Log g} (h : s.Placed) :
    ∃ ops, s.cache.flash.After ops s.advanceJournal.cache.flash ∧ JournalOnly s s.advanceJournal ∧
      s.advanceJournal.journalHead = s.nextHead ∧ s.advanceJournal.Placed ∧
      (∀ b q, s.advanceJournal.cache.Loaded b q → b = s.nextHead ∧ g.getPageSize ∣ b ∧ (∀ k, k < 256 → q k = blank) ∨
        s.cache.Loaded b q) ∧
      (∃ es, s.advanceJournal.history = s.history ++ es ∧ ∀ e ∈ es, JournalEvent s e) ∧ AdvanceOps s ops := by
  have hds : g.getPageSize ∣ g.dataStart := g.page_dvd_dataStart
  obtain ⟨hn1, hn2, hn3⟩ := nextHead_facts hg h
  by_cases hpage : (s.journalHead + MICROBIT_LOG_JOURNAL_ENTRY_SIZE) % g.getPageSize = 0
  · have hdvd : g.getPageSize ∣ s.nextHead := by
      unfold nextHead
      split
      · exact g.page_dvd_journalStart
      · exact Nat.dvd_of_mod_eq_zero hpage
    have hin : s.nextHead + g.getPageSize ≤ g.dataStart := add_le_of_dvd hdvd hds hn3
    have hord := hg.order
    obtain ⟨hflash, hnd, hload⟩ := erase_spec s.cache h.nodup s.nextHead
    obtain ⟨c, hc⟩ : ∃ c, c = (s.cache.erase s.nextHead).flashErase s.nextHead := ⟨_, rfl⟩
    obtain ⟨s₁, hs₁⟩ : ∃ s₁ : Log g, s₁ = { s with cache := s.cache.erase s.nextHead, journalHead := s.nextHead } :=
      ⟨_, rfl⟩
    have hadv : s.advanceJournal = (s₁.setCache .journal c).note (.erased s.nextHead c) := by
      rw [hs₁, hc]
      simp only [advanceJournal, hpage, if_true, h.dataStart, h.journalStart, nextHead]
      split <;> rfl
    have hafter : s.cache.flash.After [.erase s.nextHead g.getPageSize] c.flash := by
      rw [hc, ← hflash]
      exact Flash.after_erase _ (by omega)
    have hhist : (s₁.setCache .journal c).history = s.history ++ [.wrote .journal [.erase s.nextHead g.getPageSize]] := by
      rw [@setCache_history _ _ _ _ [.erase s.nextHead g.getPageSize]]
      · rw [hs₁]
      · rw [hs₁]
        dsimp only
        rw [hflash]
        exact hafter
    have hentries : c.cache = (s.cache.erase s.nextHead).cache := by rw [hc]; rfl
    have hjo : JournalOnly s s.advanceJournal := by
      rw [hadv, hs₁]
      rfl
    have hcache : s.advanceJournal.cache = c := by rw [hadv]; rfl
    have hhead : s.advanceJournal.journalHead = s.nextHead := by rw [hadv, hs₁]; rfl
    refine ⟨_, by rw [hcache]; exact hafter, hjo, hhead, h.journalOnly hjo ?_ ?_ ?_ ?_, fun b q hq => ?_,
      ⟨[.wrote .journal [.erase s.nextHead g.getPageSize], .erased s.nextHead c], ?_, ?_⟩, Or.inr ⟨rfl, hdvd⟩⟩
    · rw [hcache]
      exact hnd.congr hentries
    · rw [hhead]
      exact hn1
    · rw [hhead]
      exact hn2
    · rw [hhead]
      exact hn3
    · rw [hcache, loaded_congr hentries] at hq
      rcases hload b q hq with ⟨hb, hblank⟩ | ⟨-, hq⟩
      · exact Or.inl ⟨hb, hb ▸ hdvd, hblank⟩
      · exact Or.inr hq
    · rw [hadv]
      change (s₁.setCache .journal c).history ++ _ = _
      rw [hhist, List.append_assoc]
      rfl
    · intro e he
      rcases List.mem_cons.mp he with rfl | he
      · exact ⟨rfl, (Within.erase _ _).mono hn2 hin⟩
      · rw [List.mem_singleton.mp he]
        exact ⟨rfl, hdvd, fun b q hq => hload b q ((loaded_congr hentries).mp hq)⟩
  · have hne : s.journalHead + MICROBIT_LOG_JOURNAL_ENTRY_SIZE ≠ g.dataStart := by
      intro heq
      rw [heq] at hpage
      exact hpage (Nat.mod_eq_zero_of_dvd hds)
    have hnext : s.nextHead = s.journalHead + 8 := if_neg hne
    have hadv : s.advanceJournal = { s with journalHead := s.nextHead } := by
      rw [hnext]
      simp only [advanceJournal, hpage, if_false]
      rfl
    have hjo : JournalOnly s s.advanceJournal := by
      rw [hadv]
      rfl
    have hend : g.pageEnd s.nextHead = g.pageEnd s.journalHead := by
      refine Geometry.pageEnd_of_lt hg.pos (by omega) ?_
      have h8 : (8 : Nat) ∣ g.pageEnd s.journalHead :=
        (by decide : 8 ∣ 256).trans (hg.block_dvd_of_page (g.page_dvd_pageEnd _))
      have hd : (8 : Nat) ∣ s.journalHead := h.head_dvd
      have hb := (Geometry.pageEnd_bounds hg.pos s.journalHead).1
      have hneq : s.journalHead + 8 ≠ g.pageEnd s.journalHead := by
        intro heq
        refine hpage ?_
        change (s.journalHead + 8) % _ = 0
        rw [heq]
        exact Nat.mod_eq_zero_of_dvd (g.page_dvd_pageEnd _)
      omega
    refine ⟨[], ?_, hjo, by rw [hadv], h.journalOnly hjo ?_ ?_ ?_ ?_, fun b q hq => Or.inr ?_, ⟨[], ?_, by simp⟩,
      Or.inl ⟨rfl, hend, hnext⟩⟩
    all_goals rw [hadv] at *
    · exact Flash.After.refl _
    · exact h.nodup
    · exact hn1
    · exact hn2
    · exact hn3
    · exact hq
    · simp

/-- Writing one entry: it is refused, or both of its words go to the flash. -/
theorem writeEntry_spec (hg : g.Fits) {s : Log g} (h : s.Placed) {a : Nat} {t : List UInt8} (ha : 8 ∣ a)
    (h2 : a < g.dataStart) (ht : t.length = 8) :
    ∃ ops, s.cache.flash.After ops (s.writeEntry a t).cache.flash ∧ JournalOnly s (s.writeEntry a t) ∧
      (s.writeEntry a t).journalHead = s.journalHead ∧ (s.writeEntry a t).Placed ∧
      (∀ b q, (s.writeEntry a t).cache.Loaded b q → s.cache.Loaded b q ∨ Touches 256 a 8 b) ∧
      (s.writeEntry a t).history = s.history ++ [.wrote .journal ops] ∧ Within a (a + 8) ops ∧ EntryOps a t ops := by
  have h8 : (8 : Nat) ∣ g.dataStart := (by decide : 8 ∣ 256).trans hg.block_dvd_dataStart
  have hord := hg.order
  obtain ⟨c, hc⟩ : ∃ c, c = (s.cache.write a t).2 := ⟨_, rfl⟩
  have hentry : s.writeEntry a t = s.setCache .journal c := by rw [hc]; rfl
  have hjo : JournalOnly s (s.writeEntry a t) := by rw [hentry]; rfl
  have hmod : a / 256 * 256 + a % 256 = a := by omega
  have hfit : t.length ≤ 256 - a % 256 := by omega
  have key : ∃ ops, FSCache.Wrote s.cache a 8 ops c ∧ EntryOps a t ops := by
    rcases write_block (by decide) (by decide) hg.block_dvd_flashEnd s.cache h.nodup (a := a) (t := t)
      (by rintro rfl; simp at ht) (by omega) (by omega) hfit (by omega) with
      ⟨c', hw, hf⟩ | ⟨c', p, src, hw, hsrc, hwrote, -⟩
    · rw [hw] at hc
      exact ⟨[], hc ▸ ht ▸ hf.wrote, Or.inl rfl⟩
    · rw [hw] at hc
      rw [ht] at hwrote
      exact ⟨_, hc ▸ hwrote, Or.inr ⟨src, rfl, hsrc⟩⟩
  obtain ⟨ops, hwrote, hops⟩ := key
  have hws : wordStart a = a ∧ wordEnd (a + 8) = a + 8 := by
    unfold wordStart wordEnd
    rw [if_neg (by omega)]
    omega
  refine ⟨ops, by rw [hentry]; exact hwrote.after, hjo, by rw [hentry]; rfl,
    h.journalOnly hjo (by rw [hentry]; exact hwrote.nodup) ?_ ?_ ?_, fun b q hq => ?_, ?_, ?_, hops⟩
  · rw [hentry]; exact h.head_dvd
  · rw [hentry]; exact h.le_head
  · rw [hentry]; exact h.head_lt
  · rw [hentry] at hq
    exact hwrote.loaded b q hq
  · rw [hentry, setCache_history hwrote.after]
  · have := hwrote.within
    rw [hws.1, hws.2] at this
    exact this

/-- `s'` is `s` after the journal moved on with the operations `ops`. -/
structure Journaled (s s' : Log g) (ops : List Op) : Prop where
  journalOnly : JournalOnly s s'
  head : s'.journalHead = s.nextHead
  placed : s'.Placed
  after : s.cache.flash.After ops s'.cache.flash
  within : Within g.journalStart g.dataStart ops
  loaded : ∀ b q, s'.cache.Loaded b q →
    s.cache.Loaded b q ∨ CONFIG_MICROBIT_LOG_CACHE_BLOCK_SIZE ∣ b ∧ g.journalStart ≤ b ∧ b < g.dataStart
  events : ∃ es, s'.history = s.history ++ es ∧ ∀ e ∈ es, JournalEvent s e

/-- The two entries that are written when the head moves on. -/
theorem writeJournal_parts (hg : g.Fits) {s : Log g} (h : s.Placed) :
    ∃ ops₁ ops₂ ops₃, Journaled s s.writeJournal (ops₁ ++ (ops₂ ++ ops₃)) ∧ AdvanceOps s ops₁ ∧
      EntryOps s.nextHead (writeNum s.journalLength) ops₂ ∧
      EntryOps s.journalHead (List.replicate MICROBIT_LOG_JOURNAL_ENTRY_SIZE 0) ops₃ := by
  obtain ⟨hn1, hn2, hn3⟩ := nextHead_facts hg h
  obtain ⟨ops₁, hafter₁, hjo₁, hhead₁, hp₁, hload₁, ⟨es, hes, hev⟩, hshape⟩ := advanceJournal_spec hg h
  have hw₁ : Within g.journalStart g.dataStart ops₁ := by
    rcases hshape with ⟨rfl, -⟩ | ⟨rfl, hd⟩
    · exact Within.nil _ _
    · exact (Within.erase _ _).mono hn2 (add_le_of_dvd hd g.page_dvd_dataStart hn3)
  obtain ⟨s₁, hs₁⟩ : ∃ s₁, s₁ = s.advanceJournal := ⟨_, rfl⟩
  rw [← hs₁] at hafter₁ hjo₁ hhead₁ hp₁ hload₁ hes
  have hlen : s₁.journalLength = s.journalLength := by
    unfold journalLength
    rw [hjo₁]
  obtain ⟨ops₂, hafter₂, hjo₂, hhead₂, hp₂, hload₂, hes₂, hw₂, hshape₂⟩ :=
    writeEntry_spec hg hp₁ (t := writeNum s₁.journalLength) hn1 hn3 (writeNum_length _)
  obtain ⟨s₂, hs₂⟩ : ∃ s₂, s₂ = s₁.writeEntry s.nextHead (writeNum s₁.journalLength) := ⟨_, rfl⟩
  rw [← hs₂] at hafter₂ hjo₂ hhead₂ hp₂ hload₂ hes₂
  obtain ⟨ops₃, hafter₃, hjo₃, hhead₃, hp₃, hload₃, hes₃, hw₃, hshape₃⟩ :=
    writeEntry_spec hg hp₂ (t := List.replicate 8 0) h.head_dvd h.head_lt (by simp)
  have heq : s.writeJournal = s₂.writeEntry s.journalHead (List.replicate 8 0) := by
    rw [hs₂, ← hhead₁, hs₁]
    rfl
  have h8 : (8 : Nat) ∣ g.dataStart := (by decide : 8 ∣ 256).trans hg.block_dvd_dataStart
  have hslot : ∀ {a : Nat}, 8 ∣ a → g.journalStart ≤ a → a < g.dataStart → ∀ {b : Nat}, Touches 256 a 8 b →
      CONFIG_MICROBIT_LOG_CACHE_BLOCK_SIZE ∣ b ∧ g.journalStart ≤ b ∧ b < g.dataStart := by
    intro a ha h1 h2 b ht
    have hlo := le_of_touches ht hg.block_dvd_journalStart h1
    have hd : (8 : Nat) ∣ a := ha
    have := ht.2.1
    exact ⟨ht.1, hlo, by omega⟩
  have hmono : ∀ {a : Nat}, 8 ∣ a → g.journalStart ≤ a → a < g.dataStart → ∀ {ops : List Op}, Within a (a + 8) ops →
      Within g.journalStart g.dataStart ops := by
    intro a ha h1 h2 ops hw
    have hd : (8 : Nat) ∣ a := ha
    exact hw.mono h1 (by omega)
  rw [hlen] at hshape₂
  rw [heq]
  refine ⟨ops₁, ops₂, ops₃, ⟨hjo₁.trans (hjo₂.trans hjo₃), hhead₃.trans (hhead₂.trans hhead₁), hp₃,
    hafter₁.trans (hafter₂.trans hafter₃), hw₁.append ((hmono hn1 hn2 hn3 hw₂).append
      (hmono h.head_dvd h.le_head h.head_lt hw₃)), fun b q hq => ?_,
    ⟨es ++ [.wrote .journal ops₂] ++ [.wrote .journal ops₃], ?_, ?_⟩⟩, hshape, hshape₂, hshape₃⟩
  · rcases hload₃ b q hq with hq | ht
    · rcases hload₂ b q hq with hq | ht
      · rcases hload₁ b q hq with ⟨rfl, hd, -⟩ | hq
        · exact Or.inr ⟨hg.block_dvd_of_page hd, hn2, hn3⟩
        · exact Or.inl hq
      · exact Or.inr (hslot hn1 hn2 hn3 ht)
    · exact Or.inr (hslot h.head_dvd h.le_head h.head_lt ht)
  · rw [hes₃, hes₂, hes]
    simp only [List.append_assoc]
  · intro e he
    simp only [List.append_assoc, List.mem_append, List.mem_singleton] at he
    rcases he with he | rfl | rfl
    · exact hev e he
    · exact ⟨rfl, hmono hn1 hn2 hn3 hw₂⟩
    · exact ⟨rfl, hmono h.head_dvd h.le_head h.head_lt hw₃⟩

/-- `writeJournal` writes the journal and nothing else. -/
theorem writeJournal_journaled (hg : g.Fits) {s : Log g} (h : s.Placed) : ∃ ops, Journaled s s.writeJournal ops := by
  obtain ⟨ops₁, ops₂, ops₃, hj, -⟩ := writeJournal_parts hg h
  exact ⟨_, hj⟩

end Log

end CodalMicrobit

import CodalMicrobit.Lemmas.LogString
import CodalMicrobit.Lemmas.Rows

/-!
# Storing headings

The column headings lie in the page of the metadata, behind it. A new list goes behind the one stored before, which is
zeroed. Where the list fits into the page, storing it touches that page only; where the cache agrees with the flash there,
the list is written if the flash can take it, and otherwise nothing is.
-/

namespace CodalMicrobit

open Nor Outcome FSCache

namespace Log

variable {g : Geometry}

/-- Where `endRow` begins to store headings: at the ones stored before, or behind the metadata. -/
def headingAt (s : LogState g) : Nat := if s.headingStart = 0 then s.startAddress + metaDataSize else s.headingStart

/-- The list of headings fits into the page of the metadata, behind the ones stored before. -/
def HeadingFits (s : LogState g) (h : ManagedString) : Prop :=
  headingAt s + s.headingLength + h.length ≤ s.journalStart

instance (s : LogState g) (h : ManagedString) : Decidable (HeadingFits s h) := inferInstanceAs (Decidable (_ ≤ _))

/-- `t` is `s` after a list of headings was stored with the operations `ops`. -/
structure Headed (s t : Log g) (ops : List Op) : Prop where
  same : t = { s with cache := t.cache, headingStart := t.headingStart, history := t.history }
  headingStart : t.headingStart = headingAt s.toLogState + s.headingLength
  nodup : t.cache.Nodup
  after : s.cache.flash.After ops t.cache.flash
  within : Within (headingAt s.toLogState / 4 * 4) g.journalStart ops
  loaded : ∀ b q, t.cache.Loaded b q →
    s.cache.Loaded b q ∨ CONFIG_MICROBIT_LOG_CACHE_BLOCK_SIZE ∣ b ∧ g.logStart ≤ b ∧ b < g.journalStart

/-- Storing headings leaves the addresses in place. -/
theorem Headed.placed {s t : Log g} {ops : List Op} (h : Headed s t ops) (hp : s.Placed) : t.Placed := by
  have hn := h.nodup
  rw [h.same] at hn ⊢
  exact ⟨hp.startAddress, hp.journalStart, hp.dataStart, hp.logEnd, hp.le_dataEnd, hp.dataEnd_le, hp.head_dvd,
    hp.le_head, hp.head_lt, hn⟩

/-- Outside the page of the metadata, agreement of cache and flash is kept. -/
theorem Headed.agrees (hg : g.Fits) {s t : Log g} {ops : List Op} {r : UInt8 → UInt8 → Prop} {R : Nat → Prop}
    (h : Headed s t ops) (hstart : g.logStart ≤ headingAt s.toLogState) (hc : Agrees r s.cache R)
    (hR : ∀ x, R x → x < g.logStart ∨ g.journalStart ≤ x) : Agrees r t.cache R := by
  have h4 : (4 : Nat) ∣ g.logStart := (by decide : 4 ∣ 256).trans hg.block_dvd_logStart
  refine hc.frame (fun x hx => ?_) fun b q hb hq => (h.loaded b q hq).imp_right fun hj k hk hx => ?_
  · rw [h.after.1]
    have := hR x hx
    exact h.within.replay_eq _ (by omega)
  · have := add_le_of_dvd hb hg.block_dvd_journalStart hj.2.2
    have := hR _ hx
    omega

/-- Storing headings leaves the text in the data area. -/
theorem Headed.stored (hg : g.Fits) {s t : Log g} {ops : List Op} {text : List UInt8} (h : Headed s t ops)
    (hstart : g.logStart ≤ headingAt s.toLogState) (hs : s.Stored text) : t.Stored text := by
  have hds := g.dataStart_eq
  refine ⟨?_, ?_, h.agrees hg hstart hs.coherent fun x hx => Or.inr (by omega)⟩
  · rw [h.same]
    exact hs.dataEnd
  · refine hs.holds.congr hg fun x hx _ => ?_
    rw [LogState.mem, h.after.1]
    exact h.within.replay_eq _ (Or.inr (by omega))

/-- The log with its headings' place settled, and the list recorded. -/
def settled (s : Log g) (h : ManagedString) : Log g :=
  { s.note (.storing s.toLogState h) with headingStart := headingAt s.toLogState }

/-- Storing is two writes: zeroes over the old headings, and the new ones behind them. -/
theorem storeHeadings_eq (s : Log g) (h : ManagedString) (hsum : headingAt s.toLogState + s.headingLength < 2 ^ 32) :
    ∃ s₁, s₁ = (s.settled h).setCache .heading
        (s.cache.write (headingAt s.toLogState) (List.replicate s.headingLength 0)).2 ∧
      s.storeHeadings h = ({ s₁ with headingStart := headingAt s.toLogState + s.headingLength } : Log g).setCache .heading
        (s₁.cache.write (headingAt s.toLogState + s.headingLength) h).2 := by
  refine ⟨_, rfl, ?_⟩
  have hu : u32 (headingAt s.toLogState + s.headingLength) = headingAt s.toLogState + s.headingLength :=
    u32_of_lt hsum
  rw [← hu]
  unfold storeHeadings settled headingAt
  dsimp only
  by_cases h0 : s.headingStart = 0
  · simp only [note, h0, if_true]
    rfl
  · simp only [note, h0, if_false]
    rfl

/-- Storing a list that fits, whatever the cache holds. -/
theorem storeHeadings_headed (hg : g.Fits) {s : Log g} (h : s.Placed) {t : ManagedString}
    (hstart : g.logStart ≤ headingAt s.toLogState) (hfit : HeadingFits s.toLogState t) :
    ∃ ops₁ ops₂, Headed s (s.storeHeadings t) (ops₁ ++ ops₂) ∧ (s.storeHeadings t).history =
      s.history ++ [.storing s.toLogState t, .wrote .heading ops₁, .wrote .heading ops₂] := by
  have hord := hg.order
  have hds := g.dataStart_eq
  unfold HeadingFits at hfit
  rw [h.journalStart] at hfit
  obtain ⟨a, ha⟩ : ∃ a, a = headingAt s.toLogState := ⟨_, rfl⟩
  rw [← ha] at hstart hfit
  obtain ⟨s₁, hs₁, heq⟩ := storeHeadings_eq s t (by omega)
  rw [← ha] at hs₁ heq
  have h4 : (4 : Nat) ∣ g.journalStart := (by decide : 4 ∣ 256).trans hg.block_dvd_journalStart
  have hz : (List.replicate s.headingLength (0 : UInt8)).length = s.headingLength := List.length_replicate
  obtain ⟨ops₁, hw₁⟩ := write_wrote (by decide) (by decide) hg.block_dvd_flashEnd s.cache (a := a)
    (t := List.replicate s.headingLength 0) h.nodup (by omega)
  obtain ⟨c₁, hc₁⟩ : ∃ c₁, c₁ = (s.cache.write a (List.replicate s.headingLength 0)).2 := ⟨_, rfl⟩
  have hcache₁ : s₁.cache = c₁ := by rw [hs₁, hc₁]; rfl
  obtain ⟨ops₂, hw₂⟩ := write_wrote (by decide) (by decide) hg.block_dvd_flashEnd c₁ (a := a + s.headingLength)
    (t := t) (hc₁ ▸ hw₁.nodup) (by omega)
  rw [← hc₁, hz] at hw₁
  obtain ⟨c₂, hc₂⟩ : ∃ c₂, c₂ = (c₁.write (a + s.headingLength) t).2 := ⟨_, rfl⟩
  rw [← hc₂] at hw₂
  rw [hcache₁, ← hc₂] at heq
  have hcache₂ : (s.storeHeadings t).cache = c₂ := by rw [heq]; rfl
  have hhist₁ : s₁.history = s.history ++ [.storing s.toLogState t, .wrote .heading ops₁] := by
    rw [hs₁, ← hc₁, setCache_history (s := s.settled t) hw₁.after]
    exact List.append_assoc s.history [_] [_]
  have hhist₂ : (s.storeHeadings t).history = s₁.history ++ [.wrote .heading ops₂] := by
    rw [heq, setCache_history]
    exact hw₂.after
  have hs := wordStart_le a
  have hs' := wordStart_le (a + s.headingLength)
  have he := wordEnd_ge (a + s.headingLength)
  have he' := wordEnd_ge (a + s.headingLength + t.length)
  have hdef : wordStart a = a / 4 * 4 := rfl
  have hblock : ∀ {x l : Nat}, a ≤ x → x + l ≤ g.journalStart → ∀ {b : Nat}, Touches 256 x l b →
      CONFIG_MICROBIT_LOG_CACHE_BLOCK_SIZE ∣ b ∧ g.logStart ≤ b ∧ b < g.journalStart := by
    intro x l h1 h2 b ht
    have hlo := le_of_touches ht hg.block_dvd_logStart (by omega)
    have := ht.2.1
    exact ⟨ht.1, hlo, by omega⟩
  refine ⟨ops₁, ops₂, ⟨?_, ?_, ?_, ?_, ?_, fun b q hq => ?_⟩, ?_⟩
  · rw [heq, hs₁]
    rfl
  · rw [heq, ← ha]
    rfl
  · rw [hcache₂]
    exact hw₂.nodup
  · rw [hcache₂]
    exact hw₁.after.trans hw₂.after
  · rw [← ha]
    refine Within.append (Within.mono hw₁.within ?_ ?_) (Within.mono hw₂.within ?_ ?_)
    · exact Nat.le_refl _
    · omega
    · unfold wordStart
      omega
    · omega
  · rw [hcache₂] at hq
    rcases hw₂.loaded b q hq with hq | ht
    · exact (hw₁.loaded b q hq).imp_right (hblock (Nat.le_refl _) (by omega))
    · exact Or.inr (hblock (Nat.le_add_right _ _) hfit ht)
  · rw [hhist₂, hhist₁, List.append_assoc]
    rfl

/-- Storing a list, where the cache agrees with the flash in the blocks that it meets: the old headings are zeroed, and
the list is written if the flash can take it. -/
theorem storeHeadings_write (hg : g.Fits) {s : Log g} (h : s.Placed) {t : ManagedString} {hi : Nat}
    (hdvd : CONFIG_MICROBIT_LOG_CACHE_BLOCK_SIZE ∣ hi) (hend : hi < g.getFlashEnd)
    (hstart : g.logStart ≤ headingAt s.toLogState) (hfit : headingAt s.toLogState + s.headingLength + t.length ≤ hi)
    {R : Nat → Prop} (hc : s.cache.Coherent R) (hR : ∀ x, g.logStart ≤ x → x < hi → R x) :
    (s.storeHeadings t).cache.Coherent R ∧ ∃ m, m = put s.mem (headingAt s.toLogState) (List.replicate s.headingLength 0) ∧
      ((s.storeHeadings t).mem = put m (headingAt s.toLogState + s.headingLength) t ∨
        (¬∀ k (hk : k < t.length), Legal (m (headingAt s.toLogState + s.headingLength + k)) t[k]) ∧
          (s.storeHeadings t).mem = m) := by
  have hflash := g.getFlashEnd_lt
  obtain ⟨a, ha⟩ : ∃ a, a = headingAt s.toLogState := ⟨_, rfl⟩
  rw [← ha] at hstart hfit ⊢
  obtain ⟨s₁, hs₁, heq⟩ := storeHeadings_eq s t (by omega)
  rw [← ha] at hs₁ heq
  have hz : (List.replicate s.headingLength (0 : UInt8)).length = s.headingLength := List.length_replicate
  have hblock : ∀ {x l : Nat}, a ≤ x → x + l ≤ hi → ∀ b, Touches 256 x l b → ∀ k, k < 256 → R (b + k) := by
    intro x l h1 h2 b ht k hk
    have hlo := le_of_touches ht hg.block_dvd_logStart (by omega)
    have hhi := add_le_of_dvd ht.1 hdvd (by have := ht.2.1; omega)
    exact hR _ (by omega) (by omega)
  obtain ⟨ops₁, c₁, hw₁, hwrote₁, hmem₁, hcoh₁, -⟩ := write_put (by decide) (by decide) hg.block_dvd_flashEnd s.cache
    (a := a) (t := List.replicate s.headingLength 0) h.nodup hc (by omega) (hblock (Nat.le_refl _) (by omega))
    (fun k hk => by rw [List.getElem_replicate]; exact UInt8.and_zero)
  have hcache₁ : s₁.cache = c₁ := by rw [hs₁, hw₁]; rfl
  have hcache₂ : (s.storeHeadings t).cache = (c₁.write (a + s.headingLength) t).2 := by
    rw [heq, hcache₁]
    rfl
  by_cases hleg : ∀ k (hk : k < t.length), Legal (c₁.flash.mem (a + s.headingLength + k)) t[k]
  · obtain ⟨ops₂, c₂, hw₂, -, hmem₂, hcoh₂, -⟩ := write_put (by decide) (by decide) hg.block_dvd_flashEnd c₁
      (a := a + s.headingLength) (t := t) hwrote₁.nodup hcoh₁ (by omega) (hblock (Nat.le_add_right _ _) hfit) hleg
    rw [hw₂] at hcache₂
    refine ⟨by rw [hcache₂]; exact hcoh₂, _, rfl, Or.inl ?_⟩
    rw [LogState.mem, hcache₂, hmem₂, hmem₁]
  · obtain ⟨c₂, hw₂, hf⟩ := write_refused (by decide) (by decide) hg.block_dvd_flashEnd c₁ (a := a + s.headingLength)
      (t := t) hwrote₁.nodup hcoh₁ (by omega) (fun x h1 h2 => hR x (by omega) (by omega)) hleg
    rw [hw₂] at hcache₂
    refine ⟨by rw [hcache₂]; exact hf.coherent hcoh₁, _, rfl, Or.inr ⟨?_, ?_⟩⟩
    · rw [hmem₁] at hleg
      exact hleg
    · rw [LogState.mem, hcache₂, hf.flash_eq, hmem₁]

/-- Storing a list that fits, where the cache agrees with the flash in the page of the metadata. -/
theorem storeHeadings_put (hg : g.Fits) {s : Log g} (h : s.Placed) {t : ManagedString}
    (hstart : g.logStart ≤ headingAt s.toLogState) (hfit : HeadingFits s.toLogState t) {R : Nat → Prop}
    (hc : s.cache.Coherent R) (hR : ∀ x, g.logStart ≤ x → x < g.journalStart → R x) :
    (s.storeHeadings t).cache.Coherent R ∧ ∃ m, m = put s.mem (headingAt s.toLogState) (List.replicate s.headingLength 0) ∧
      ((s.storeHeadings t).mem = put m (headingAt s.toLogState + s.headingLength) t ∨
        (¬∀ k (hk : k < t.length), Legal (m (headingAt s.toLogState + s.headingLength + k)) t[k]) ∧
          (s.storeHeadings t).mem = m) := by
  have hord := hg.order
  have hds := g.dataStart_eq
  unfold HeadingFits at hfit
  rw [h.journalStart] at hfit
  exact storeHeadings_write hg h hg.block_dvd_journalStart (by omega) hstart hfit hc hR

/-! ## One place for the headings -/

/-- A log since its `clear`: the cache agrees with the flash in the page of the metadata, and the headings are stored in one
place, right behind the metadata. -/
structure OnePlace (s : Log g) : Prop where
  ready : s.Ready
  coherent : s.cache.Coherent fun x => g.logStart ≤ x ∧ x < g.journalStart
  headingStart : s.headingStart = 0 ∨ s.headingStart = g.logStart + metaDataSize
  headingLength : s.headingLength = 0

/-- A fresh log has one place for its headings. -/
theorem Fresh.onePlace {s : Log g} (h : s.Fresh) (hm : s.mutex = false) : s.OnePlace :=
  ⟨h.ready hm, h.coherent.mono fun _ _ => trivial, Or.inl h.headingStart, h.headingLength⟩

/-- The next headings would be stored right behind the metadata. -/
theorem OnePlace.headingAt {s : Log g} (h : s.OnePlace) :
    Log.headingAt s.toLogState + s.headingLength = g.logStart + metaDataSize := by
  rw [h.headingLength, Nat.add_zero]
  unfold Log.headingAt
  rcases h.headingStart with h0 | h1
  · rw [if_pos h0, h.ready.placed.startAddress]
  · rw [if_neg (by rw [h1]; unfold metaDataSize; omega), h1]

/-- The headings lie behind the start of the log. -/
theorem OnePlace.le_headingAt {s : Log g} (h : s.OnePlace) : g.logStart ≤ Log.headingAt s.toLogState := by
  have hat := h.headingAt
  rw [h.headingLength] at hat
  omega

/-- A change in RAM only leaves the headings in their place. -/
theorem OnePlace.ramOnly {s t : Log g} (h : s.OnePlace) (hr : RamOnly s t) (hm : t.mutex = false) : t.OnePlace := by
  refine ⟨⟨hr.placed h.ready.placed, hr.initialized.trans h.ready.initialized, hm⟩, ?_, ?_, ?_⟩
  · rw [hr.cache]
    exact h.coherent
  all_goals rw [hr]
  · exact h.headingStart
  · exact h.headingLength

/-- Logging a text leaves the page of the metadata as it is. -/
theorem OnePlace.logString (hg : g.Fits) {s t : Log g} (h : s.OnePlace) {str : List UInt8} {code : ErrorCode}
    (ht : s.logString str = .ok (code, t)) : t.OnePlace ∧ ∀ x, x < g.journalStart → t.mem x = s.mem x := by
  obtain ⟨code', t', ops, ht', hl⟩ := logString_logged hg h.ready str
  obtain ⟨rfl, rfl⟩ := Prod.mk.inj (Except.ok.inj (ht.symm.trans ht'))
  obtain ⟨hso, -⟩ := logString_records h.ready.initialized ht
  refine ⟨⟨hl.ready, hl.agrees h.coherent fun x hx => hx.2, ?_, ?_⟩, fun x hx => ?_⟩
  · rw [hl.headingStart]
    exact h.headingStart
  · have hlen : t.headingLength = s.headingLength := by rw [hso]
    exact hlen.trans h.headingLength
  · rw [LogState.mem, hl.after.1]
    exact hl.within.replay_eq _ (Or.inl hx)

/-- Storing a list that fits writes it behind the metadata, if the flash can take it. -/
theorem OnePlace.storeHeadings (hg : g.Fits) {s t : Log g} (h : s.OnePlace) {list : ManagedString}
    (ht : t = s.storeHeadings list) (hfit : HeadingFits s.toLogState list) :
    t.OnePlace ∧ (∃ ops, Headed s t ops) ∧ g.logStart + metaDataSize + list.length ≤ g.journalStart ∧
      (t.mem = put s.mem (g.logStart + metaDataSize) list ∨
        (¬∀ k (hk : k < list.length), Legal (s.mem (g.logStart + metaDataSize + k)) list[k]) ∧ t.mem = s.mem) := by
  have hp := h.ready.placed
  have hat := h.headingAt
  have hat' : Log.headingAt s.toLogState = g.logStart + metaDataSize := by
    rw [h.headingLength] at hat
    exact hat
  obtain ⟨ops₁, ops₂, hh, -⟩ := storeHeadings_headed hg hp (by rw [hat']; omega) hfit
  obtain ⟨hcoh, m, hm, hcases⟩ := storeHeadings_put hg hp (by rw [hat']; omega) hfit h.coherent fun x h1 h2 => ⟨h1, h2⟩
  unfold HeadingFits at hfit
  rw [hat, hp.journalStart] at hfit
  rw [hat] at hcases
  rw [h.headingLength] at hm
  obtain rfl : m = s.mem := hm.trans (put_nil _ _)
  rw [← ht] at hh hcoh hcases
  refine ⟨⟨⟨hh.placed hp, ?_, ?_⟩, hcoh, Or.inr ?_, ?_⟩, ⟨_, hh⟩, hfit, hcases⟩
  · rw [hh.same]
    exact h.ready.initialized
  · rw [hh.same]
    exact h.ready.mutex
  · exact hh.headingStart.trans hat
  · rw [hh.same]
    exact h.headingLength

end Log

end CodalMicrobit

import CodalMicrobit.Lemmas.LogString
import CodalMicrobit.Lemmas.Headings

/-!
# Texts that the flash takes

A text is in the flash after it was appended if the flash can take it where it goes, and the cache holds of the blocks it
meets what the flash has there when the text gets there. This is kept from one text to the next one, so that it needs to be
known only once of several texts that are appended in a row.
-/

namespace CodalMicrobit

open Nor Outcome FSCache

namespace Log

variable {g : Geometry}

/-- The byte at `x` when a text from the end of the data on gets there: the pages it enters are erased. -/
def ahead (s : LogState g) (x : Nat) : UInt8 := if x < g.pageEnd s.dataEnd then s.mem x else blank

/-- The flash can take the text from the end of the data on, and so can what is cached of the blocks it meets. -/
def TakesText (s : LogState g) (text : List UInt8) : Prop :=
  (∀ k (h : k < text.length), Legal (ahead s (s.dataEnd + k)) text[k]) ∧
    ∀ i p, (s.cache.cache i).page = some p →
      Touches CONFIG_MICROBIT_LOG_CACHE_BLOCK_SIZE s.dataEnd text.length (s.cache.cache i).address →
      ∀ k, k < CONFIG_MICROBIT_LOG_CACHE_BLOCK_SIZE → p k = ahead s ((s.cache.cache i).address + k)

instance (bs a len b : Nat) : Decidable (Touches bs a len b) := inferInstanceAs (Decidable (_ ∧ _ ∧ _))

instance (s : LogState g) (text : List UInt8) : Decidable (TakesText s text) :=
  inferInstanceAs (Decidable (_ ∧ ∀ i, ∀ p, (s.cache.cache i).page = some p → _ → _))

/-- The cached pages that the text touches hold what is ahead. -/
theorem TakesText.cached {s : LogState g} {text : List UInt8} (h : TakesText s text) {b : Nat} {q : Nat → UInt8}
    (hq : s.cache.Loaded b q) (ht : Touches CONFIG_MICROBIT_LOG_CACHE_BLOCK_SIZE s.dataEnd text.length b) {k : Nat}
    (hk : k < CONFIG_MICROBIT_LOG_CACHE_BLOCK_SIZE) : q k = ahead s (b + k) := by
  obtain ⟨i, rfl, hp⟩ := hq
  exact h.2 i q hp ht k hk

/-- It is enough to say it of the blocks that are loaded. -/
theorem TakesText.of_cached {s : LogState g} {text : List UInt8}
    (hleg : ∀ k (h : k < text.length), Legal (ahead s (s.dataEnd + k)) text[k])
    (hc : ∀ b q, s.cache.Loaded b q → Touches CONFIG_MICROBIT_LOG_CACHE_BLOCK_SIZE s.dataEnd text.length b →
      ∀ k, k < CONFIG_MICROBIT_LOG_CACHE_BLOCK_SIZE → q k = ahead s (b + k)) : TakesText s text :=
  ⟨hleg, fun i p hp ht k hk => hc _ p ⟨i, rfl, hp⟩ ht k hk⟩

/-- What happens before the data area does not matter. -/
theorem TakesText.frame (hg : g.Fits) {s t : LogState g} {text : List UInt8} (h : TakesText s text)
    (hle : g.dataStart ≤ s.dataEnd) (hend : t.dataEnd = s.dataEnd) (hmem : ∀ x, g.dataStart ≤ x → t.mem x = s.mem x)
    (hl : ∀ b q, t.cache.Loaded b q → s.cache.Loaded b q ∨ b < g.dataStart) : TakesText t text := by
  have hahead : ∀ x, g.dataStart ≤ x → ahead t x = ahead s x := by
    intro x hx
    unfold ahead
    rw [hend, hmem x hx]
  refine .of_cached (fun k hk => ?_) fun b q hq ht k hk => ?_
  · rw [hend, hahead _ (by omega)]
    exact h.1 k hk
  · rw [hend] at ht
    have hb := le_of_touches ht hg.block_dvd_dataStart hle
    rw [hahead _ (by omega)]
    exact h.cached ((hl b q hq).resolve_right (by omega)) ht hk

/-! ## Appending a text -/

/-- One turn of the loop: the chunk is in the flash, and the flash still takes what comes after it. -/
theorem writeTurn_taken (hg : g.Fits) {s : Log g} {data rest : List UInt8} (hp : s.Placed) (hd : data ≠ [])
    (hl : s.dataEnd + (data ++ rest).length ≤ g.logEnd) (ht : TakesText s.toLogState (data ++ rest)) {l : Nat}
    (hldef : l = min data.length s.spaceOnPage) :
    TakesText (s.writeTurn data).toLogState (data.drop l ++ rest) ∧
      slice (s.writeTurn data).mem s.dataEnd l = data.take l ∧
      ∀ x, x < s.dataEnd → (s.writeTurn data).mem x = s.mem x := by
  have hpos : 0 < data.length := List.length_pos_iff.mpr hd
  have hlen : (data ++ rest).length = data.length + rest.length := List.length_append
  obtain ⟨hsp, hsp0⟩ := spaceOnPage_eq hg s
  obtain ⟨_, -, -, hend, hentries, -, -, hmem₁⟩ := eraseNextPage_spec hg hp data.length
  obtain ⟨_, hturn⟩ := writeTurn_appended hg hp hd (by omega)
  have hend' := hturn.dataEnd
  rw [← hldef] at hend'
  obtain ⟨s₁, hs₁⟩ : ∃ s₁, s₁ = s.eraseNextPage data.length := ⟨_, rfl⟩
  rw [← hs₁] at hend hentries hmem₁
  have hchunk : (data.take l).length = l := by rw [List.length_take]; omega
  have hord := hg.order
  have hpe : CONFIG_MICROBIT_LOG_CACHE_BLOCK_SIZE ∣ g.pageEnd s.dataEnd := hg.block_dvd_of_page (g.page_dvd_pageEnd _)
  have hbelow : ∀ x, x < g.pageEnd s.dataEnd → s₁.mem x = s.mem x := fun x hx => (hmem₁ x).trans (if_neg (by omega))
  have hahead : ∀ x, x < g.pageEnd s.dataEnd → ahead s.toLogState x = s.mem x := fun x hx => if_pos hx
  -- the blocks that the chunk meets lie on the page
  have hpage : ∀ b, Touches CONFIG_MICROBIT_LOG_CACHE_BLOCK_SIZE s.dataEnd l b →
      b + CONFIG_MICROBIT_LOG_CACHE_BLOCK_SIZE ≤ g.pageEnd s.dataEnd :=
    fun b hb => add_le_of_dvd hb.1 hpe (by have := hb.2.1; omega)
  have hcoh : s₁.cache.Coherent fun x => ∃ b, Touches CONFIG_MICROBIT_LOG_CACHE_BLOCK_SIZE s.dataEnd l b ∧ b ≤ x ∧
      x < b + CONFIG_MICROBIT_LOG_CACHE_BLOCK_SIZE := by
    intro b q hb hq k hk ⟨b', hb', h1, h2⟩
    obtain rfl : b = b' := by
      by_contra hne
      have := block_disjoint hb hb'.1 hne
      omega
    have hin := hpage b hb'
    refine (ht.cached ((loaded_congr hentries).mp hq) ⟨hb, ?_, hb'.2.2⟩ hk).trans ?_
    · have := hb'.2.1
      omega
    · exact (hahead _ (by omega)).trans (hbelow _ (by omega)).symm
  have hleg : ∀ k (hk : k < (data.take l).length), Legal (s₁.cache.flash.mem (s.dataEnd + k)) (data.take l)[k] := by
    intro k hk
    have h1 := ht.1 k (by omega)
    rw [hahead _ (by omega), ← hbelow _ (by omega), List.getElem_append_left (by omega)] at h1
    rw [List.getElem_take]
    exact h1
  obtain ⟨ops₂, c, hwrite, hwrote, hmem, hcoh', -⟩ := write_put (by decide) (by decide) hg.block_dvd_flashEnd
    s₁.cache (hp.nodup.congr hentries) hcoh (a := s.dataEnd) (t := data.take l) (by omega)
    (fun b hb k hk => ⟨b, hchunk ▸ hb, by omega, by omega⟩) hleg
  rw [hchunk] at hwrote
  obtain ⟨s', hs'⟩ : ∃ s', s' = s.writeTurn data := ⟨_, rfl⟩
  have hcache : s'.cache = c := by
    simp only [hs', writeTurn, ← hldef, ← hs₁, hend, hwrite]
    rfl
  have hmem' : s'.mem = put s₁.mem s.dataEnd (data.take l) := by
    rw [LogState.mem, hcache, hmem]
  rw [← hs'] at hend' ⊢
  -- the bytes after the chunk are as expected
  have hafter : ∀ x, s.dataEnd + l ≤ x → (data.drop l ++ rest).length ≠ 0 → ahead s'.toLogState x = ahead s.toLogState x := by
    intro x hx hne
    rw [List.length_append, List.length_drop] at hne
    have hx' : s'.mem x = s₁.mem x := by rw [hmem', put_of_le _ _ (by omega)]
    unfold ahead
    rw [hend', hx', hmem₁]
    by_cases hfull : s.dataEnd + l = g.pageEnd s.dataEnd
    · have hout : ¬x < g.pageEnd s.dataEnd := by omega
      rw [hfull, Geometry.pageEnd_of_dvd hg.pos (g.page_dvd_pageEnd s.dataEnd), if_neg hout]
      split
      · exact if_pos ⟨⟨by omega, by omega⟩, by omega, by assumption⟩
      · rfl
    · rw [Geometry.pageEnd_of_lt hg.pos (Nat.le_add_right _ _) (by omega)]
      exact if_congr Iff.rfl (if_neg (by omega)) rfl
  refine ⟨.of_cached (fun k hk => ?_) fun b q hq hb k hk => ?_, ?_, fun x hx => ?_⟩
  · have hk' : l + k < (data ++ rest).length := by
      rw [List.length_append, List.length_drop] at hk
      omega
    have hdrop : (data ++ rest).drop l = data.drop l ++ rest := List.drop_append_of_le_length (by omega)
    have hget : (data.drop l ++ rest)[k] = (data ++ rest)[l + k] := by
      simp only [← hdrop, List.getElem_drop]
    rw [hend', hafter _ (by omega) (by omega), hget, Nat.add_assoc]
    exact ht.1 (l + k) hk'
  · rw [hend'] at hb
    rw [hcache] at hq
    have htouch := hb.2
    rw [List.length_append, List.length_drop] at htouch
    by_cases hin : b < s.dataEnd + l
    · -- a block that the chunk met: the cache holds what was written
      have hb' : Touches CONFIG_MICROBIT_LOG_CACHE_BLOCK_SIZE s.dataEnd l b := ⟨hb.1, hin, by omega⟩
      have := hpage b hb'
      rw [ahead, hend', Geometry.pageEnd_of_lt hg.pos (Nat.le_add_right _ _) (by omega), if_pos (by omega), LogState.mem,
        hcache]
      exact hcoh' b q hb.1 hq k hk ⟨b, hb', by omega, by omega⟩
    · rw [hafter _ (by omega) (by rw [List.length_append, List.length_drop]; omega)]
      have hq' := (hwrote.loaded b q hq).resolve_right fun h => hin h.2.1
      exact ht.cached ((loaded_congr hentries).mp hq') ⟨hb.1, by omega, by omega⟩ hk
  · have hput := slice_put s₁.mem s.dataEnd (data.take l)
    rw [hchunk] at hput
    rw [hmem', hput]
  · rw [hmem', put_of_lt _ _ hx, hbelow x (by omega)]

/-- The loop: the text is in the flash. -/
theorem writeData_taken (hg : g.Fits) (fuel : Nat) : ∀ (s : Log g) (data : List UInt8) {rest : List UInt8} {s' : Log g},
    s.Placed → s.dataEnd + (data ++ rest).length ≤ g.logEnd → TakesText s.toLogState (data ++ rest) →
    s.writeData data fuel = .ok s' → TakesText s'.toLogState rest ∧ slice s'.mem s.dataEnd data.length = data ∧
      ∀ x, x < s.dataEnd → s'.mem x = s.mem x := by
  have hnil : ∀ {s s' : Log g} {rest : List UInt8} {n : Nat}, TakesText s.toLogState ([] ++ rest) →
      s.writeData [] n = .ok s' → TakesText s'.toLogState rest ∧ slice s'.mem s.dataEnd 0 = [] ∧
        ∀ x, x < s.dataEnd → s'.mem x = s.mem x := by
    intro s s' rest n ht heq
    unfold writeData at heq
    obtain rfl := Except.ok.inj heq
    exact ⟨ht, rfl, fun _ _ => rfl⟩
  induction fuel with
  | zero =>
    intro s data rest s' hp hl ht heq
    by_cases hd : data = []
    · subst hd
      exact hnil ht heq
    · unfold writeData at heq
      rw [if_neg hd] at heq
      cases heq
  | succ fuel ih =>
    intro s data rest s' hp hl ht heq
    by_cases hd : data = []
    · subst hd
      exact hnil ht heq
    · obtain ⟨l, hldef⟩ : ∃ l, l = min data.length s.spaceOnPage := ⟨_, rfl⟩
      obtain ⟨htaken, hslice, hbelow⟩ := writeTurn_taken hg hp hd hl ht hldef
      rw [List.length_append] at hl
      obtain ⟨_, hturn⟩ := writeTurn_appended hg hp hd (by omega)
      have hend := hturn.dataEnd
      rw [← hldef] at hend
      have hdrop : (data.drop l).length = data.length - l := List.length_drop
      unfold writeData at heq
      rw [if_neg hd, ← hldef] at heq
      obtain ⟨hrest, hslice', hbelow'⟩ := ih (s.writeTurn data) (data.drop l) hturn.placed
        (by rw [List.length_append, hdrop]; omega) htaken heq
      refine ⟨hrest, ?_, fun x hx => (hbelow' x (by omega)).trans (hbelow x hx)⟩
      rw [hend, hdrop] at hslice'
      have hfirst : slice s'.mem s.dataEnd l = data.take l :=
        (slice_congr fun x _ h2 => hbelow' x (by omega)).trans hslice
      obtain ⟨n, hn⟩ : ∃ n, data.length = l + n := ⟨data.length - l, by omega⟩
      rw [hn, slice_add, hfirst, ← Nat.add_sub_cancel_left (n := l) (m := n), ← hn, hslice', List.take_append_drop]

/-- A call of `logString` with a text that there is room for: the text is in the flash, as it is cleaned, and the flash still
takes what comes after it. -/
theorem logString_taken (hg : g.Fits) {s t : Log g} (h : s.Ready) {str rest : List UInt8} {code : ErrorCode}
    (hl : s.dataEnd + (cleaned (cString str) false ++ rest).length ≤ g.logEnd)
    (htake : TakesText s.toLogState (cleaned (cString str) false ++ rest)) (ht : s.logString str = .ok (code, t)) :
    TakesText t.toLogState rest ∧ slice t.mem s.dataEnd (cString str).length = cleaned (cString str) false ∧
      ∀ x, g.dataStart ≤ x → x < s.dataEnd → t.mem x = s.mem x := by
  have hp := (entered_ramOnly s (cString str)).placed h.placed
  have hlen := cleaned_length (cString str) false
  have hl' := hl
  rw [List.length_append, hlen] at hl'
  have hroom : (s.entered (cString str)).dataEnd + (cString str).length ≤ g.logEnd := by
    change s.dataEnd + (cString str).length ≤ g.logEnd
    omega
  obtain ⟨serial, ops, s₁, hw, ha, hcases⟩ := accept_cases hg hp hroom
  have hp' : ({ s.entered (cString str) with serial } : Log g).Placed := RamOnly.placed rfl hp
  obtain ⟨hrest, hslice, hbelow⟩ := writeData_taken hg _ _ _ hp' hl htake hw
  rw [hlen] at hslice
  rcases hcases with ⟨-, heq⟩ | ⟨-, heq⟩
  · obtain ⟨-, rfl⟩ := Prod.mk.inj (Except.ok.inj (ht.symm.trans (logString_accepted h (by omega) heq)))
    exact ⟨hrest, hslice, fun x _ hx => hbelow x hx⟩
  · obtain ⟨-, rfl⟩ := Prod.mk.inj (Except.ok.inj (ht.symm.trans (logString_accepted h (by omega) heq)))
    obtain ⟨_, hj⟩ := writeJournal_journaled hg ha.placed
    have hmem : ∀ x, g.dataStart ≤ x → s₁.writeJournal.mem x = s₁.mem x := by
      intro x hx
      rw [LogState.mem, hj.after.1]
      exact hj.within.replay_eq _ (Or.inr hx)
    refine ⟨hrest.frame hg ha.placed.le_dataEnd hj.journalOnly.dataEnd hmem fun b q hq => ?_, ?_, fun x h1 hx =>
      (hmem x h1).trans (hbelow x hx)⟩
    · exact (hj.loaded b q hq).imp_right fun hb => hb.2.2
    · exact (slice_congr fun x h1 _ => hmem x (h.placed.le_dataEnd.trans h1)).trans hslice

end Log

end CodalMicrobit

import CodalMicrobit.Lemmas.Steady

/-!
# The FULL indicator

A text that is refused sets the flag that the log is full, and writes `"FUL"` to the word behind the data, where a reader of
the file sees it. Flag and word agree as long as the word can be written when the flag is set, is not erased together with
the last page of data while the flag is set, and does not stand there when a log is loaded, which resets the flag.
-/

namespace CodalMicrobit

open Nor Outcome FSCache

namespace Log

variable {g : Geometry}

/-- The word at the address says that the log is full. -/
def HasMarker (m : Memory) (logEnd : Nat) : Prop := slice m (logEnd + 1) 3 = fullMarker

instance (m : Memory) (logEnd : Nat) : Decidable (HasMarker m logEnd) := inferInstanceAs (Decidable (_ = _))

/-- The flash can take `"FUL"` in the word behind the data, and so can the cached copy of its block. -/
def TakesMarker (s : LogState g) : Prop :=
  (∀ k (h : k < fullMarker.length), Legal (s.mem (s.logEnd + 1 + k)) fullMarker[k]) ∧
    ∀ i p, (s.cache.cache i).page = some p →
      (s.cache.cache i).address = (s.logEnd + 1) / CONFIG_MICROBIT_LOG_CACHE_BLOCK_SIZE * CONFIG_MICROBIT_LOG_CACHE_BLOCK_SIZE →
      ∀ k (h : k < fullMarker.length), Legal (p ((s.logEnd + 1) % CONFIG_MICROBIT_LOG_CACHE_BLOCK_SIZE + k)) fullMarker[k]

instance (s : LogState g) : Decidable (TakesMarker s) :=
  inferInstanceAs (Decidable (_ ∧ ∀ i, ∀ p, (s.cache.cache i).page = some p → _ → _))

/-- A log that is loaded has the layout of `clear` and no indicator; headings end before the indicator; an accepted text does
not enter the last page while the log is full; and where the log becomes full, the indicator can be written. -/
def KeepsMarker : LogEvent g → Prop
  | .loading before =>
    (before.dataStart = g.dataStart ∧ before.logEnd = g.logEnd) ∧ ¬HasMarker before.mem before.logEnd
  | .storing before text => headingAt before + before.headingLength + text.length ≤ before.logEnd
  | .logging before text =>
    (g.dataStart ≤ before.dataEnd ∧ before.dataEnd ≤ g.logEnd) ∧
      if before.dataEnd + text.length ≤ before.logEnd then
        before.full = true → ¬(before.dataEnd < lastPage g ∧ lastPage g ≤ before.dataEnd + text.length)
      else before.full = false → TakesMarker before
  | _ => True

instance : DecidablePred (KeepsMarker (g := g)) := fun e =>
  match e with
  | .loading _ | .logging _ _ => inferInstanceAs (Decidable ((_ ∧ _) ∧ _))
  | .storing _ _ => inferInstanceAs (Decidable (_ ≤ _))
  | .wrote _ _ | .erased _ _ => isTrue trivial

/-- A text that keeps the marker is appended as after a `clear`. -/
theorem KeepsMarker.asCleared {e : LogEvent g} (h : KeepsMarker e) : AsCleared e := by
  cases e with
  | loading before => exact h.1
  | logging before text => exact h.1
  | wrote | erased | storing => trivial

/-! ## The indicator -/

/-- Whether the marker is there depends on its four bytes only. -/
theorem HasMarker.congr {m m' : Memory} {a : Nat} (h : ∀ x, a ≤ x → x < a + 4 → m' x = m x) :
    HasMarker m' a ↔ HasMarker m a := by
  unfold HasMarker
  rw [slice_congr fun x h1 h2 => h x (by omega) (by omega)]

/-- Where a byte of it is not the one of `"FUL"`, the indicator is not there. -/
theorem not_hasMarker {m : Memory} {a : Nat} (h : m (a + 1) ≠ 'F'.toUInt8) : ¬HasMarker m a := by
  intro hm
  obtain ⟨-, hbytes⟩ := (slice_eq_iff m (a + 1) 3 fullMarker).mp hm
  exact h (hbytes 0 (by decide))

/-- A text that is refused by a log that was not full: the indicator is written. -/
theorem refuse_marks (hg : g.Fits) {s : Log g} (h : s.Placed) (hf : s.full = false) (ht : TakesMarker s.toLogState) :
    s.refuse.full = true ∧ HasMarker s.refuse.mem g.logEnd := by
  have hord := hg.order
  have hd : (256 : Nat) ∣ g.logEnd + 4 := hg.block_dvd_of_page hg.page_dvd_logEnd
  have hlen : fullMarker.length = 3 := rfl
  obtain ⟨hflash, hcached⟩ := ht
  rw [h.logEnd] at hflash hcached
  obtain ⟨c, hc⟩ : ∃ c, c = (s.cache.write (g.logEnd + 1) fullMarker).2 := ⟨_, rfl⟩
  have heq : s.refuse = { s.setCache .marker c with full := true } := by
    unfold refuse
    rw [hf, h.logEnd, hc]
    rfl
  have hmod : (g.logEnd + 1) % 256 = 253 := by omega
  have hsum : (g.logEnd + 1) / 256 * 256 + 253 = g.logEnd + 1 := by omega
  obtain ⟨c', p, horigin, hcases⟩ := write_turn (by decide) (by decide) hg.block_dvd_flashEnd s.cache h.nodup
    (a := g.logEnd + 1) (t := fullMarker) (by decide) (by change 3 ≤ 256 - (g.logEnd + 1) % 256; omega) (by rw [hlen]; omega)
  -- the copy of the block in the cache, or the flash, can take the bytes
  have hlegal : ∀ k (hk : k < fullMarker.length), Legal (p ((g.logEnd + 1) % 256 + k)) fullMarker[k] := by
    intro k hk
    rcases horigin with ⟨i, ha, hp⟩ | hp
    · exact hcached i p hp ha k hk
    · rw [hp _ (by change (g.logEnd + 1) % 256 + k < 256; omega), hmod, ← Nat.add_assoc, hsum]
      exact hflash k hk
  rcases hcases with ⟨-, -, hno⟩ | ⟨hw, hwrote, -, -⟩
  · exact absurd hlegal hno
  · rw [hw] at hc
    rw [heq]
    refine ⟨rfl, (slice_eq_iff _ _ _ _).mpr ⟨rfl, fun k hk => ?_⟩⟩
    change c.flash.mem (g.logEnd + 1 + k) = fullMarker[k]
    have hws : wordStart (g.logEnd + 1) = g.logEnd := by
      unfold wordStart
      omega
    have hwe : wordEnd (g.logEnd + 1 + fullMarker.length) = g.logEnd + 4 := by
      unfold wordEnd
      rw [hlen, if_neg (by omega)]
      omega
    have hidx : g.logEnd % 256 + (g.logEnd + 1 + k - g.logEnd) = (g.logEnd + 1) % 256 + k := by omega
    rw [hc, hwrote.after.1, turnOps, replay_programWords, hws, hwe]
    unfold program
    rw [if_pos (by omega)]
    change s.mem (g.logEnd + 1 + k) &&& put p ((g.logEnd + 1) % 256) fullMarker
      (g.logEnd % 256 + (g.logEnd + 1 + k - g.logEnd)) = _
    rw [hidx, put_add _ _ _ _ hk]
    exact hflash k hk

/-! ## What the calls keep -/

/-- The flag of an initialised log agrees with the indicator. -/
structure FullAgrees (s : Log g) : Prop where
  steady : s.KeepsSteady
  agrees : s.initialized = true → (s.full = true ↔ HasMarker s.mem g.logEnd)

/-- A fresh log has no marker. -/
theorem Fresh.not_hasMarker {s : Log g} (h : s.Fresh) : ¬HasMarker s.mem g.logEnd := by
  refine Log.not_hasMarker ?_
  rcases h.marker with hm | hm
  · rw [hm]
    decide
  · rw [hm]
    decide

/-- Storing headings that end before the indicator. -/
theorem storeHeadings_marker (hg : g.Fits) {s : Log g} (h : s.Steady) {t : ManagedString}
    (hfit : headingAt s.toLogState + s.headingLength + t.length ≤ g.logEnd) {x : Nat} (hx : g.logEnd ≤ x) :
    (s.storeHeadings t).mem x = s.mem x := by
  have hord := hg.order
  obtain ⟨a, ha⟩ : ∃ a, a = headingAt s.toLogState := ⟨_, rfl⟩
  rw [← ha] at hfit
  obtain ⟨s₁, hs₁, heq⟩ := storeHeadings_eq s t (by omega)
  rw [← ha] at hs₁ heq
  have hz : (List.replicate s.headingLength (0 : UInt8)).length = s.headingLength := List.length_replicate
  obtain ⟨ops₁, hw₁⟩ := write_wrote (by decide) (by decide) hg.block_dvd_flashEnd s.cache (a := a)
    (t := List.replicate s.headingLength 0) h.nodup (by omega)
  have hcache₁ : s₁.cache = (s.cache.write a (List.replicate s.headingLength 0)).2 := by rw [hs₁]; rfl
  rw [← hcache₁] at hw₁
  obtain ⟨ops₂, hw₂⟩ := write_wrote (by decide) (by decide) hg.block_dvd_flashEnd s₁.cache (a := a + s.headingLength)
    (t := t) hw₁.nodup (by omega)
  have hmem : (s.storeHeadings t).mem x = (s₁.cache.write (a + s.headingLength) t).2.flash.mem x := by rw [heq]; rfl
  -- both writes end before the word of the indicator
  have h4 : (4 : Nat) ∣ g.logEnd := hord.2.2.2
  rw [hmem, hw₂.mem_eq, hw₁.mem_eq]
  · unfold wordEnd
    split <;> omega
  · unfold wordEnd
    split <;> omega

/-- Appending a text. -/
theorem appendText_marker (hg : g.Fits) {s t : Log g} (h : s.Placed) {data : List UInt8} {code : ErrorCode}
    (hagrees : s.full = true ↔ HasMarker s.mem g.logEnd) (ht : s.appendText data = .ok (code, t))
    (hc : KeepsMarker (.logging s.toLogState data : LogEvent g)) : t.full = true ↔ HasMarker t.mem g.logEnd := by
  obtain ⟨-, hc⟩ := hc
  rw [h.logEnd] at hc
  obtain ⟨s₀, hs₀⟩ : ∃ s₀, s₀ = s.note (.logging s.toLogState data) := ⟨_, rfl⟩
  have hr : RamOnly s s₀ := hs₀ ▸ RamOnly.note s _
  have hstate : s₀.toLogState = s.toLogState := hs₀ ▸ rfl
  have h₀ := hr.placed h
  rcases appendText_parts hg h ht with ⟨hno, rfl⟩ | ⟨hroom, serial, ops, s₁, ha, hcases⟩
  · rw [if_neg (Nat.not_le.mpr hno)] at hc
    rw [← hs₀]
    change s₀.refuse.full = true ↔ HasMarker s₀.refuse.mem g.logEnd
    cases hfull : s.full with
    | true =>
      have hsame : s₀.refuse = s₀ := if_pos (hr.full.trans hfull)
      rw [hsame, hstate]
      exact hagrees
    | false =>
      obtain ⟨h1, h2⟩ := refuse_marks hg h₀ (hr.full.trans hfull) (hstate ▸ hc hfull)
      exact iff_of_true h1 h2
  · rw [if_pos hroom] at hc
    have hfull : s₁.full = s.full := by
      rw [ha.dataOnly]
      rfl
    have hmem : ∀ x, g.logEnd ≤ x → x < g.logEnd + 4 → s₁.mem x =
        if s.dataEnd < lastPage g ∧ lastPage g ≤ s.dataEnd + data.length then blank else s.mem x := by
      exact ha.marker
    have h₁ : s₁.full = true ↔ HasMarker s₁.mem g.logEnd := by
      rw [hfull]
      by_cases hlast : s.dataEnd < lastPage g ∧ lastPage g ≤ s.dataEnd + data.length
      · refine iff_of_false (fun hf => hc hf hlast) (not_hasMarker ?_)
        rw [hmem _ (by omega) (by omega), if_pos hlast]
        decide
      · rw [hagrees]
        exact (HasMarker.congr fun x h1 h2 => (hmem x h1 h2).trans (if_neg hlast)).symm
    rcases hcases with ⟨-, rfl⟩ | ⟨-, rfl⟩
    · exact h₁
    · obtain ⟨_, hj⟩ := writeJournal_journaled hg ha.placed
      have hord := hg.order
      have hsame : s₁.writeJournal.full = s₁.full := by rw [hj.journalOnly]
      change s₁.writeJournal.full = true ↔ HasMarker s₁.writeJournal.mem g.logEnd
      rw [hsame, h₁]
      refine (HasMarker.congr fun x hx _ => ?_).symm
      rw [LogState.mem, hj.after.1]
      exact hj.within.replay_eq _ (Or.inr (by omega))

/-- A change in RAM only leaves the flag and the marker in step. -/
theorem FullAgrees.ramOnly (hg : g.Fits) {s t : Log g} (h : s.FullAgrees) (hr : RamOnly s t) : t.FullAgrees := by
  refine ⟨h.steady.ramOnly hg hr, fun hi => ?_⟩
  rw [LogState.mem, RamOnly.cache hr, RamOnly.full hr]
  exact h.agrees ((RamOnly.initialized hr).symm.trans hi)

/-- Every step leaves the flag and the marker in step. -/
theorem fullAgrees_maintains (hg : g.Fits) : Maintains (g := g) KeepsMarker (fun _ => True) FullAgrees where
  ramOnly h hr := h.ramOnly hg hr
  isPresent {s} h hi := by
    refine ⟨h.steady.isPresent hg hi, fun ht => ?_⟩
    obtain ⟨a, j, d, e, m, heq⟩ := isPresent_same hi
    rw [heq] at ht
    exact absurd (hi.symm.trans ht) Bool.false_ne_true
  load {s t} h hi hp ht hc := by
    obtain ⟨hsteady, hfull, hmem⟩ := h.steady.load hg hi hp ht hc.asCleared
    refine ⟨⟨hsteady, fun _ => iff_of_false (by rw [hfull]; nofun) ?_⟩, trivial⟩
    obtain ⟨⟨-, hend⟩, hno⟩ := hc
    rw [hend] at hno
    rw [hmem]
    exact hno
  format {s} _ fullErase := by
    obtain ⟨hfresh, -⟩ := format_fresh hg s fullErase
    refine ⟨⟨.format hg s fullErase, fun _ => iff_of_false (by rw [hfresh.full]; nofun) hfresh.not_hasMarker⟩, ?_⟩
    exact fun _ _ _ _ => trivial
  invalidate {s} h := by
    have hgone : s.invalidate.initialized = false := by
      unfold Log.invalidate
      split <;> rfl
    exact ⟨⟨h.steady.invalidate hg, fun hi => absurd (hgone.symm.trans hi) Bool.false_ne_true⟩, fun _ _ _ _ => trivial⟩
  storeHeadings {s} h hi fields hc := by
    obtain ⟨hsteady, hfull⟩ := h.steady.storeHeadings hi (csvLine fields)
    have hs := h.steady.ready hi
    refine ⟨⟨hsteady, fun _ => ?_⟩, fun _ _ _ _ => trivial⟩
    rw [hfull, h.agrees hi]
    have hfit : headingAt s.toLogState + s.headingLength + (csvLine fields).length ≤ g.logEnd := hs.laidOut.logEnd ▸ hc
    exact (HasMarker.congr fun x hx _ => storeHeadings_marker hg hs hfit hx).symm
  appendText {s t data code} h hi ht hc :=
    ⟨⟨h.steady.appendText hg hi ht hc.asCleared, fun _ =>
      appendText_marker hg ((h.steady.ready hi).placed hc.1.1 hc.1.2) (h.agrees hi) ht hc⟩, fun _ _ _ _ => trivial⟩
  reboot {s} _ := ⟨.reboot s, fun ht => absurd ht Bool.false_ne_true⟩

/-- The flag and the indicator. In every run of calls and reboots from the start of the device in which the logs that are
loaded have the layout of `clear` and no indicator, headings end before the indicator, texts are appended with the end of the
data inside the data area, no accepted text enters the last page while the log is full, and the indicator can be written
where the log becomes full: an initialised log is full exactly if the indicator stands behind the data. -/
theorem full_iff_marker (hg : g.Fits) (flash : Flash g) (header : Nat → UInt8) (calls : List LogOp) (s : Log g)
    (hs : (new flash header).run calls = .ok s) (hc : ∀ e ∈ s.history, KeepsMarker e) (hi : s.initialized = true) :
    s.isFull = true ↔ slice s.mem (s.logEnd + 1) 3 = fullMarker := by
  obtain ⟨hall, -, -⟩ := (fullAgrees_maintains hg).run ⟨.new flash header, fun ht => absurd ht Bool.false_ne_true⟩ hs hc
  rw [(hall.steady.ready hi).laidOut.logEnd]
  exact hall.agrees hi

/-- A text of 509 bytes, one more than there is room for, on a storage that is erased as a whole: the flag is set, and the
indicator stands behind the data. -/
theorem full_iff_marker_one :
    ∃ s, (new (blankFlash sixteenPages) fun _ => 0).run [.clear true, .logString (List.replicate 509 'a'.toUInt8)] = .ok s ∧
      (s.isFull = true ↔ slice s.mem (s.logEnd + 1) 3 = fullMarker) := by
  have hrun : (match (new (blankFlash sixteenPages) fun _ => 0).run
        [.clear true, .logString (List.replicate 509 'a'.toUInt8)] with
      | .ok s => decide ((∀ e ∈ s.history, KeepsMarker e) ∧ s.initialized = true)
      | .error _ => false) = true := by
    decide +kernel
  cases hs : (new (blankFlash sixteenPages) fun _ => 0).run
      [.clear true, .logString (List.replicate 509 'a'.toUInt8)] with
  | error e =>
    rw [hs] at hrun
    nomatch hrun
  | ok s =>
    simp only [hs, decide_eq_true_eq] at hrun
    exact ⟨s, rfl, full_iff_marker sixteenPages_fits (blankFlash sixteenPages) (fun _ => 0) _ s hs hrun.1 hrun.2⟩

/-- The same text after a `clear` that does not erase the last page: the word was zeroed, and cannot take the indicator. -/
theorem full_without_marker :
    ∃ s, (new (blankFlash sixteenPages) fun _ => 0).run [.clear false, .logString (List.replicate 509 'a'.toUInt8)] = .ok s ∧
      s.initialized = true ∧ ¬(s.isFull = true ↔ slice s.mem (s.logEnd + 1) 3 = fullMarker) := by
  have hrun : (match (new (blankFlash sixteenPages) fun _ => 0).run
        [.clear false, .logString (List.replicate 509 'a'.toUInt8)] with
      | .ok s => decide (s.initialized = true ∧ ¬(s.isFull = true ↔ slice s.mem (s.logEnd + 1) 3 = fullMarker))
      | .error _ => false) = true := by
    decide +kernel
  cases hs : (new (blankFlash sixteenPages) fun _ => 0).run
      [.clear false, .logString (List.replicate 509 'a'.toUInt8)] with
  | error e =>
    rw [hs] at hrun
    nomatch hrun
  | ok s =>
    simp only [hs, decide_eq_true_eq] at hrun
    exact ⟨s, rfl, hrun⟩

end Log

end CodalMicrobit

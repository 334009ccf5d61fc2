import CodalMicrobit.Lemmas.Format

/-!
# A call of `logString`

A text for which there is no room is refused, and leaves the indicator that the log is full. Any other one is accepted:
it is cleaned and written, and the journal moves on if a block boundary was crossed. Here is what either does to a log
that is initialised, whatever its cache holds, and what it does to the text in the data area.
-/

namespace CodalMicrobit

open Nor Outcome FSCache

namespace Log

variable {g : Geometry}

/-- A log between two calls: initialised, and the lock free. -/
structure Ready (s : Log g) : Prop where
  placed : s.Placed
  initialized : s.initialized = true
  mutex : s.mutex = false

/-- A fresh log with its lock free is ready. -/
theorem Fresh.ready {s : Log g} (h : s.Fresh) (hm : s.mutex = false) : s.Ready := ⟨h.placed, h.initialized, hm⟩

/-! ## A text that is refused -/

/-- `s'` is `s` after a text was refused. -/
structure Refused (s s' : Log g) (ops : List Op) : Prop where
  same : s' = { s with cache := s'.cache, full := true, history := s'.history }
  placed : s'.Placed
  after : s.cache.flash.After ops s'.cache.flash
  within : Within g.logEnd (g.logEnd + 4) ops
  loaded : ∀ b q, s'.cache.Loaded b q → s.cache.Loaded b q ∨ Touches CONFIG_MICROBIT_LOG_CACHE_BLOCK_SIZE g.logEnd 4 b
  coherent : (s.cache.Coherent fun x => g.dataStart ≤ x) → s'.cache.Coherent fun x => g.dataStart ≤ x
  events : ∃ es, s'.history = s.history ++ es ∧ ∀ e ∈ es, e = .wrote .marker ops

/-- Refusing a text writes no more than the marker for a full log. -/
theorem refuse_refused (hg : g.Fits) {s : Log g} (h : s.Placed) : ∃ ops, Refused s s.refuse ops := by
  have hord := hg.order
  unfold refuse
  split
  · rename_i hfull
    exact ⟨[], by rw [← hfull], h, Flash.After.refl _, Within.nil _ _, fun _ _ hq => Or.inl hq, id, [], by simp, by simp⟩
  · have hlen : fullMarker.length = 3 := rfl
    have hin : s.logEnd + 1 + fullMarker.length < g.getFlashEnd := by rw [hlen, h.logEnd]; omega
    obtain ⟨ops, hw⟩ := write_wrote (by decide) (by decide) hg.block_dvd_flashEnd s.cache (t := fullMarker) h.nodup hin
    obtain ⟨c, hc⟩ : ∃ c, c = (s.cache.write (s.logEnd + 1) fullMarker).2 := ⟨_, rfl⟩
    have hcoh : (s.cache.Coherent fun x => g.dataStart ≤ x) → c.Coherent fun x => g.dataStart ≤ x := by
      intro hs
      by_cases hleg : ∀ k (hk : k < fullMarker.length), Legal (s.cache.flash.mem (s.logEnd + 1 + k)) fullMarker[k]
      · obtain ⟨_, c', hw', -, -, hc', -⟩ := write_put (by decide) (by decide) hg.block_dvd_flashEnd s.cache h.nodup hs
          hin (fun b hb k _ => Nat.le_add_right_of_le (le_of_touches hb hg.block_dvd_dataStart
            (by rw [h.logEnd]; omega))) hleg
        rw [hc, hw']
        exact hc'
      · obtain ⟨c', hw', hf⟩ := write_refused (by decide) (by decide) hg.block_dvd_flashEnd s.cache h.nodup hs
          hin (fun x h1 _ => by rw [h.logEnd] at h1; omega) hleg
        rw [hc, hw']
        exact hf.coherent hs
    rw [hlen, ← hc] at hw
    rw [← hc]
    refine ⟨ops, rfl, ?_, hw.after, ?_, fun b q hq => ?_, hcoh, [.wrote .marker ops], ?_, by simp⟩
    · exact ⟨h.startAddress, h.journalStart, h.dataStart, h.logEnd, h.le_dataEnd, h.dataEnd_le, h.head_dvd, h.le_head,
        h.head_lt, hw.nodup⟩
    · obtain ⟨h1, h2⟩ := words_within (a := s.logEnd + 1) (l := 3) hord.2.2.2
        (Nat.dvd_add hord.2.2.2 (Nat.dvd_refl 4)) (by rw [h.logEnd]; omega) (by rw [h.logEnd])
      exact Within.mono hw.within h1 h2
    · refine (hw.loaded b q hq).imp_right fun ht => ⟨ht.1, ?_, ?_⟩
      · have := ht.2.1
        rw [h.logEnd] at this
        omega
      · -- the word lies in one block
        have := ht.2.2
        have hd : (256 : Nat) ∣ b := ht.1
        have hd' : (256 : Nat) ∣ g.logEnd + 4 := hg.block_dvd_of_page hg.page_dvd_logEnd
        rw [h.logEnd] at this
        omega
    · exact setCache_history hw.after

/-- A refused text leaves the data as it was. -/
theorem Refused.stored (hg : g.Fits) {s s' : Log g} {ops : List Op} {text : List UInt8} (h : Refused s s' ops)
    (hs : s.Stored text) : s'.Stored text := by
  refine ⟨?_, ?_, h.coherent hs.coherent⟩
  · rw [h.same]
    exact hs.dataEnd
  · refine hs.holds.congr hg fun x _ h2 => ?_
    rw [LogState.mem, h.after.1]
    exact h.within.replay_eq _ (Or.inl (by omega))

/-! ## A text that is accepted -/

/-- Mirroring to the serial port changes RAM only. -/
theorem mirror_ramOnly (s : Log g) (data : List UInt8) : ∃ serial, s.mirror data = { s with serial } := by
  unfold mirror
  split
  · exact ⟨_, rfl⟩
  · exact ⟨s.serial, rfl⟩

/-- Outside the journal, agreement of cache and flash is kept. -/
theorem Journaled.agrees (hg : g.Fits) {s s' : Log g} {ops : List Op} {r : UInt8 → UInt8 → Prop} {R : Nat → Prop}
    (h : Journaled s s' ops) (hc : Agrees r s.cache R) (hR : ∀ x, R x → x < g.journalStart ∨ g.dataStart ≤ x) :
    Agrees r s'.cache R := by
  refine hc.frame (fun x hx => ?_) fun b q hb hq => (h.loaded b q hq).imp_right fun hj k hk hx => ?_
  · rw [h.after.1]
    exact h.within.replay_eq _ (hR x hx)
  · have := add_le_of_dvd hb hg.block_dvd_dataStart hj.2.2
    have := hR _ hx
    omega

/-- Writing the journal leaves the text stored. -/
theorem Journaled.stored (hg : g.Fits) {s s' : Log g} {ops : List Op} {text : List UInt8} (h : Journaled s s' ops)
    (hs : s.Stored text) : s'.Stored text := by
  refine ⟨h.journalOnly.dataEnd.trans hs.dataEnd, ?_, h.agrees hg hs.coherent fun x hx => Or.inr hx⟩
  refine hs.holds.congr hg fun x h1 _ => ?_
  rw [LogState.mem, h.after.1]
  exact h.within.replay_eq _ (Or.inr h1)

/-- Accepting a text: it is written, and the journal moves on if a block boundary was crossed. -/
theorem accept_cases (hg : g.Fits) {s : Log g} (h : s.Placed) {data : List UInt8}
    (hl : s.dataEnd + data.length ≤ g.logEnd) :
    ∃ serial ops s₁, ({ s with serial } : Log g).writeData (cleaned data false) data.length = .ok s₁ ∧
      Appended { s with serial } s₁ data.length ops ∧
      (s₁.dataEnd / 256 = s.dataEnd / 256 ∧ s.accept data = .ok s₁ ∨
        s₁.dataEnd / 256 ≠ s.dataEnd / 256 ∧ s.accept data = .ok s₁.writeJournal) := by
  obtain ⟨serial, hm⟩ := mirror_ramOnly s (cleaned data false)
  have hp : ({ s with serial } : Log g).Placed := RamOnly.placed rfl h
  obtain ⟨ops, s₁, hw, ha⟩ := writeData_appended hg data.length _ (cleaned data false) hp (by rw [cleaned_length])
    (by rw [cleaned_length]; exact hl)
  rw [cleaned_length] at ha
  refine ⟨serial, ops, s₁, hw, ha, ?_⟩
  have haccept : s.accept data = .ok (if s₁.dataEnd / CONFIG_MICROBIT_LOG_CACHE_BLOCK_SIZE ≠
      s.dataEnd / CONFIG_MICROBIT_LOG_CACHE_BLOCK_SIZE then s₁.writeJournal else s₁) := by
    unfold accept
    dsimp only
    rw [hm, cleaned_length, hw]
    rfl
  by_cases hc : s₁.dataEnd / 256 = s.dataEnd / 256
  · exact Or.inl ⟨hc, by rw [haccept, if_neg (by simpa using hc)]⟩
  · exact Or.inr ⟨hc, by rw [haccept, if_pos hc]⟩

/-- An accepted text is added to the data, if the cache holds nothing stale of the pages it enters. -/
theorem accept_stored (hg : g.Fits) {s t : Log g} (h : s.Placed) {text data : List UInt8} (hs : s.Stored text)
    (hl : s.dataEnd + data.length ≤ g.logEnd) (hf : FreshPages s.toLogState data.length) (ht : s.accept data = .ok t) :
    t.Stored (text ++ cleaned data false) := by
  obtain ⟨serial, ops, s₁, hw, ha, hcases⟩ := accept_cases hg h hl
  have hr : RamOnly s { s with serial } := rfl
  obtain ⟨_, s₁', hw', -, hst, -⟩ := writeData_stored hg data.length _ text (cleaned data false) (hr.placed h)
    (hr.stored hs) (by rw [cleaned_length]) (by rw [cleaned_length]; exact hl) (by rw [cleaned_length]; exact hf)
  obtain rfl : s₁ = s₁' := Except.ok.inj (hw.symm.trans hw')
  rcases hcases with ⟨-, heq⟩ | ⟨-, heq⟩
  · obtain rfl : s₁ = t := Except.ok.inj (heq.symm.trans ht)
    exact hst
  · obtain rfl : s₁.writeJournal = t := Except.ok.inj (heq.symm.trans ht)
    obtain ⟨_, hj⟩ := writeJournal_journaled hg ha.placed
    exact hj.stored hg hst

/-- What an accepted text does to the members, whatever the cache holds. -/
theorem accept_members (hg : g.Fits) {s : Log g} (h : s.Placed) {data : List UInt8}
    (hl : s.dataEnd + data.length ≤ g.logEnd) :
    ∃ t, s.accept data = .ok t ∧ t.Placed ∧ t.dataEnd = s.dataEnd + data.length ∧ t.initialized = s.initialized ∧
      t.full = s.full := by
  obtain ⟨serial, ops, s₁, -, ha, hcases⟩ := accept_cases hg h hl
  have hd := ha.dataOnly
  rcases hcases with ⟨-, heq⟩ | ⟨-, heq⟩
  · exact ⟨s₁, heq, ha.placed, ha.dataEnd, by rw [hd], by rw [hd]⟩
  · obtain ⟨_, hj⟩ := writeJournal_journaled hg ha.placed
    have hjo := hj.journalOnly
    exact ⟨_, heq, hj.placed, hjo.dataEnd.trans ha.dataEnd, by rw [hjo, hd], by rw [hjo, hd]⟩

/-- Before the data area, agreement of cache and flash is kept. -/
theorem Appended.agrees (hg : g.Fits) {s s' : Log g} {l : Nat} {ops : List Op} {r : UInt8 → UInt8 → Prop}
    {R : Nat → Prop} (h : Appended s s' l ops) (hp : s.Placed) (hc : Agrees r s.cache R)
    (hR : ∀ x, R x → x < g.dataStart) : Agrees r s'.cache R := by
  refine hc.frame (fun x hx => ?_) fun b q hb hq => (h.loaded b q hq).imp_right fun ht k hk hx => ?_
  · rw [h.after.1]
    exact (h.within hg hp).replay_eq _ (Or.inl (hR x hx))
  · have := le_of_touches ht hg.block_dvd_dataStart hp.le_dataEnd
    have := hR _ hx
    omega

/-- Appending a text, once it is recorded: it is refused, or written with the journal moved on if a block boundary was
crossed. -/
theorem appendText_parts (hg : g.Fits) {s t : Log g} (h : s.Placed) {data : List UInt8} {code : ErrorCode}
    (ht : s.appendText data = .ok (code, t)) :
    (g.logEnd < s.dataEnd + data.length ∧ t = (s.note (.logging s.toLogState data)).refuse.notify) ∨
      s.dataEnd + data.length ≤ g.logEnd ∧ ∃ serial ops s₁,
        Appended { s.note (.logging s.toLogState data) with serial } s₁ data.length ops ∧
          (s₁.dataEnd / 256 = s.dataEnd / 256 ∧ t = s₁.notify ∨
            s₁.dataEnd / 256 ≠ s.dataEnd / 256 ∧ t = s₁.writeJournal.notify) := by
  have hp : (s.note (.logging s.toLogState data)).Placed := (RamOnly.note s _).placed h
  have hroom : u32sub (s.note (.logging s.toLogState data)).logEnd (s.note (.logging s.toLogState data)).dataEnd =
      g.logEnd - s.dataEnd := hp.room
  have hle := h.dataEnd_le
  unfold appendText at ht
  dsimp only at ht
  rw [hroom] at ht
  split at ht
  · exact Or.inl ⟨by omega, (Prod.mk.inj (Except.ok.inj ht)).2.symm⟩
  · have hl : s.dataEnd + data.length ≤ g.logEnd := by omega
    obtain ⟨serial, ops, s₁, -, ha, hcases⟩ := accept_cases hg hp hl
    obtain ⟨u, hu, ht⟩ := bind_eq_ok.mp ht
    obtain ⟨-, rfl⟩ := Prod.mk.inj (Except.ok.inj ht)
    refine Or.inr ⟨hl, serial, ops, s₁, ha, hcases.imp (fun hc => ⟨hc.1, ?_⟩) fun hc => ⟨hc.1, ?_⟩⟩
    · rw [Except.ok.inj (hu.symm.trans hc.2)]
    · rw [Except.ok.inj (hu.symm.trans hc.2)]

/-! ## The call -/

/-- The log once `logString` holds the lock and has recorded the text. -/
def entered (s : Log g) (data : List UInt8) : Log g :=
  ({ s with mutex := true } : Log g).note (.logging { s.toLogState with mutex := true } data)

/-- Taking the lock and mirroring change RAM only. -/
theorem entered_ramOnly (s : Log g) (data : List UInt8) : RamOnly s (s.entered data) := rfl

/-- `logString` on a ready log. -/
theorem logString_eq {s : Log g} (h : s.Ready) (str : List UInt8) :
    s.logString str = ({ s with mutex := true } : Log g).appendText (cString str) := by
  have hw : s.wait = .ok { s with mutex := true } := by simp [wait, h.mutex]
  have hi : ({ s with mutex := true } : Log g).init = .ok { s with mutex := true } := if_pos h.initialized
  unfold logString
  rw [hw]
  change (({ s with mutex := true } : Log g).init >>= _) = _
  rw [hi]
  rfl

/-- A text is refused when there is no room for all of it. -/
theorem logString_refused {s : Log g} (h : s.Ready) {str : List UInt8}
    (hl : g.logEnd < s.dataEnd + (cString str).length) :
    s.logString str = .ok (.DEVICE_NO_RESOURCES, (s.entered (cString str)).refuse.notify) := by
  have hroom : (cString str).length > u32sub s.logEnd s.dataEnd := by
    have hle := h.placed.dataEnd_le
    rw [h.placed.room]
    omega
  rw [logString_eq h]
  exact if_pos hroom

/-- `logString` with room for the text. -/
theorem logString_accepted {s t : Log g} (h : s.Ready) {str : List UInt8}
    (hl : s.dataEnd + (cString str).length ≤ g.logEnd) (ht : (s.entered (cString str)).accept (cString str) = .ok t) :
    s.logString str = .ok (.DEVICE_OK, t.notify) := by
  have hroom : ¬(cString str).length > u32sub s.logEnd s.dataEnd := by
    rw [h.placed.room]
    omega
  rw [logString_eq h]
  refine (if_neg hroom).trans ?_
  change ((s.entered (cString str)).accept (cString str) >>= _) = _
  rw [ht]
  rfl

/-- What a call of `logString` does to the members, whatever the cache holds. -/
theorem logString_members (hg : g.Fits) {s : Log g} (h : s.Ready) (str : List UInt8) :
    ∃ code t, s.logString str = .ok (code, t) ∧ t.Ready ∧
      (code = .DEVICE_OK ∧ s.dataEnd + (cString str).length ≤ g.logEnd ∧ t.dataEnd = s.dataEnd + (cString str).length ∧
          t.full = s.full ∨
        code = .DEVICE_NO_RESOURCES ∧ g.logEnd < s.dataEnd + (cString str).length ∧ t.dataEnd = s.dataEnd ∧
          t.full = true) := by
  have hp := (entered_ramOnly s (cString str)).placed h.placed
  by_cases hl : s.dataEnd + (cString str).length ≤ g.logEnd
  · obtain ⟨t, ht, hpt, hend, hi, hfull⟩ := accept_members hg hp hl
    exact ⟨_, _, logString_accepted h hl ht,
      ⟨(RamOnly.notify t).placed hpt, hi.trans h.initialized, rfl⟩, Or.inl ⟨rfl, hl, hend, hfull⟩⟩
  · obtain ⟨_, hr⟩ := refuse_refused hg hp
    refine ⟨_, _, logString_refused h (by omega), ⟨(RamOnly.notify _).placed hr.placed, ?_, rfl⟩,
      Or.inr ⟨rfl, by omega, ?_, ?_⟩⟩
    · change (s.entered (cString str)).refuse.initialized = true
      rw [hr.same]
      exact h.initialized
    · change (s.entered (cString str)).refuse.dataEnd = s.dataEnd
      rw [hr.same]
      rfl
    · change (s.entered (cString str)).refuse.full = true
      rw [hr.same]

/-- What a call of `logString` does to the text in the data area. -/
theorem logString_stored (hg : g.Fits) {s t : Log g} (h : s.Ready) {text str : List UInt8} {code : ErrorCode}
    (hs : s.Stored text) (hf : s.dataEnd + (cString str).length ≤ s.logEnd → FreshPages s.toLogState (cString str).length)
    (ht : s.logString str = .ok (code, t)) :
    t.Stored (text ++ if code = .DEVICE_OK then cleaned (cString str) false else []) := by
  have hr := entered_ramOnly s (cString str)
  by_cases hl : s.dataEnd + (cString str).length ≤ g.logEnd
  · obtain ⟨t', ht', -⟩ := accept_members hg (hr.placed h.placed) hl
    have heq := Except.ok.inj (ht.symm.trans (logString_accepted h hl ht'))
    obtain ⟨rfl, rfl⟩ := Prod.mk.inj heq
    rw [if_pos rfl]
    exact (RamOnly.notify t').stored (accept_stored hg (hr.placed h.placed) (hr.stored hs) hl
      (hf (by rw [h.placed.logEnd]; exact hl)) ht')
  · have heq := Except.ok.inj (ht.symm.trans (logString_refused h (by omega)))
    obtain ⟨rfl, rfl⟩ := Prod.mk.inj heq
    obtain ⟨_, hrf⟩ := refuse_refused hg (hr.placed h.placed)
    rw [if_neg nofun, List.append_nil]
    exact (RamOnly.notify _).stored (hrf.stored hg (hr.stored hs))

/-! ## What the call leaves alone -/

/-- `t` is `s` after a call of `logString` with the operations `ops`: they lie behind the page of the metadata. -/
structure Logged (s t : Log g) (ops : List Op) : Prop where
  ready : t.Ready
  headingStart : t.headingStart = s.headingStart
  after : s.cache.flash.After ops t.cache.flash
  within : Within g.journalStart (g.logEnd + 4) ops
  loaded : ∀ b q, t.cache.Loaded b q → s.cache.Loaded b q ∨ CONFIG_MICROBIT_LOG_CACHE_BLOCK_SIZE ∣ b ∧ g.journalStart ≤ b

/-- `logString` with or without room for the text. -/
theorem logString_logged (hg : g.Fits) {s : Log g} (h : s.Ready) (str : List UInt8) :
    ∃ code t ops, s.logString str = .ok (code, t) ∧ Logged s t ops := by
  have hord := hg.order
  have hds := g.dataStart_eq
  obtain ⟨code, t, ht, hready, -⟩ := logString_members hg h str
  have hp := (entered_ramOnly s (cString str)).placed h.placed
  have hblock : ∀ {a l b : Nat}, g.journalStart ≤ a → Touches CONFIG_MICROBIT_LOG_CACHE_BLOCK_SIZE a l b →
      CONFIG_MICROBIT_LOG_CACHE_BLOCK_SIZE ∣ b ∧ g.journalStart ≤ b :=
    fun ha ht => ⟨ht.1, le_of_touches ht hg.block_dvd_journalStart ha⟩
  by_cases hl : s.dataEnd + (cString str).length ≤ g.logEnd
  · obtain ⟨serial, ops, s₁, -, ha, hcases⟩ := accept_cases hg hp hl
    have hend : g.journalStart ≤ s.dataEnd := by
      have := h.placed.le_dataEnd
      omega
    have hloaded : ∀ b q, s₁.cache.Loaded b q →
        s.cache.Loaded b q ∨ CONFIG_MICROBIT_LOG_CACHE_BLOCK_SIZE ∣ b ∧ g.journalStart ≤ b :=
      fun b q hq => (ha.loaded b q hq).imp_right (hblock hend)
    have hwithin : Within g.journalStart (g.logEnd + 4) ops :=
      (ha.within hg (RamOnly.placed rfl hp)).mono (by omega) (Nat.le_refl _)
    have hheading : s₁.headingStart = s.headingStart := by
      have hd := ha.dataOnly
      rw [hd]
      rfl
    rcases hcases with ⟨-, heq⟩ | ⟨-, heq⟩
    · obtain ⟨rfl, rfl⟩ := Prod.mk.inj (Except.ok.inj (ht.symm.trans (logString_accepted h hl heq)))
      exact ⟨_, _, ops, ht, hready, hheading, ha.after, hwithin, hloaded⟩
    · obtain ⟨rfl, rfl⟩ := Prod.mk.inj (Except.ok.inj (ht.symm.trans (logString_accepted h hl heq)))
      obtain ⟨ops', hj⟩ := writeJournal_journaled hg ha.placed
      have hheading' : s₁.writeJournal.headingStart = s₁.headingStart := by
        have hjo := hj.journalOnly
        rw [hjo]
      refine ⟨_, _, ops ++ ops', ht, hready, hheading'.trans hheading, ha.after.trans hj.after,
        hwithin.append (hj.within.mono (Nat.le_refl _) (by omega)), fun b q hq => ?_⟩
      rcases hj.loaded b q hq with hq | hb
      · exact hloaded b q hq
      · exact Or.inr ⟨hb.1, hb.2.1⟩
  · obtain ⟨rfl, rfl⟩ := Prod.mk.inj (Except.ok.inj (ht.symm.trans (logString_refused h (by omega))))
    obtain ⟨ops, hr⟩ := refuse_refused hg hp
    have hheading : (s.entered (cString str)).refuse.headingStart = s.headingStart := by
      have hsame := hr.same
      rw [hsame]
      rfl
    exact ⟨_, _, ops, ht, hready, hheading, hr.after, hr.within.mono (by omega) (Nat.le_refl _),
      fun b q hq => (hr.loaded b q hq).imp_right (hblock (by omega))⟩

/-- In the page of the metadata, agreement of cache and flash is kept. -/
theorem Logged.agrees {s t : Log g} {ops : List Op} {r : UInt8 → UInt8 → Prop} {R : Nat → Prop}
    (h : Logged s t ops) (hc : Agrees r s.cache R) (hR : ∀ x, R x → x < g.journalStart) : Agrees r t.cache R := by
  refine hc.frame (fun x hx => ?_) fun b q hb hq => (h.loaded b q hq).imp_right fun hj k hk hx => ?_
  · rw [h.after.1]
    exact h.within.replay_eq _ (Or.inl (hR x hx))
  · have := hR _ hx
    omega

end Log

end CodalMicrobit

import CodalMicrobit.Lemmas.Run
import CodalMicrobit.Lemmas.Sound

/-!
# Every writer in its region

A log divides the storage: the metadata page with the headings behind the metadata, the journal, the data, and the word of
the FULL indicator. The parts of the code that write keep to their regions by arithmetic on addresses alone; only the length
of the headings is never compared with the room there is for them. Where they fit, no part writes outside its region, and
what a later start reads from the flash keeps to the layout.
-/

namespace CodalMicrobit

open Nor Outcome FSCache

namespace Log

variable {g : Geometry}

/-- The operations of a writer lie in its region. Erasing a page of data may erase the word of the FULL indicator, which is
on the last one. -/
def InRegion : LogEvent g → Prop
  | .wrote .format ops => Within g.getFlashStart (g.logEnd + 4) ops
  | .wrote .invalidation ops => ∀ o ∈ ops, ∀ x, o.Covers x →
      (g.logStart ≤ x ∧ x < g.logStart + metaDataSize) ∨ (g.logEnd ≤ x ∧ x < g.logEnd + 4)
  | .wrote .heading ops => Within (g.logStart + metaDataSize) g.journalStart ops
  | .wrote .journal ops => Within g.journalStart g.dataStart ops
  | .wrote .data ops => Within g.dataStart g.logEnd ops ∨
      ∃ page, ops = [.erase page g.getPageSize] ∧ g.dataStart ≤ page ∧ page + g.getPageSize ≤ g.logEnd + 4
  | .wrote .marker ops => Within g.logEnd (g.logEnd + 4) ops
  | _ => True

/-- The list of headings that is about to be stored fits into its page. -/
def StoresFitting : LogEvent g → Prop
  | .storing before text => HeadingFits before text
  | _ => True

instance : DecidablePred (StoresFitting (g := g)) := fun e =>
  match e with
  | .storing before text => inferInstanceAs (Decidable (HeadingFits before text))
  | .wrote _ _ | .erased _ _ | .loading _ | .logging _ _ => inferInstanceAs (Decidable True)

/-- An initialised log: its addresses are where they belong, the flash is sound, and the cache agrees with it in the page of
the metadata and with what is not erased of the journal. -/
structure Regional (s : Log g) : Prop where
  placed : s.Placed
  sound : Sound g s.mem
  metadata : s.cache.Coherent fun x => g.logStart ≤ x ∧ x < g.journalStart
  journal : Agrees ErasedOrSame s.cache (InJournal g)
  headingStart : s.headingStart = 0 ∨ g.logStart + metaDataSize ≤ s.headingStart

/-- What is kept by every call: an initialised log is as above, and one that would be found is as at a start. -/
structure KeepsRegions (s : Log g) : Prop where
  ready : s.initialized = true → s.Regional
  found : s.initialized = false → s.isPresent.1 = true → s.cache.Faithful ∧ Sound g s.mem ∧ s.headingStart = 0

/-! ## The parts of the calls -/

/-- A change in RAM only leaves the addresses in their regions. -/
theorem Regional.ramOnly {s t : Log g} (h : s.Regional) (hr : RamOnly s t) : t.Regional := by
  have hp := hr.placed h.placed
  rw [hr] at hp ⊢
  exact ⟨hp, h.sound, h.metadata, h.journal, h.headingStart⟩

/-- A fresh log has its addresses in their regions. -/
theorem Fresh.regional (hg : g.Fits) {s : Log g} (h : s.Fresh) : s.Regional := by
  have hjs := g.journalStart_eq
  have hps : 256 ≤ g.getPageSize := hg.block_le_page
  have h40 : metaDataSize = 40 := rfl
  have h8 : MICROBIT_LOG_JOURNAL_ENTRY_SIZE ∣ g.journalStart := (by decide : 8 ∣ 256).trans hg.block_dvd_journalStart
  refine ⟨h.placed, ⟨h.metaOk, fun a ha => ?_, ?_⟩, h.coherent.mono fun _ _ => trivial,
    fun b q hb hq k hk _ => Or.inr (h.coherent b q hb hq k hk trivial), Or.inl h.headingStart⟩
  · by_cases heq : a = g.journalStart
    · have hv : slotValue s.mem a = 0 := by
        unfold slotValue
        rw [heq]
        change strtoul (cString (slice s.mem g.journalStart 8)) = 0
        rw [h.entry]
        decide
      omega
    · have hend := ha.end_le hg
      have hle := ha.le
      have hapart := ha.apart (b := g.journalStart) ⟨h8, Nat.le_refl _, by omega⟩ heq
      have h8' : MICROBIT_LOG_JOURNAL_ENTRY_SIZE = 8 := rfl
      rw [slotValue_blank (h.journal.mono (by omega) hend)]
      exact Nat.zero_le _
  · exact ⟨g.logStart + metaDataSize, Nat.le_refl _, by omega, h.headings, Or.inl rfl⟩

/-- An initialized log with its addresses in their regions keeps them there. -/
theorem KeepsRegions.of_ready {s : Log g} (h : s.Regional) (hi : s.initialized = true) : s.KeepsRegions :=
  ⟨fun _ => h, fun hi' => absurd (hi.symm.trans hi') Bool.true_eq_false.mp⟩

/-- A change in RAM only keeps the regions apart. -/
theorem KeepsRegions.ramOnly (hg : g.Fits) {s t : Log g} (h : s.KeepsRegions) (hr : RamOnly s t) : t.KeepsRegions := by
  have hi : t.initialized = s.initialized := RamOnly.initialized hr
  refine ⟨fun ht => (h.ready (hi.symm.trans ht)).ramOnly hr, fun ht hp => ?_⟩
  have hs := hi.symm.trans ht
  have hcache := RamOnly.cache hr
  have hstart : t.headingStart = s.headingStart := by rw [hr]
  rw [isPresent_eq hg ht, LogState.mem, hcache] at hp
  rw [LogState.mem, hcache, hstart]
  exact h.found hs ((isPresent_eq hg hs).trans hp)

/-- `isPresent` keeps the regions apart. -/
theorem KeepsRegions.isPresent (hg : g.Fits) {s : Log g} (h : s.KeepsRegions) (hi : s.initialized = false) :
    s.isPresent.2.KeepsRegions := by
  obtain ⟨a, j, d, e, m, heq⟩ := isPresent_same hi
  have hi' : s.isPresent.2.initialized = false := by rw [heq]; exact hi
  refine ⟨fun ht => absurd (hi'.symm.trans ht) Bool.false_ne_true, fun _ hp => ?_⟩
  rw [isPresent_eq hg hi'] at hp
  rw [heq] at hp ⊢
  exact h.found hi ((isPresent_eq hg hi).trans hp)

/-- Loading a log that was found keeps the regions apart. -/
theorem KeepsRegions.load (hg : g.Fits) {s t : Log g} (h : s.KeepsRegions) (hi : s.initialized = false)
    (hp : s.isPresent.1 = true) (ht : s.isPresent.2.load = .ok t) : t.KeepsRegions := by
  have hord := hg.order
  have hds := g.dataStart_eq
  obtain ⟨hf, hs, hstart⟩ := h.found hi hp
  rw [isPresent_of_metaOk hg hi hs.metaOk] at ht
  have hl : s.found.LaidOut := ⟨rfl, rfl, rfl, rfl⟩
  obtain ⟨hplaced, hfills, -, hst⟩ := load_spec hg (s := s.found) hf hl hs ht
  have hmem : t.mem = s.mem := by
    rw [LogState.mem, hfills.1]
    rfl
  have hstart' : t.headingStart = 0 ∨ g.logStart + metaDataSize ≤ t.headingStart :=
    hst.imp (fun heq => heq.trans hstart) fun hle => hle.1
  have hinit : t.initialized = true := by
    obtain ⟨u, -, hu⟩ := bind_eq_ok.mp ht
    exact Except.ok.inj hu ▸ rfl
  refine .of_ready ⟨hplaced, hmem ▸ hs, ?_, fun b q hb hq k hk hx => Or.inr ?_, hstart'⟩ hinit
  · exact hfills.2.2.mono fun x hx => by omega
  · exact hfills.2.2 b q hb hq k hk (by have := hx.2; omega)

/-- `format` keeps the regions apart and writes in them. -/
theorem KeepsRegions.format (hg : g.Fits) (s : Log g) (fullErase : Bool) :
    (s.format fullErase).KeepsRegions ∧ Gives InRegion s (s.format fullErase) := by
  obtain ⟨hfresh, es, hes, hev⟩ := format_fresh hg s fullErase
  refine ⟨.of_ready (hfresh.regional hg) hfresh.initialized, .of_history _ hes fun e he => ?_⟩
  have hf := hev e he
  cases e with
  | wrote w ops =>
    obtain ⟨rfl, hw⟩ := hf
    exact hw
  | erased | loading | storing | logging => trivial

/-- `invalidate` keeps the regions apart and writes in them. -/
theorem KeepsRegions.invalidate (hg : g.Fits) {s : Log g} (h : s.KeepsRegions) :
    s.invalidate.KeepsRegions ∧ Gives InRegion s s.invalidate := by
  cases hp : s.isPresent.1 with
  | true =>
    -- the log has the layout of `clear`, initialised or not
    obtain ⟨u, hu, hl, hh⟩ : ∃ u, s.isPresent = (true, u) ∧ u.LaidOut ∧ u.history = s.history := by
      cases hi : s.initialized with
      | true => exact ⟨s, isPresent_initialized hi, (h.ready hi).placed.laidOut, rfl⟩
      | false => exact ⟨s.found, isPresent_of_metaOk hg hi (h.found hi hp).2.1.metaOk, ⟨rfl, rfl, rfl, rfl⟩, rfl⟩
    obtain ⟨hi', hp'⟩ := invalidate_gone hg hu hl.startAddress
    obtain ⟨ops, hes, hops⟩ := invalidate_spec hg hu hl
    refine ⟨⟨fun ht => absurd (hi'.symm.trans ht) Bool.false_ne_true,
      fun _ ht => absurd (hp'.symm.trans ht) Bool.false_ne_true⟩, .of_history _ (hh ▸ hes) fun e he => ?_⟩
    rw [List.mem_singleton.mp he]
    exact hops
  | false =>
    have hi : s.initialized = false := by
      cases hi : s.initialized with
      | true => exact absurd ((isPresent_initialized hi ▸ rfl : s.isPresent.1 = true).symm.trans hp) Bool.true_eq_false.mp
      | false => rfl
    have heq : s.invalidate = { s.isPresent.2 with initialized := false } := by
      unfold Log.invalidate
      split
      · rename_i t ht
        rw [ht] at hp
        nomatch hp
      · rename_i t ht
        rw [ht]
    obtain ⟨a, j, d, e, m, hsame⟩ := isPresent_same hi
    rw [hsame] at heq
    have hi' : s.invalidate.initialized = false := by rw [heq]
    refine ⟨⟨fun ht => absurd (hi'.symm.trans ht) Bool.false_ne_true, fun _ ht => ?_⟩, .of_same (by rw [heq])⟩
    rw [isPresent_eq hg hi', heq] at ht
    exact absurd (((isPresent_eq hg hi).trans ht).symm.trans hp) Bool.true_eq_false.mp

/-- Storing headings that fit. -/
theorem KeepsRegions.storeHeadings (hg : g.Fits) {s : Log g} (h : s.KeepsRegions) (hi : s.initialized = true)
    (fields : List ManagedString) (hfit : HeadingFits s.toLogState (csvLine fields)) :
    (s.storeHeadings (csvLine fields)).KeepsRegions ∧ Gives InRegion s (s.storeHeadings (csvLine fields)) := by
  have hreg := h.ready hi
  have hp := hreg.placed
  have hds := g.dataStart_eq
  have h4 : (4 : Nat) ∣ g.logStart := (by decide : 4 ∣ 256).trans hg.block_dvd_logStart
  have h40 : metaDataSize = 40 := rfl
  have hat : g.logStart + metaDataSize ≤ headingAt s.toLogState := by
    unfold headingAt
    split
    · rw [hp.startAddress]
    · rename_i h0
      exact hreg.headingStart.resolve_left h0
  obtain ⟨ops₁, ops₂, hh, hhist⟩ := storeHeadings_headed hg hp (by omega) hfit
  obtain ⟨hcoh, m, hm, hcases⟩ := storeHeadings_put hg hp (by omega) hfit hreg.metadata fun x h1 h2 => ⟨h1, h2⟩
  unfold HeadingFits at hfit
  rw [hp.journalStart] at hfit
  have hend : HeadingsEnd g (s.storeHeadings (csvLine fields)).mem := by
    obtain ⟨h1, h2⟩ := hreg.sound.headings.store hat hfit (by decide) hm
    rcases hcases with heq | ⟨hleg, heq⟩
    · rw [heq]
      exact h1
    · rw [heq]
      exact h2 hleg
  have hsame : ∀ x, x < g.logStart + metaDataSize ∨ g.journalStart ≤ x →
      (s.storeHeadings (csvLine fields)).mem x = s.mem x := by
    intro x hx
    rw [LogState.mem, hh.after.1]
    exact hh.within.replay_eq _ (by omega)
  have hregional : (s.storeHeadings (csvLine fields)).Regional := by
    refine ⟨hh.placed hp, ⟨?_, ?_, hend⟩, hcoh, ?_, Or.inr ?_⟩
    · exact hreg.sound.metaOk.congr fun x hx => hsame x (Or.inl hx)
    · exact hreg.sound.journal.congr hg fun x hx => hsame x (Or.inr hx.1)
    · exact hh.agrees hg (by omega) hreg.journal fun x hx => Or.inr hx.1
    · rw [hh.headingStart]
      omega
  refine ⟨.of_ready hregional ((storeHeadings_storeOnly s _).1.initialized.trans hi), .of_history _ hhist fun e he => ?_⟩
  have hwithin : Within (g.logStart + metaDataSize) g.journalStart (ops₁ ++ ops₂) :=
    hh.within.mono (by omega) (Nat.le_refl _)
  simp only [List.mem_cons, List.not_mem_nil, or_false] at he
  rcases he with rfl | rfl | rfl
  · trivial
  · exact fun o ho => hwithin o (List.mem_append_left _ ho)
  · exact fun o ho => hwithin o (List.mem_append_right _ ho)

/-- What is written to the data area, and cached of it, does not matter. -/
theorem Regional.behind (hg : g.Fits) {s t : Log g} (h : s.Regional) (hp : t.Placed) {ops : List Op} {hi : Nat}
    (hafter : s.cache.flash.After ops t.cache.flash) (hwithin : Within g.dataStart hi ops)
    (hload : ∀ b q, t.cache.Loaded b q → s.cache.Loaded b q ∨ g.dataStart ≤ b)
    (hstart : t.headingStart = s.headingStart) : t.Regional := by
  have hds := g.dataStart_eq
  have hjs := g.journalStart_eq
  have hmem : ∀ x, x < g.dataStart → t.mem x = s.mem x := by
    intro x hx
    rw [LogState.mem, hafter.1]
    exact hwithin.replay_eq _ (Or.inl hx)
  have hagrees : ∀ {r : UInt8 → UInt8 → Prop} {R : Nat → Prop}, Agrees r s.cache R → (∀ x, R x → x < g.dataStart) →
      Agrees r t.cache R := by
    intro r R hc hR
    refine hc.frame (fun x hx => hmem x (hR x hx)) fun b q _ hq => (hload b q hq).imp_right fun hb k _ hx => ?_
    have := hR _ hx
    omega
  have h40 : metaDataSize = 40 := rfl
  have hps : 256 ≤ g.getPageSize := hg.block_le_page
  refine ⟨hp, ⟨h.sound.metaOk.congr fun x hx => hmem x (by omega), ?_, ?_⟩, hagrees h.metadata fun x hx => by omega,
    hagrees h.journal fun x hx => hx.2, ?_⟩
  · exact h.sound.journal.congr hg fun x hx => hmem x hx.2
  · exact h.sound.headings.congr hg fun x _ hx => hmem x (by omega)
  · rw [hstart]
    exact h.headingStart

/-- Moving the journal on. -/
theorem Regional.writeJournal (hg : g.Fits) {s : Log g} (h : s.Regional) : s.writeJournal.Regional := by
  obtain ⟨ops, hj⟩ := writeJournal_journaled hg h.placed
  obtain ⟨hagrees, hbound⟩ := writeJournal_agrees hg h.placed h.journal
  have hds := g.dataStart_eq
  have hjs := g.journalStart_eq
  have h40 : metaDataSize = 40 := rfl
  have hps : 256 ≤ g.getPageSize := hg.block_le_page
  have hmem : ∀ x, x < g.journalStart → s.writeJournal.mem x = s.mem x := by
    intro x hx
    rw [LogState.mem, hj.after.1]
    exact hj.within.replay_eq _ (Or.inl hx)
  have hend := h.placed.dataEnd_le
  have hstart : s.writeJournal.headingStart = s.headingStart := by rw [hj.journalOnly]
  refine ⟨hj.placed, ⟨h.sound.metaOk.congr fun x hx => hmem x (by omega), ?_, ?_⟩,
    hj.agrees hg h.metadata fun x hx => Or.inl hx.2, hagrees, ?_⟩
  · exact hbound _ (by rw [h.placed.dataStart]; omega) h.sound.journal
  · exact h.sound.headings.congr hg fun x _ hx => hmem x hx
  · rw [hstart]
    exact h.headingStart

/-- What is written for the data lies in the data area or is the marker. -/
theorem inRegion_of_data {s : Log g} {l : Nat} {e : LogEvent g} (h : DataEvent s l e) : InRegion e := by
  cases e with
  | wrote w ops =>
    obtain ⟨rfl, hw⟩ := h
    exact hw
  | erased | loading | storing | logging => trivial

/-- What is written for the journal lies in the journal. -/
theorem inRegion_of_journal {s : Log g} {e : LogEvent g} (h : JournalEvent s e) : InRegion e := by
  cases e with
  | wrote w ops =>
    obtain ⟨rfl, hw⟩ := h
    exact hw
  | erased | loading | storing | logging => trivial

/-- Appending a text. -/
theorem KeepsRegions.appendText (hg : g.Fits) {s t : Log g} (h : s.KeepsRegions) (hi : s.initialized = true)
    {data : List UInt8} {code : ErrorCode} (ht : s.appendText data = .ok (code, t)) :
    t.KeepsRegions ∧ Gives InRegion s t := by
  have hord := hg.order
  have hreg := h.ready hi
  have hinit : t.initialized = true := (appendText_storeOnly ht).initialized.trans hi
  obtain ⟨s₀, hs₀⟩ : ∃ s₀, s₀ = s.note (.logging s.toLogState data) := ⟨_, rfl⟩
  have hr₀ : RamOnly s s₀ := hs₀ ▸ RamOnly.note s _
  have h₀ := hreg.ramOnly hr₀
  have hhist₀ : s₀.history = s.history ++ [.logging s.toLogState data] := by rw [hs₀]; rfl
  have hnotify : ∀ {u : Log g}, u.Regional → u.notify.Regional := fun hu => hu.ramOnly (RamOnly.notify _)
  rcases appendText_parts hg hreg.placed ht with ⟨-, rfl⟩ | ⟨-, serial, ops, s₁, ha, hcases⟩
  · rw [← hs₀] at hinit ⊢
    obtain ⟨ops, hr⟩ := refuse_refused hg h₀.placed
    have hsame : s₀.refuse.headingStart = s₀.headingStart := by rw [hr.same]
    have hregional := h₀.behind hg hr.placed hr.after (hr.within.mono (Nat.le_of_lt hord.1) (Nat.le_refl _))
      (fun b q hq => (hr.loaded b q hq).imp_right fun hb => le_of_touches hb hg.block_dvd_dataStart (Nat.le_of_lt hord.1))
      hsame
    obtain ⟨es, hes, hev⟩ := hr.events
    refine ⟨.of_ready (hnotify hregional) hinit, .of_history (.logging s.toLogState data :: es) ?_ fun e he => ?_⟩
    · change s₀.refuse.history = _
      rw [hes, hhist₀, List.append_assoc]
      rfl
    · rcases List.mem_cons.mp he with rfl | he
      · trivial
      · rw [hev e he]
        exact hr.within
  · rw [← hs₀] at ha
    have hr₁ : RamOnly s₀ { s₀ with serial } := rfl
    have hd := ha.dataOnly
    have hsame : s₁.headingStart = s₀.headingStart := by
      rw [hd]
    have h₁ : s₁.Regional := (h₀.ramOnly hr₁).behind hg ha.placed ha.after (ha.within hg (hr₁.placed h₀.placed))
      (fun b q hq => (ha.loaded b q hq).imp_right fun hb =>
        le_of_touches hb hg.block_dvd_dataStart (hr₁.placed h₀.placed).le_dataEnd) hsame
    obtain ⟨es, hes, hev⟩ := ha.events
    have hes₁ : s₁.history = s.history ++ .logging s.toLogState data :: es := by
      rw [hes]
      change s₀.history ++ _ = _
      rw [hhist₀, List.append_assoc]
      rfl
    have hev₁ : ∀ e ∈ .logging s.toLogState data :: es, InRegion e := by
      intro e he
      rcases List.mem_cons.mp he with rfl | he
      · trivial
      · exact inRegion_of_data (hev e he)
    rcases hcases with ⟨-, rfl⟩ | ⟨-, rfl⟩
    · exact ⟨.of_ready (hnotify h₁) hinit, .of_history _ hes₁ hev₁⟩
    · obtain ⟨_, hj⟩ := writeJournal_journaled hg ha.placed
      obtain ⟨es', hes', hev'⟩ := hj.events
      refine ⟨.of_ready (hnotify (h₁.writeJournal hg)) hinit,
        .of_history ((.logging s.toLogState data :: es) ++ es') ?_ fun e he => ?_⟩
      · change s₁.writeJournal.history = _
        rw [hes', hes₁, List.append_assoc]
      · rcases List.mem_append.mp he with he | he
        · exact hev₁ e he
        · exact inRegion_of_journal (hev' e he)

/-- A reboot keeps the regions apart. -/
theorem KeepsRegions.reboot (hg : g.Fits) {s : Log g} (h : s.KeepsRegions) : s.reboot.KeepsRegions := by
  refine ⟨fun ht => absurd ht Bool.false_ne_true, fun _ hp => ⟨faithful_of_empty fun _ => rfl, ?_, rfl⟩⟩
  cases hi : s.initialized with
  | true => exact (h.ready hi).sound
  | false =>
    rw [isPresent_eq hg (s := s.reboot) rfl] at hp
    exact (h.found hi ((isPresent_eq hg hi).trans hp)).2.1

/-- Every step keeps the regions apart and writes in them. -/
theorem keepsRegions_maintains (hg : g.Fits) : Maintains (g := g) StoresFitting InRegion KeepsRegions where
  ramOnly h hr := h.ramOnly hg hr
  isPresent h hi := h.isPresent hg hi
  load h hi hp ht _ := ⟨h.load hg hi hp ht, trivial⟩
  format {s} _ fullErase := KeepsRegions.format hg s fullErase
  invalidate h := h.invalidate hg
  storeHeadings h hi fields hfit := h.storeHeadings hg hi fields hfit
  appendText h hi ht _ := h.appendText hg hi ht
  reboot h := h.reboot hg

/-! ## Runs -/

/-- Region isolation. On a device whose storage holds no log, or one that is sound, in every run of calls and reboots in which
every list of headings that is stored fits into its page, all operations on the flash lie in the region of the part of the
code that issues them, they are all there is that changes the flash, and in between the journal head of an initialised log is
the address of an entry. -/
theorem writers_in_region (hg : g.Fits) (flash : Flash g) (header : Nat → UInt8)
    (hflash : (new flash header).isPresent.1 = true → Sound g flash.mem) (calls : List LogOp) (s : Log g)
    (hs : (new flash header).run calls = .ok s)
    (hfit : ∀ before text, .storing before text ∈ s.history → HeadingFits before text) :
    (∀ e ∈ s.history, InRegion e) ∧ flash.After (s.history.flatMap LogEvent.ops) s.cache.flash ∧
      (s.initialized = true → MICROBIT_LOG_JOURNAL_ENTRY_SIZE ∣ s.journalHead ∧ g.journalStart ≤ s.journalHead ∧
        s.journalHead < g.dataStart) := by
  have hstart : (new flash header).KeepsRegions :=
    ⟨fun hi => absurd hi Bool.false_ne_true, fun _ hp => ⟨faithful_of_empty fun _ => rfl, hflash hp, rfl⟩⟩
  obtain ⟨hkeep, hev, hafter⟩ := (keepsRegions_maintains hg).run hstart hs fun e he => by
    cases e with
    | storing before text => exact hfit before text he
    | wrote | erased | loading | logging => trivial
  exact ⟨hev, hafter, fun hi => ⟨(hkeep.ready hi).placed.head_dvd, (hkeep.ready hi).placed.le_head,
    (hkeep.ready hi).placed.head_lt⟩⟩

/-- `writers_in_region` for one row on an erased storage. -/
theorem writers_in_region_one :
    ∃ s, (new (blankFlash sixteenPages) fun _ => 0).run
        [.clear false, .logData (ascii ['a']) (ascii ['1']), .endRow 0] = .ok s ∧
      (∀ e ∈ s.history, InRegion e) ∧ (blankFlash sixteenPages).After (s.history.flatMap LogEvent.ops) s.cache.flash := by
  have hrun : (match (new (blankFlash sixteenPages) fun _ => 0).run
        [.clear false, .logData (ascii ['a']) (ascii ['1']), .endRow 0] with
      | .ok s => decide (∀ e ∈ s.history, StoresFitting e)
      | .error _ => false) = true := by
    decide +kernel
  have hnone : (new (blankFlash sixteenPages) fun _ => 0).isPresent.1 ≠ true := by
    decide +kernel
  cases hs : (new (blankFlash sixteenPages) fun _ => 0).run
      [.clear false, .logData (ascii ['a']) (ascii ['1']), .endRow 0] with
  | error e =>
    rw [hs] at hrun
    nomatch hrun
  | ok s =>
    simp only [hs, decide_eq_true_eq] at hrun
    obtain ⟨hev, hafter, -⟩ := writers_in_region sixteenPages_fits (blankFlash sixteenPages) (fun _ => 0)
      (fun hp => absurd hp hnone) _ s hs fun before text he => hrun _ he
    exact ⟨s, rfl, hev, hafter⟩

/-- The list of headings of a column whose key is 300 zeroes, stored on a storage with pages of 256 bytes, changes the
first byte of the journal's second entry. -/
theorem long_heading_leaves_its_page :
    ∃ s ops, (new (blankFlash sixteenPages) fun _ => 0).run
        [.clear false, .logData (List.replicate 300 '0'.toUInt8) (ascii ['1']), .endRow 0] = .ok s ∧
      .wrote .heading ops ∈ s.history ∧ (∃ o ∈ ops, o.Covers (sixteenPages.journalStart + 8)) ∧
      ¬InRegion (.wrote .heading ops : LogEvent sixteenPages) := by
  have hrun : (match (new (blankFlash sixteenPages) fun _ => 0).run
        [.clear false, .logData (List.replicate 300 '0'.toUInt8) (ascii ['1']), .endRow 0] with
      | .ok s => s.history.any fun e =>
        match e with
        | .wrote w ops => decide (w = .heading) && ops.any fun o => decide (o.Covers (sixteenPages.journalStart + 8))
        | .erased _ _ | .loading _ | .storing _ _ | .logging _ _ => false
      | .error _ => false) = true := by
    decide +kernel
  cases hs : (new (blankFlash sixteenPages) fun _ => 0).run
      [.clear false, .logData (List.replicate 300 '0'.toUInt8) (ascii ['1']), .endRow 0] with
  | error e =>
    rw [hs] at hrun
    cases hrun
  | ok s =>
    simp only [hs, List.any_eq_true] at hrun
    obtain ⟨e, he, hcov⟩ := hrun
    cases e with
    | wrote w ops =>
      rw [Bool.and_eq_true, decide_eq_true_eq] at hcov
      obtain ⟨rfl, hcov⟩ := hcov
      obtain ⟨o, ho, hx⟩ := List.any_eq_true.mp hcov
      have hx := of_decide_eq_true hx
      refine ⟨s, ops, rfl, he, ⟨o, ho, hx⟩, fun hin => ?_⟩
      exact absurd (hin o ho _ hx).2 (Nat.not_lt.mpr (Nat.le_add_right _ _))
    | erased | loading | storing | logging => cases hcov

end Log

end CodalMicrobit

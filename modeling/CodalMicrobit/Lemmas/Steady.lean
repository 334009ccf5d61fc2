import CodalMicrobit.Lemmas.Run
import CodalMicrobit.Lemmas.Sound

/-!
# Runs whatever the flash holds

Where every log that is loaded has the layout of `clear`, and texts are appended with the end of the data inside the data
area, the addresses of an initialised log stay where they belong and no block is cached twice, whatever else the flash
holds. Before a log is initialised nothing that would be found is cached with other bytes than the flash has.
-/

namespace CodalMicrobit

open Nor Outcome FSCache

namespace Log

variable {g : Geometry}

/-- A log that is loaded has the layout of `clear`, and a text is appended with the end of the data inside the data area. -/
def AsCleared : LogEvent g → Prop
  | .loading before => before.dataStart = g.dataStart ∧ before.logEnd = g.logEnd
  | .logging before _ => g.dataStart ≤ before.dataEnd ∧ before.dataEnd ≤ g.logEnd
  | _ => True

instance : DecidablePred (AsCleared (g := g)) := fun e =>
  match e with
  | .loading _ | .logging _ _ => inferInstanceAs (Decidable (_ ∧ _))
  | .wrote _ _ | .erased _ _ | .storing _ _ => isTrue trivial

/-- What an initialised log keeps to. -/
structure Steady (s : Log g) : Prop where
  laidOut : s.LaidOut
  slot : IsSlot g s.journalHead
  nodup : s.cache.Nodup

/-- Where the addresses are in place, the log is steady. -/
theorem Placed.steady {s : Log g} (h : s.Placed) : s.Steady :=
  ⟨h.laidOut, ⟨h.head_dvd, h.le_head, h.head_lt⟩, h.nodup⟩

/-- A steady log whose end of data is in the data area has its addresses in place. -/
theorem Steady.placed {s : Log g} (h : s.Steady) (h1 : g.dataStart ≤ s.dataEnd) (h2 : s.dataEnd ≤ g.logEnd) : s.Placed :=
  ⟨h.laidOut.startAddress, h.laidOut.journalStart, h.laidOut.dataStart, h.laidOut.logEnd, h1, h2, h.slot.dvd, h.slot.le,
    h.slot.lt, h.nodup⟩

/-- A change in RAM only leaves the log steady. -/
theorem Steady.ramOnly {s t : Log g} (h : s.Steady) (hr : RamOnly s t) : t.Steady := by
  rw [hr]
  exact ⟨⟨h.laidOut.startAddress, h.laidOut.journalStart, h.laidOut.dataStart, h.laidOut.logEnd⟩, h.slot, h.nodup⟩

/-- What is kept by every call. -/
structure KeepsSteady (s : Log g) : Prop where
  ready : s.initialized = true → s.Steady
  found : s.initialized = false → s.isPresent.1 = true → s.cache.Faithful ∧ s.full = false

/-- An initialized steady log stays steady. -/
theorem KeepsSteady.of_ready {s : Log g} (h : s.Steady) (hi : s.initialized = true) : s.KeepsSteady :=
  ⟨fun _ => h, fun hi' => absurd (hi.symm.trans hi') Bool.true_eq_false.mp⟩

/-- A change in RAM only keeps the log steady. -/
theorem KeepsSteady.ramOnly (hg : g.Fits) {s t : Log g} (h : s.KeepsSteady) (hr : RamOnly s t) : t.KeepsSteady := by
  have hi : t.initialized = s.initialized := RamOnly.initialized hr
  refine ⟨fun ht => (h.ready (hi.symm.trans ht)).ramOnly hr, fun ht hp => ?_⟩
  have hs := hi.symm.trans ht
  rw [isPresent_eq hg ht, LogState.mem, RamOnly.cache hr] at hp
  rw [RamOnly.cache hr, RamOnly.full hr]
  exact h.found hs ((isPresent_eq hg hs).trans hp)

/-! ## Finding and loading a log -/

/-- Where the log is not initialised, `isPresent` sets the addresses before the data. -/
theorem isPresent_start {s : Log g} (hi : s.initialized = false) :
    s.isPresent.2.startAddress = g.logStart ∧ s.isPresent.2.journalStart = g.journalStart := by
  unfold isPresent
  rw [hi, if_neg Bool.false_ne_true]
  exact ⟨rfl, rfl⟩

/-- `isPresent` keeps the log steady. -/
theorem KeepsSteady.isPresent (hg : g.Fits) {s : Log g} (h : s.KeepsSteady) (hi : s.initialized = false) :
    s.isPresent.2.KeepsSteady := by
  obtain ⟨a, j, d, e, m, heq⟩ := isPresent_same hi
  have hi' : s.isPresent.2.initialized = false := by rw [heq]; exact hi
  refine ⟨fun ht => absurd (hi'.symm.trans ht) Bool.false_ne_true, fun _ hp => ?_⟩
  rw [isPresent_eq hg hi'] at hp
  rw [heq] at hp ⊢
  exact h.found hi ((isPresent_eq hg hi).trans hp)

/-- Loading the headings only reads. -/
theorem loadHeadings_reads (hg : g.Fits) {s : Log g} (h : s.cache.Faithful) :
    Meets (fun t => ∃ cache length start row, t =
      { s with cache, headingLength := length, headingStart := start, rowData := row } ∧ Fills s.cache cache)
      (fun _ => True) s.loadHeadings := by
  unfold loadHeadings
  refine (scan_fills hg _ _ s _ _ h).bind fun r hr => ?_
  obtain ⟨c, heq, hc⟩ := hr
  rw [heq]
  refine (headingEnd_fills hg (s := { s with cache := c }) hc.2 _ _).bind fun r' hr' => ?_
  obtain ⟨c', heq', hc'⟩ := hr'
  obtain ⟨c'', start, row, hparse, hc'', -⟩ := parseHeadings_fills hg (s := { s with cache := c' }) hc'.2 r.1
    (u32sub r'.1 r.1)
  refine ⟨c'', u32sub r'.1 r.1, start, row, ?_, hc.trans (hc'.trans hc'')⟩
  rw [heq']
  exact hparse

/-- Loading a log with the layout of `clear`, whatever its journal and its headings are. -/
theorem load_steady (hg : g.Fits) {s t : Log g} (hf : s.cache.Faithful) (hl : s.LaidOut) (ht : s.load = .ok t) :
    t.Steady ∧ t.initialized = true ∧ t.full = s.full ∧ t.mem = s.mem := by
  obtain ⟨s₁, hs₁⟩ : ∃ s₁, s₁ = s.note (.loading s.toLogState) := ⟨_, rfl⟩
  have hl₁ : s₁.LaidOut := hs₁ ▸ ⟨hl.startAddress, hl.journalStart, hl.dataStart, hl.logEnd⟩
  obtain ⟨c, pages, head, -, e, heq, hc, hhead, -, -⟩ := loadDataEnd_spec hg (s := s₁) (hs₁ ▸ hf) hl₁ (Q := fun _ => True)
    trivial fun _ _ => trivial
  obtain ⟨u, hu, ht⟩ := bind_eq_ok.mp ht
  obtain rfl := Except.ok.inj ht
  obtain ⟨s₂, hs₂⟩ : ∃ s₂ : Log g, s₂ = { s₁ with cache := c, journalPages := pages, journalHead := head, dataEnd := e } :=
    ⟨_, rfl⟩
  rw [← hs₁, heq, ← hs₂] at hu
  obtain ⟨c', length, start, row, hrow, hc'⟩ := (loadHeadings_reads hg (s := s₂) (by rw [hs₂]; exact hc.2)).of_ok hu
  have hflash : c'.flash = s.cache.flash := by
    rw [hc'.1, hs₂]
    exact hc.1.trans (hs₁ ▸ rfl)
  rw [hs₂, hs₁] at hrow
  rw [hrow]
  refine ⟨⟨⟨hl.startAddress, hl.journalStart, hl.dataStart, hl.logEnd⟩, hhead, hc'.2.1⟩, rfl, rfl, ?_⟩
  rw [LogState.mem]
  dsimp only
  rw [hflash]

/-- Loading a log that is found, where its layout is that of `clear`. -/
theorem KeepsSteady.load (hg : g.Fits) {s t : Log g} (h : s.KeepsSteady) (hi : s.initialized = false)
    (hp : s.isPresent.1 = true) (ht : s.isPresent.2.load = .ok t)
    (hc : AsCleared (.loading s.isPresent.2.toLogState : LogEvent g)) :
    t.KeepsSteady ∧ t.full = false ∧ t.mem = s.isPresent.2.mem := by
  obtain ⟨hfaith, hfull⟩ := h.found hi hp
  obtain ⟨h1, h2⟩ := isPresent_start hi
  have hl : s.isPresent.2.LaidOut := ⟨h1, h2, hc.1, hc.2⟩
  obtain ⟨a, j, d, e, m, heq⟩ := isPresent_same hi
  have hf : s.isPresent.2.cache.Faithful := by
    rw [heq]
    exact hfaith
  have hfull' : s.isPresent.2.full = s.full := by rw [heq]
  obtain ⟨hsteady, hinit, hfull'', hmem⟩ := load_steady hg hf hl ht
  exact ⟨.of_ready hsteady hinit, hfull''.trans (hfull'.trans hfull), hmem⟩

/-! ## The other parts of the calls -/

/-- `format` makes the log steady. -/
theorem KeepsSteady.format (hg : g.Fits) (s : Log g) (fullErase : Bool) : (s.format fullErase).KeepsSteady := by
  obtain ⟨hfresh, -⟩ := format_fresh hg s fullErase
  exact .of_ready hfresh.placed.steady hfresh.initialized

/-- `invalidate` keeps the log steady. -/
theorem KeepsSteady.invalidate (hg : g.Fits) {s : Log g} (h : s.KeepsSteady) : s.invalidate.KeepsSteady := by
  have hgone : s.invalidate.initialized = false ∧ s.invalidate.isPresent.1 = false := by
    cases hp : s.isPresent with
    | mk found u =>
      cases hi : s.initialized with
      | true =>
        obtain ⟨rfl, rfl⟩ := Prod.mk.inj (hp.symm.trans (isPresent_initialized hi))
        exact invalidate_gone hg hp (h.ready hi).laidOut.startAddress
      | false =>
        obtain ⟨a, j, d, e, m, hsame⟩ := isPresent_same hi
        have hu : s.isPresent.2 = u := by rw [hp]
        cases found with
        | true => exact invalidate_gone hg hp (hu ▸ (isPresent_start hi).1)
        | false =>
          have heq : s.invalidate = { u with initialized := false } := by
            unfold Log.invalidate
            rw [hp]
          have hmem : ({ u with initialized := false } : Log g).mem = s.mem := by
            rw [← hu, hsame]
          rw [heq]
          refine ⟨rfl, ?_⟩
          rw [isPresent_eq hg rfl, hmem, ← isPresent_eq hg hi, hp]
  exact ⟨fun ht => absurd (hgone.1.symm.trans ht) Bool.false_ne_true,
    fun _ hp => absurd (hgone.2.symm.trans hp) Bool.false_ne_true⟩

/-- Storing headings changes the cache, their address and the record, and caches no block twice. -/
theorem storeHeadings_parts (s : Log g) (h : ManagedString) : ∃ c start es,
    s.storeHeadings h = { s with cache := c, headingStart := start, history := es } ∧ (s.cache.Nodup → c.Nodup) := by
  unfold storeHeadings
  dsimp only
  split
  · exact ⟨_, _, _, rfl, fun hn => write_nodup _ (write_nodup _ hn _ _) _ _⟩
  · exact ⟨_, _, _, rfl, fun hn => write_nodup _ (write_nodup _ hn _ _) _ _⟩

/-- Storing headings keeps the log steady and as full as it was. -/
theorem KeepsSteady.storeHeadings {s : Log g} (h : s.KeepsSteady) (hi : s.initialized = true) (t : ManagedString) :
    (s.storeHeadings t).KeepsSteady ∧ (s.storeHeadings t).full = s.full := by
  obtain ⟨c, start, es, heq, hn⟩ := storeHeadings_parts s t
  have hs := h.ready hi
  rw [heq]
  refine ⟨.of_ready ⟨⟨?_, ?_, ?_, ?_⟩, hs.slot, hn hs.nodup⟩ hi, rfl⟩
  · exact hs.laidOut.startAddress
  · exact hs.laidOut.journalStart
  · exact hs.laidOut.dataStart
  · exact hs.laidOut.logEnd

/-- Appending a text leaves the addresses in place. -/
theorem appendText_placed (hg : g.Fits) {s t : Log g} (h : s.Placed) {data : List UInt8} {code : ErrorCode}
    (ht : s.appendText data = .ok (code, t)) : t.Placed := by
  rcases appendText_parts hg h ht with ⟨-, rfl⟩ | ⟨-, serial, ops, s₁, ha, ⟨-, rfl⟩ | ⟨-, rfl⟩⟩
  · obtain ⟨_, hr⟩ := refuse_refused hg ((RamOnly.note s (.logging s.toLogState data)).placed h)
    exact (RamOnly.notify _).placed hr.placed
  · exact (RamOnly.notify _).placed ha.placed
  · obtain ⟨_, hj⟩ := writeJournal_journaled hg ha.placed
    exact (RamOnly.notify _).placed hj.placed

/-- Appending a text keeps the log steady. -/
theorem KeepsSteady.appendText (hg : g.Fits) {s t : Log g} (h : s.KeepsSteady) (hi : s.initialized = true)
    {data : List UInt8} {code : ErrorCode} (ht : s.appendText data = .ok (code, t))
    (hc : AsCleared (.logging s.toLogState data : LogEvent g)) : t.KeepsSteady :=
  .of_ready (appendText_placed hg ((h.ready hi).placed hc.1 hc.2) ht).steady ((appendText_storeOnly ht).initialized.trans hi)

/-- A reboot keeps the log steady. -/
theorem KeepsSteady.reboot (s : Log g) : s.reboot.KeepsSteady :=
  ⟨fun ht => absurd ht Bool.false_ne_true, fun _ _ => ⟨faithful_of_empty fun _ => rfl, rfl⟩⟩

/-- A new log is steady once it is initialized. -/
theorem KeepsSteady.new (flash : Flash g) (header : Nat → UInt8) : (new flash header).KeepsSteady :=
  ⟨fun ht => absurd ht Bool.false_ne_true, fun _ _ => ⟨faithful_of_empty fun _ => rfl, rfl⟩⟩

/-- Every run keeps an initialised log steady. -/
theorem keepsSteady_maintains (hg : g.Fits) : Maintains (g := g) AsCleared (fun _ => True) KeepsSteady where
  ramOnly h hr := h.ramOnly hg hr
  isPresent h hi := h.isPresent hg hi
  load h hi hp ht hc := ⟨(h.load hg hi hp ht hc).1, trivial⟩
  format {s} _ fullErase := ⟨.format hg s fullErase, fun _ _ _ _ => trivial⟩
  invalidate h := ⟨h.invalidate hg, fun _ _ _ _ => trivial⟩
  storeHeadings h hi fields _ := ⟨(h.storeHeadings hi (csvLine fields)).1, fun _ _ _ _ => trivial⟩
  appendText h hi ht hc := ⟨h.appendText hg hi ht hc, fun _ _ _ _ => trivial⟩
  reboot {s} _ := .reboot s

end Log

end CodalMicrobit

import CodalMicrobit.Lemmas.TableRun
import CodalMicrobit.Lemmas.Reload

/-!
# Headings and reboots

The column headings are stored when a row ends, and loaded when a later start finds the log. They come back as they were
if every list of them could be written: in one place, over what was stored there before, since a running log does not
move on to a new one.
-/

namespace CodalMicrobit

open Nor Outcome FSCache

namespace Log

variable {g : Geometry}

/-- The flash can take a list of headings where it will be written, with nothing behind it and an erased byte for its end,
and no byte of the list could be taken for that. -/
def Takes : LogEvent g → Prop
  | .storing before h =>
    headingAt before + before.headingLength + h.length < before.journalStart ∧ blank ∉ h ∧
      (∀ k (hk : k < h.length), Legal (before.mem (headingAt before + before.headingLength + k)) h[k]) ∧
      Blank before.mem (headingAt before + before.headingLength + h.length) before.journalStart
  | _ => True

instance : DecidablePred (Takes (g := g)) := fun e =>
  match e with
  | .storing _ _ => inferInstanceAs (Decidable (_ ∧ _ ∧ _ ∧ _))
  | .wrote _ _ | .erased _ _ | .loading _ | .logging _ _ => isTrue trivial

/-- The list of headings that was stored last, according to the record. -/
def lastStored (events : List (LogEvent g)) : Option ManagedString :=
  (events.filterMap fun
    | .storing _ h => some h
    | _ => none).getLast?

theorem lastStored_append (events : List (LogEvent g)) {es : List (LogEvent g)} (h : NoHeadings es) :
    lastStored (events ++ es) = lastStored events := by
  have hes : (es.filterMap fun
      | .storing _ h => some h
      | _ => none) = [] := by
    refine List.filterMap_eq_nil_iff.mpr fun e he => ?_
    cases e with
    | storing before text => exact absurd he (h before text)
    | wrote | erased | loading | logging => rfl
  rw [lastStored, List.filterMap_append, hes, List.append_nil]
  rfl

/-- A list of headings that is stored is the last. -/
theorem lastStored_concat (events : List (LogEvent g)) (before : LogState g) (h : ManagedString)
    {es : List (LogEvent g)} (hes : NoHeadings es) : lastStored (events ++ .storing before h :: es) = some h := by
  rw [List.append_cons, lastStored_append _ hes, lastStored, List.filterMap_append]
  exact List.getLast?_concat

/-- The last list of headings is the last one stored. -/
theorem LastHeader.lastStored {events : List (LogEvent g)} {h : ManagedString} (hl : LastHeader events h) :
    Log.lastStored events = some h := by
  obtain ⟨pre, mid, post, before, before', rfl, hmid, hpost⟩ := hl
  refine lastStored_concat pre before h fun b text hm => ?_
  rcases List.mem_append.mp hm with hm | hm
  · exact hmid _ hm
  · rcases List.mem_cons.mp hm with hm | hm
    · nomatch hm
    · exact hpost b text hm

/-- A log whose headings a later start would load: the metadata is there, and behind it the list that was stored last. -/
structure Reloadable (s : Log g) : Prop where
  onePlace : s.OnePlace
  metaOk : MetaOk g s.mem
  place : Place g s.mem ((lastStored s.history).getD [])
  noBlank : blank ∉ (lastStored s.history).getD []

/-- The place of the headings depends on the flash before the journal only. -/
theorem Place.congr {m m' : Memory} {h : ManagedString} (hp : Place g m h)
    (he : ∀ x, x < g.journalStart → m' x = m x) : Place g m' h := by
  refine ⟨hp.lt, ?_, hp.rest.congr fun x _ hx => he x hx⟩
  have hlt := hp.lt
  exact (slice_congr fun x _ hx => he x (by omega)).trans hp.bytes

/-- A change in RAM only leaves the headings where they are. -/
theorem Reloadable.ramOnly {s t : Log g} (h : s.Reloadable) (hr : RamOnly s t) (hm : t.mutex = false)
    (hh : t.history = s.history) : t.Reloadable := by
  have hmem : t.mem = s.mem := by rw [LogState.mem, hr.cache]
  refine ⟨h.onePlace.ramOnly hr hm, ?_, ?_, ?_⟩
  · rw [hmem]
    exact h.metaOk
  · rw [hmem, hh]
    exact h.place
  · rw [hh]
    exact h.noBlank

/-- A text leaves the headings where they are. -/
theorem Reloadable.logString (hg : g.Fits) {s t : Log g} (h : s.Reloadable) {str : List UInt8} {code : ErrorCode}
    (ht : s.logString str = .ok (code, t)) : t.Reloadable := by
  obtain ⟨hone, hmem⟩ := h.onePlace.logString hg ht
  obtain ⟨-, before, es, -, hh, hq, -⟩ := logString_records h.onePlace.ready.initialized ht
  have hlast : lastStored t.history = lastStored s.history := by
    rw [hh]
    refine lastStored_append _ fun b text hm => ?_
    rcases List.mem_cons.mp hm with hm | hm
    · nomatch hm
    · exact hq _ hm
  have hlt := h.place.lt
  refine ⟨hone, h.metaOk.congr fun x hx => hmem x (by omega), ?_, ?_⟩
  · rw [hlast]
    exact h.place.congr hmem
  · rw [hlast]
    exact h.noBlank

/-- A list of headings that is taken can be loaded again. -/
theorem Reloadable.storeHeadings (hg : g.Fits) {s : Log g} (h : s.Reloadable) {list : ManagedString}
    (hc : Takes (.storing s.toLogState list)) : (s.storeHeadings list).Reloadable := by
  obtain ⟨hfit, hff, hleg, hrest⟩ := hc
  have hp := h.onePlace.ready.placed
  obtain ⟨t, ht⟩ : ∃ t, t = s.storeHeadings list := ⟨_, rfl⟩
  obtain ⟨hone, -, hle, hcases⟩ := h.onePlace.storeHeadings hg ht (Nat.le_of_lt hfit)
  rw [h.onePlace.headingAt] at hfit hleg hrest
  rw [hp.journalStart] at hfit hrest
  have hmem := hcases.resolve_right fun hno => hno.1 hleg
  obtain ⟨es, hes, -, hq⟩ := storeHeadings_adds s list
  rw [← ht] at hes ⊢
  have hlast : lastStored t.history = some list := by
    rw [hes]
    have heq : (s.note (.storing s.toLogState list)).history ++ es =
        s.history ++ .storing s.toLogState list :: es := List.append_assoc _ [_] _
    rw [heq]
    exact lastStored_concat _ _ _ (noHeadings_of_quiet hq)
  refine ⟨hone, h.metaOk.congr fun x hx => ?_, ?_, ?_⟩
  · rw [hmem]
    exact put_of_lt _ _ hx
  · rw [hlast, hmem]
    refine ⟨hfit, slice_put _ _ _, fun x h1 h2 => ?_⟩
    exact (put_of_le _ _ h1).trans (hrest x h1 h2)
  · rw [hlast]
    exact hff

/-- Every step keeps the headings in their place. -/
theorem reloadable_kept (hg : g.Fits) : Kept (g := g) Takes Reloadable :=
  ⟨fun h hr hm hh => h.ramOnly hr hm hh, fun h _ _ hc => h.storeHeadings hg hc, fun h ht _ => h.logString hg ht⟩

/-- Nothing is stored yet in a fresh log of a device that was just switched on. -/
theorem Fresh.reloadable (hg : g.Fits) {s : Log g} (h : s.Fresh) (hm : s.mutex = false)
    (hn : NoHeadings s.history) : s.Reloadable := by
  have hjs := g.journalStart_eq
  have hps : 256 ≤ g.getPageSize := hg.block_le_page
  have h40 : metaDataSize = 40 := rfl
  have hlast : lastStored s.history = none := lastStored_append [] hn
  refine ⟨h.onePlace hm, h.metaOk, ?_, ?_⟩
  · rw [hlast]
    refine ⟨?_, rfl, h.headings⟩
    change g.logStart + metaDataSize + 0 < g.journalStart
    omega
  · rw [hlast]
    nofun

/-- Headings survive a reboot. On a device that was just switched on, calls that collect and end rows and append texts
return after a `clear`; and if the flash could take each list of headings that was stored, and none is waiting to be
stored, the log that a later start finds has the same columns in the same order. -/
theorem headings_reload (hg : g.Fits) (flash : Flash g) (header : Nat → UInt8) (fullErase : Bool) (calls : List LogOp)
    (hcalls : ∀ op ∈ calls, TextCall op) :
    ∃ s t, (new flash header).clear fullErase = .ok s ∧ s.run calls = .ok t ∧
      ((∀ e ∈ t.history, Takes e) → t.headingsChanged = false →
        ∃ u, t.reboot.init = .ok u ∧ u.rowData.length = t.rowData.length ∧ u.keys = t.keys) := by
  obtain ⟨s, hs, hfresh, hmu, -⟩ := clear_fresh hg (s := new flash header) rfl fullErase
  obtain ⟨s', hs', htab, ho⟩ := clear_tabled (s := new flash header) rfl fullErase
  obtain rfl : s = s' := Except.ok.inj (hs.symm.trans hs')
  obtain ⟨fs, hfs, -, hq⟩ := (clear_adds (new flash header) fullErase).of_ok hs
  have hfs : s.history = fs := hfs.trans (List.nil_append _)
  have hbare : NoHeadings s.history := hfs ▸ noHeadings_of_quiet hq
  obtain ⟨t, ht, ⟨htt, -⟩, es, hes, hrow, hkeep⟩ :=
    (reloadable_kept hg).run_moves hg.pos calls ⟨htab, [], Or.inl ⟨ho, rfl⟩⟩ hcalls
  refine ⟨s, t, hs, ht, fun hc hch => ?_⟩
  have hall := hkeep (hfresh.reloadable hg hmu hbare) fun e he => hc e (by rw [hes]; exact List.mem_append_right _ he)
  have hlast : (lastStored t.history).getD [] = if t.keys = [] then [] else csvLine t.keys := by
    by_cases hnil : t.rowData = []
    · have hkeys : t.keys = [] := List.map_eq_nil_iff.mpr hnil
      obtain ⟨-, hno⟩ := hrow hnil
      have hnone : lastStored s.history = none := lastStored_append [] hbare
      rw [hes, lastStored_append _ hno, hnone, if_pos hkeys]
      rfl
    · have hkeys : t.keys ≠ [] := fun hk => hnil (List.map_eq_nil_iff.mp hk)
      rw [((htt.header hch).resolve_left hnil).of_drop.lastStored, if_neg hkeys]
      rfl
  have hff : blank ∉ csvLine t.keys := by
    by_cases hk : t.keys = []
    · rw [hk]
      decide
    · have hno := hall.noBlank
      rw [hlast, if_neg hk] at hno
      exact hno
  have hplace := hall.place
  rw [hlast] at hplace
  obtain ⟨u, hu, hkeys⟩ := init_keys hg hall.metaOk htt.isCell_keys hff hplace
  refine ⟨u, hu, ?_, hkeys⟩
  have hlen := congrArg List.length hkeys
  simpa only [List.length_map, keys] using hlen

/-- `headings_reload` for one row on an erased storage. -/
theorem headings_reload_one :
    ∃ s t u, (new (blankFlash sixteenPages) fun _ => 0).clear = .ok s ∧
      s.run [.logData (ascii ['a']) (ascii ['1']), .endRow 0] = .ok t ∧ t.reboot.init = .ok u ∧ u.keys = t.keys := by
  obtain ⟨s, t, hs, ht, himp⟩ := headings_reload sixteenPages_fits (blankFlash sixteenPages) (fun _ => 0) false
    [.logData (ascii ['a']) (ascii ['1']), .endRow 0] (by
      intro op hop
      rcases List.mem_cons.mp hop with rfl | hop
      · exact ⟨by decide, by decide⟩
      · exact List.mem_singleton.mp hop ▸ trivial)
  have hcond : (match (new (blankFlash sixteenPages) fun _ => 0).clear with
      | .ok s =>
        match s.run [.logData (ascii ['a']) (ascii ['1']), .endRow 0] with
        | .ok t => decide ((∀ e ∈ t.history, Takes e) ∧ t.headingsChanged = false)
        | .error _ => false
      | .error _ => false) = true := by
    decide +kernel
  simp only [hs, ht, decide_eq_true_eq] at hcond
  obtain ⟨u, hu, -, hkeys⟩ := himp hcond.1 hcond.2
  exact ⟨s, t, u, hs, ht, hu, hkeys⟩

/-- A second row with a new key: its list of headings is written over the first one, which the flash does not take, and
after a reboot there is the first key only. -/
theorem second_heading_is_lost :
    ∃ s t u, (new (blankFlash sixteenPages) fun _ => 0).clear = .ok s ∧
      s.run [.logData (ascii ['a']) (ascii ['1']), .endRow 0, .logData (ascii ['b']) (ascii ['2']), .endRow 0] = .ok t ∧
      t.rowStarted = false ∧ t.reboot.init = .ok u ∧ t.keys = [ascii ['a'], ascii ['b']] ∧ u.keys = [ascii ['a']] := by
  have hrun : (match (new (blankFlash sixteenPages) fun _ => 0).clear with
      | .ok s =>
        match s.run [.logData (ascii ['a']) (ascii ['1']), .endRow 0, .logData (ascii ['b']) (ascii ['2']), .endRow 0] with
        | .ok t =>
          match t.reboot.init with
          | .ok u => decide (t.rowStarted = false ∧ t.keys = [ascii ['a'], ascii ['b']] ∧ u.keys = [ascii ['a']])
          | .error _ => false
        | .error _ => false
      | .error _ => false) = true := by
    decide +kernel
  cases hs : (new (blankFlash sixteenPages) fun _ => 0).clear with
  | error e =>
    rw [hs] at hrun
    nomatch hrun
  | ok s =>
    simp only [hs] at hrun
    cases ht : s.run [.logData (ascii ['a']) (ascii ['1']), .endRow 0, .logData (ascii ['b']) (ascii ['2']), .endRow 0] with
    | error e =>
      simp only [ht] at hrun
      nomatch hrun
    | ok t =>
      simp only [ht] at hrun
      cases hu : t.reboot.init with
      | error e =>
        simp only [hu] at hrun
        nomatch hrun
      | ok u =>
        simp only [hu, decide_eq_true_eq] at hrun
        exact ⟨s, t, u, rfl, ht, hrun.1, hu, hrun.2.1, hrun.2.2⟩

end Log

end CodalMicrobit

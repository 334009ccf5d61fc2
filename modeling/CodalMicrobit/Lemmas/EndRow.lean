import CodalMicrobit.Lemmas.Table

/-!
# The end of a row

What `endRow` appends: the line of the keys if they changed, and the line of the values if there are any. Here a log is
taken from a `clear`, which leaves a table without rows, through the end of a row, which leaves the table as it was with no
row open.
-/

namespace CodalMicrobit

open Nor Outcome

namespace Log

variable {g : Geometry} {since : Nat}

/-! ## Appending a line -/

/-- There was room for every text that the log was asked to append. -/
def HadRoom (events : List (LogEvent g)) : Prop :=
  ∀ before text, LogEvent.logging before text ∈ events → Accepted before text

instance (events : List (LogEvent g)) : Decidable (HadRoom events) :=
  decidable_of_iff (events.all fun
    | .logging before text => decide (Accepted before text)
    | _ => true) <| by
    rw [List.all_eq_true]
    refine ⟨fun h before text hm => of_decide_eq_true (h _ hm), fun h e he => ?_⟩
    cases e with
    | logging before text => exact decide_eq_true (h before text he)
    | _ => rfl

/-- The entries of the record that are no headings. -/
def NoHeadings (events : List (LogEvent g)) : Prop := ∀ before text, LogEvent.storing before text ∉ events

/-- Quiet events store no headings. -/
theorem noHeadings_of_quiet {es : List (LogEvent g)} (h : ∀ e ∈ es, Quiet e) : NoHeadings es :=
  fun _ _ hm => h _ hm

/-- The log moved on to `t`, and appended the line if there was room. -/
structure Lined (s t : Log g) (line : List UInt8) (es : List (LogEvent g)) : Prop where
  history : t.history = s.history ++ es
  appended : HadRoom es → appendedBy es = line ∧ t.dataEnd = s.dataEnd + line.length

theorem Lined.refl (s : Log g) : Lined s s [] [] := ⟨(List.append_nil _).symm, fun _ => ⟨rfl, rfl⟩⟩

theorem Lined.trans {s t u : Log g} {line line' : List UInt8} {es es' : List (LogEvent g)} (h : Lined s t line es)
    (h' : Lined t u line' es') : Lined s u (line ++ line') (es ++ es') := by
  refine ⟨by rw [h'.history, h.history, List.append_assoc], fun hr => ?_⟩
  obtain ⟨h1, h2⟩ := h.appended fun b t hm => hr b t (List.mem_append_left _ hm)
  obtain ⟨h3, h4⟩ := h'.appended fun b t hm => hr b t (List.mem_append_right _ hm)
  refine ⟨by rw [appendedBy_append, h1, h3], ?_⟩
  rw [h4, h2, List.length_append, Nat.add_assoc]

theorem Tabled.drop_append {s : Log g} (h : s.Tabled since) (es : List (LogEvent g)) :
    (s.history ++ es).drop since = s.history.drop since ++ es := List.drop_append_of_le_length h.since_le

/-- What appending and storing change does not matter to the table, but for the header. -/
theorem Tabled.storeOnly {s t : Log g} (h : s.Tabled since) (hs : StoreOnly s t) (hm : t.mutex = false)
    {es : List (LogEvent g)} (he : t.history = s.history ++ es) (hh : t.headingsChanged = false →
      t.rowData = [] ∨ LastHeader (t.history.drop since) (csvLine (t.rowData.map (·.key)))) : t.Tabled since := by
  have hle : since ≤ t.history.length := by
    rw [he, List.length_append]
    exact Nat.le_add_right_of_le h.since_le
  unfold StoreOnly at hs
  refine ⟨?_, hm, hle, ?_, ?_, ?_, ?_, ?_, hh⟩
  all_goals rw [hs]
  · exact h.initialized
  · exact h.nodup
  · exact h.keys
  · exact h.values
  · exact h.stamp
  · exact h.columns

/-- Logging a line of cells. -/
theorem logLine (hpos : 0 < g.getPageSize) {s : Log g} (hi : s.initialized = true) (hm : s.mutex = false)
    {fields : List ManagedString} (hf : ∀ f ∈ fields, IsCell f) :
    ∃ code t before es, s.logString (csvLine fields) = .ok (code, t) ∧ StoreOnly s t ∧ t.mutex = false ∧
      (∀ e ∈ es, Quiet e) ∧ Lined s t (csvLine fields) (.logging before (csvLine fields) :: es) := by
  obtain ⟨code, t, ht, hmt⟩ := logString_returns hpos hi hm (csvLine fields)
  obtain ⟨hst, before, es, -, hh, hq, hend⟩ := logString_records hi ht
  have hnul : cString (csvLine fields) = csvLine fields := cString_csvLine hf
  rw [hnul] at hh hend
  refine ⟨code, t, before, es, ht, hst, hmt, hq, hh, fun hr => ?_⟩
  have hline : appendedBy [LogEvent.logging before (csvLine fields)] = csvLine fields := by
    have hacc : Accepted before (csvLine fields) := hr before _ List.mem_cons_self
    exact (appendedBy_accepted hacc).trans (cleaned_csvLine hf)
  rw [appendedBy_cons_quiet _ hq, hline]
  rw [hline] at hend
  exact ⟨rfl, hend⟩

/-! ## The end of a row -/

/-- The keys of the columns, in their order. -/
def keys (s : Log g) : List ManagedString := s.rowData.map (·.key)

/-- The values of the columns, in their order. -/
def values (s : Log g) : List ManagedString := s.rowData.map (·.value)

/-- The names of the columns are cells. -/
theorem Tabled.isCell_keys {s : Log g} (h : s.Tabled since) : ∀ f ∈ s.keys, IsCell f := by
  intro f hf
  obtain ⟨c, hc, rfl⟩ := List.mem_map.mp hf
  exact h.keys c hc

/-- The values of the columns are cells. -/
theorem Tabled.isCell_values {s : Log g} (h : s.Tabled since) : ∀ f ∈ s.values, IsCell f := by
  intro f hf
  obtain ⟨c, hc, rfl⟩ := List.mem_map.mp hf
  exact h.values c hc

/-- A column of the open row has a value exactly when a setting gave it one. -/
theorem RowIs.any_value {s : Log g} {settings : List (ManagedString × ManagedString)} (h : s.RowIs settings)
    (hopen : s.rowStarted = true) : s.rowData.any (·.value != []) = true ↔ ∃ key, cell settings key ≠ [] := by
  obtain ⟨-, hvals, hkeys⟩ := h.resolve_left fun hc => by rw [hopen] at hc; nomatch hc.1
  rw [List.any_eq_true]
  constructor
  · rintro ⟨c, hc, hv⟩
    exact ⟨c.key, hvals c hc ▸ bne_iff_ne.mp hv⟩
  · rintro ⟨key, hkey⟩
    have hin : key ∈ s.rowData.map (·.key) := by
      by_contra hout
      exact hkey (cell_of_not_mem fun kv hm he => hout (he ▸ hkeys kv hm))
    obtain ⟨c, hc, rfl⟩ := List.mem_map.mp hin
    exact ⟨c, hc, bne_iff_ne.mpr (hvals c hc ▸ hkey)⟩

/-- The values in the row are those that were set. -/
theorem RowIs.values_eq {s : Log g} {settings : List (ManagedString × ManagedString)} (h : s.RowIs settings)
    (hopen : s.rowStarted = true) : s.values = s.keys.map (cell settings) := by
  obtain ⟨-, hvals, -⟩ := h.resolve_left fun hc => by rw [hopen] at hc; nomatch hc.1
  rw [values, keys, List.map_map]
  exact List.map_congr_left hvals

/-- The setting that `endRow` adds to a row with a value. -/
def stampOf (s : Log g) (now : Nat) : List (ManagedString × ManagedString) :=
  if s.timeStampFormat = .None then []
  else [(sanitised s.timeStampHeading, sanitised (timeStamp s.timeStampFormat now))]

/-- A row that has a value still has one with its time stamp. -/
theorem stamped_value {s : Log g} {settings : List (ManagedString × ManagedString)} {now : Nat}
    (h : ∃ key, cell settings key ≠ []) : ∃ key, cell (settings ++ s.stampOf now) key ≠ [] := by
  obtain ⟨key, hkey⟩ := h
  refine ⟨key, ?_⟩
  unfold stampOf
  split
  · rwa [List.append_nil]
  · rw [cell_concat]
    split
    · rw [Ne, ← List.length_eq_zero_iff, sanitised_length, List.length_eq_zero_iff]
      exact timeStamp_ne_nil _ _
    · exact hkey

/-- Stamping a row with a value in it adds the time, and nothing else changes. -/
theorem stampRow_tabled {s : Log g} (h : s.Tabled since) {settings : List (ManagedString × ManagedString)}
    (hrow : s.RowIs settings) (hopen : s.rowStarted = true) (now : Nat) :
    ∃ t stamp, s.stampRow now = .ok t ∧ t.Tabled since ∧ t.RowIs (settings ++ stamp) ∧ t.rowStarted = true ∧
      Lined s t [] [] ∧ ((∃ key, cell settings key ≠ []) → stamp = s.stampOf now) ∧
      ((∀ key, cell settings key = []) → stamp = []) := by
  have hany := hrow.any_value hopen
  unfold stampRow stampOf
  by_cases hv : ∃ key, cell settings key ≠ []
  · have hno : ¬∀ key, cell settings key = [] := fun hall => hv.elim fun key hk => hk (hall key)
    by_cases hf : s.timeStampFormat = .None
    · rw [if_neg fun hc => hc.2 hf]
      exact ⟨s, [], rfl, h, by rwa [List.append_nil], hopen, .refl s, fun _ => (if_pos hf).symm, fun hall => absurd hall hno⟩
    · rw [if_pos ⟨hany.mpr hv, hf⟩]
      obtain ⟨t, ht, htab, hr, ho, hh, hd⟩ := logData_tabled h (h.stamp hf) (nul_not_mem_timeStamp _ now) hrow
      refine ⟨t, _, ht, htab, hr, ho, ⟨by rw [hh, List.append_nil], fun _ => ⟨rfl, hd⟩⟩, fun _ => ?_,
        fun hall => absurd hall hno⟩
      rw [if_neg hf, cleaned_eq, cleaned_eq]
  · rw [if_neg fun hc => hv (hany.mp hc.1)]
    exact ⟨s, [], rfl, h, by rwa [List.append_nil], hopen, .refl s, fun hc => absurd hc hv, fun _ => rfl⟩

/-- Changed headings are stored and logged. -/
theorem updateHeadings_tabled (hpos : 0 < g.getPageSize) {s : Log g} (h : s.Tabled since) :
    ∃ t es, s.updateHeadings = .ok t ∧ t.Tabled since ∧ t.rowData = s.rowData ∧ t.rowStarted = s.rowStarted ∧
      t.headingsChanged = false ∧ Lined s t (if s.headingsChanged then csvLine s.keys else []) es := by
  by_cases hc : s.headingsChanged = true
  · obtain ⟨s₁, hs₁⟩ : ∃ s₁, s₁ = s.storeHeadings (csvLine s.keys) := ⟨_, rfl⟩
    obtain ⟨hst, hd⟩ := storeHeadings_storeOnly s (csvLine s.keys)
    have hm := storeHeadings_mutex s (csvLine s.keys)
    have hi := hst.initialized
    obtain ⟨es₁, hes₁, -, hq₁⟩ := storeHeadings_adds s (csvLine s.keys)
    rw [← hs₁] at hst hd hm hi hes₁
    obtain ⟨code, t, before, es, ht, hst', hmt, hq, hl⟩ :=
      logLine hpos (hi.trans h.initialized) (hm.trans h.mutex) h.isCell_keys
    have heq : s.updateHeadings = .ok { t with headingsChanged := false } := by
      unfold updateHeadings
      rw [if_pos hc]
      change ((s.storeHeadings (csvLine s.keys)).logString (csvLine s.keys) >>= _) = _
      rw [← hs₁, ht]
      rfl
    have hall : StoreOnly s t := hst.trans hst'
    have hrow : t.rowData = s.rowData := by rw [hall]
    have hhist : t.history = s.history ++ .storing s.toLogState (csvLine s.keys) ::
        (es₁ ++ .logging before (csvLine s.keys) :: es) := by
      rw [hl.history, hes₁]
      exact (List.append_assoc _ _ _).trans (List.append_assoc _ _ _)
    have hlast : LastHeader (t.history.drop since) (csvLine (t.rowData.map (·.key))) := by
      rw [hrow, hhist, h.drop_append]
      exact ⟨_, es₁, es, s.toLogState, before, rfl, hq₁, noHeadings_of_quiet hq⟩
    have htab : t.Tabled since := h.storeOnly hall hmt hhist fun _ => Or.inr hlast
    refine ⟨_, _, heq, ⟨htab.initialized, hmt, htab.since_le, htab.nodup, htab.keys, htab.values, htab.stamp, nofun,
      fun _ => Or.inr hlast⟩, hrow, by rw [hall], rfl, hhist, fun hr => ?_⟩
    rw [if_pos hc]
    obtain ⟨ha, he⟩ := hl.appended fun b text hm => hr b text (List.mem_cons_of_mem _ (List.mem_append_right _ hm))
    refine ⟨?_, by rw [← hd]; exact he⟩
    have hsplit : appendedBy (.storing s.toLogState (csvLine s.keys) :: (es₁ ++ .logging before (csvLine s.keys) :: es)) =
        appendedBy [.storing s.toLogState (csvLine s.keys)] ++ appendedBy (es₁ ++ .logging before (csvLine s.keys) :: es) :=
      appendedBy_append [_] _
    rw [hsplit, appendedBy_append, appendedBy_quiet hq₁, ha]
    rfl
  · refine ⟨s, [], if_neg hc, h, rfl, rfl, Bool.eq_false_iff.mpr hc, ?_⟩
    rw [if_neg hc]
    exact .refl s

/-- The values are logged if there are any. -/
theorem logRow_tabled (hpos : 0 < g.getPageSize) {s : Log g} (h : s.Tabled since) :
    ∃ t es, s.logRow = .ok t ∧ StoreOnly s t ∧ t.mutex = false ∧ NoHeadings es ∧
      Lined s t (if s.rowData.any (·.value != []) then csvLine s.values else []) es := by
  by_cases hv : s.rowData.any (·.value != []) = true
  · have hall : ¬s.rowData.all (·.value == []) = true := by
      obtain ⟨c, hc, hne⟩ := List.any_eq_true.mp hv
      intro hall
      exact bne_iff_ne.mp hne (beq_iff_eq.mp (List.all_eq_true.mp hall c hc))
    obtain ⟨code, t, before, es, ht, hst, hmt, hq, hl⟩ := logLine hpos h.initialized h.mutex h.isCell_values
    refine ⟨t, _, ?_, hst, hmt, fun b text hm => ?_, by rw [if_pos hv]; exact hl⟩
    · unfold logRow
      rw [if_neg hall]
      change (s.logString (csvLine s.values) >>= _) = _
      rw [ht]
      rfl
    · rcases List.mem_cons.mp hm with hm | hm
      · nomatch hm
      · exact hq _ hm
  · have hall : s.rowData.all (·.value == []) = true := by
      refine List.all_eq_true.mpr fun c hc => ?_
      by_contra hne
      exact hv (List.any_eq_true.mpr ⟨c, hc, bne_iff_ne.mpr fun he => hne (beq_iff_eq.mpr he)⟩)
    refine ⟨s, [], if_pos hall, .refl s, h.mutex, fun _ _ => List.not_mem_nil, ?_⟩
    rw [if_neg hv]
    exact .refl s

/-- In an open row, `endRow` is its three parts. -/
theorem endRow_eq {s s₁ s₂ t : Log g} {now : Nat} (hi : s.initialized = true) (hopen : s.rowStarted = true)
    (h₁ : s.stampRow now = .ok s₁) (h₂ : s₁.updateHeadings = .ok s₂) (h₃ : s₂.logRow = .ok t) :
    s.endRow now = .ok (if t.full then .DEVICE_NO_RESOURCES else .DEVICE_OK, { t with rowStarted := false }) := by
  unfold endRow
  rw [hopen, Bool.not_true, if_neg Bool.false_ne_true, init_of_initialized hi]
  change (s.stampRow now >>= _) = _
  rw [h₁]
  change (s₁.updateHeadings >>= _) = _
  rw [h₂]
  change (s₂.logRow >>= _) = _
  rw [h₃]
  rfl

/-- What `endRow` does in an open row: the line of the keys if they changed, and the line of the values if there are any.
The time stamp is one more setting. -/
theorem endRow_tabled (hpos : 0 < g.getPageSize) {s : Log g} (h : s.Tabled since)
    {settings : List (ManagedString × ManagedString)} (hrow : s.RowIs settings) (hopen : s.rowStarted = true) (now : Nat) :
    ∃ code t es header, s.endRow now = .ok (code, t) ∧ t.Tabled since ∧ t.rowStarted = false ∧
      (t.keys = [] ∨ LastHeader (t.history.drop since) (csvLine t.keys)) ∧ (header = [] ∨ header = csvLine t.keys ∧ t.keys ≠ []) ∧
      ((∃ key, cell settings key ≠ []) → t.keys ≠ [] ∧ t.values = t.keys.map (cell (settings ++ s.stampOf now)) ∧
        Lined s t (header ++ csvLine t.values) es) ∧
      ((∀ key, cell settings key = []) → Lined s t header es) := by
  obtain ⟨s₁, stamp, h₁, ht₁, hr₁, ho₁, hl₁, hst, hst'⟩ := stampRow_tabled h hrow hopen now
  obtain ⟨s₂, es₂, h₂, ht₂, hrd, hro, hch, hl₂⟩ := updateHeadings_tabled hpos ht₁
  obtain ⟨t, es, h₃, hso, hmt, hno, hl₃⟩ := logRow_tabled hpos ht₂
  have ho₂ : s₂.rowStarted = true := hro.trans ho₁
  have hr₂ : s₂.RowIs (settings ++ stamp) := by
    rcases hr₁ with ⟨hc, -⟩ | ⟨-, hvals, hkeys⟩
    · rw [ho₁] at hc
      nomatch hc
    · exact Or.inr ⟨ho₂, by rw [hrd]; exact hvals, by rw [hrd]; exact hkeys⟩
  have hk₂ : s₁.keys = s₂.keys := by rw [keys, keys, hrd]
  have hk : t.keys = s₂.keys := by rw [keys, keys, hso]
  have hlast : s₂.keys = [] ∨ LastHeader (s₂.history.drop since) (csvLine s₂.keys) := (ht₂.header hch).imp (fun he => by
    rw [keys, he]; rfl) id
  have hlast' : t.keys = [] ∨ LastHeader (t.history.drop since) (csvLine t.keys) := by
    rw [hk]
    refine hlast.imp id fun hl => ?_
    rw [hl₃.history, ht₂.drop_append]
    exact hl.append hno
  have htab : t.Tabled since := ht₂.storeOnly hso hmt hl₃.history fun _ => hlast'.imp (fun he => List.map_eq_nil_iff.mp he) id
  have heq := endRow_eq h.initialized hopen h₁ h₂ h₃
  have hlined := hl₁.trans (hl₂.trans hl₃)
  rw [List.nil_append, List.nil_append] at hlined
  have hany := hr₂.any_value ho₂
  refine ⟨_, _, es₂ ++ es, if s₁.headingsChanged then csvLine s₁.keys else [], heq,
    ⟨htab.initialized, hmt, htab.since_le, htab.nodup, htab.keys, htab.values, htab.stamp, htab.columns, htab.header⟩, rfl, hlast', ?_,
    fun hv => ?_, fun hv => ?_⟩
  · change _ ∨ _ = csvLine t.keys ∧ t.keys ≠ []
    rw [hk, ← hk₂]
    split
    · rename_i hc
      exact Or.inr ⟨rfl, fun hnil => ht₁.columns hc (List.map_eq_nil_iff.mp hnil)⟩
    · exact Or.inl rfl
  · obtain rfl := hst hv
    have hv₂ := hany.mpr (stamped_value hv)
    have hv : t.values = s₂.values := by rw [values, values, hso]
    rw [if_pos hv₂, ← hv] at hlined
    refine ⟨fun hnil => ?_, ?_, hlined.history, hlined.appended⟩
    · obtain ⟨c, hc, -⟩ := List.any_eq_true.mp hv₂
      have hc' : c.key ∈ s₂.keys := List.mem_map_of_mem hc
      rw [← hk, show t.keys = [] from hnil] at hc'
      nomatch hc'
    · exact hv.trans ((hr₂.values_eq ho₂).trans (by rw [← hk]; rfl))
  · obtain rfl := hst' hv
    have hv₂ : ¬s₂.rowData.any (·.value != []) = true := by
      rw [hany, List.append_nil]
      exact fun ⟨key, hkey⟩ => hkey (hv key)
    rw [if_neg hv₂, List.append_nil] at hlined
    exact ⟨hlined.history, hlined.appended⟩

/-- A row that was not started has nothing to end. -/
theorem endRow_closed {s : Log g} (h : s.rowStarted = false) (now : Nat) :
    s.endRow now = .ok (.DEVICE_INVALID_STATE, s) := by
  unfold endRow
  rw [h]
  rfl

/-! ## The start of a table -/

/-- Formatting leaves an empty table. -/
theorem format_table (s : Log g) (fullErase : Bool) : (s.format fullErase).initialized = true ∧
    (s.format fullErase).rowData = [] ∧ (s.format fullErase).rowStarted = false ∧
    (s.format fullErase).headingsChanged = false := by
  obtain ⟨s₀, hs₀⟩ : ∃ s₀ : Log g, s₀ = { s with
      startAddress := g.logStart, journalStart := g.journalStart, dataStart := g.dataStart, logEnd := g.logEnd
      journalPages := CONFIG_MICROBIT_LOG_JOURNAL_PAGES, journalHead := g.journalStart, dataEnd := g.dataStart
      initialized := false, rowStarted := false, full := false
      headingsChanged := false, headingStart := 0, headingLength := 0, rowData := []
      metaData := newMetaData g.logEnd g.dataStart } := ⟨_, rfl⟩
  have hformat : s.format fullErase = { (s₀.eraseStorage fullErase).writeStorage with initialized := true } := by
    rw [hs₀]
    rfl
  have heq : StoreOnly s₀ (s₀.eraseStorage fullErase) := eraseStorage_storeOnly s₀ fullErase
  rw [hformat]
  refine ⟨rfl, ?_, ?_, ?_⟩
  · change (s₀.eraseStorage fullErase).rowData = []
    rw [heq, hs₀]
  · change (s₀.eraseStorage fullErase).rowStarted = false
    rw [heq, hs₀]
  · change (s₀.eraseStorage fullErase).headingsChanged = false
    rw [heq, hs₀]

/-- A column for the time and the lock given back. -/
theorem notify_applyTimeStamp (s : Log g) (format : TimeStampFormat) :
    (s.applyTimeStamp format).notify = ({ s with mutex := false, timeStampFormat := .None } : Log g).applyTimeStamp format := by
  unfold applyTimeStamp addHeading
  dsimp only
  split
  · rfl
  · split <;> rfl

/-- `clear` leaves a table without rows: the only column there can be is the one of the time stamp. -/
theorem clear_tabled {s : Log g} (hm : s.mutex = false) (fullErase : Bool) :
    ∃ t, s.clear fullErase = .ok t ∧ t.Tabled t.history.length ∧ t.rowStarted = false := by
  have hw : s.wait = .ok { s with mutex := true } := if_neg (by rw [hm]; nofun)
  obtain ⟨f, hf⟩ : ∃ f, f = ({ s with mutex := true } : Log g).format fullErase := ⟨_, rfl⟩
  obtain ⟨hi, hrow, ho, hch⟩ := format_table { s with mutex := true } fullErase
  rw [← hf] at hi hrow ho hch
  have htab : Tabled { f with mutex := false, timeStampFormat := .None } f.history.length := by
    refine ⟨hi, rfl, Nat.le_refl _, ?_, ?_, ?_, fun hn => absurd rfl hn, fun hc => ?_, fun _ => Or.inl hrow⟩
    · rw [hrow]
      exact List.nodup_nil
    · rw [hrow]
      nofun
    · rw [hrow]
      nofun
    · exact absurd (hch.symm.trans hc) Bool.false_ne_true
  obtain ⟨ht, hr, hh⟩ := applyTimeStamp_tabled htab f.timeStampFormat (Or.inl ⟨ho, rfl⟩)
  refine ⟨(f.applyTimeStamp f.timeStampFormat).notify, ?_, ?_, ?_⟩
  · unfold clear
    rw [hw, hf]
    rfl
  · rw [notify_applyTimeStamp, hh]
    exact ht
  · have hs : (f.applyTimeStamp f.timeStampFormat).rowStarted = f.rowStarted := by
      unfold applyTimeStamp addHeading
      dsimp only
      split
      · rfl
      · split <;> rfl
    exact hs.trans ho

/-! ## Runs -/

theorem run_append {s t : Log g} {ops ops' : List LogOp} (h : s.run ops = .ok t) :
    s.run (ops ++ ops') = t.run ops' := by
  induction ops generalizing s with
  | nil =>
    cases h
    rfl
  | cons op ops ih =>
    obtain ⟨s₁, h₁, h₂⟩ := bind_eq_ok.mp h
    change (s.perform op >>= fun s => s.run (ops ++ ops')) = _
    rw [h₁]
    exact ih h₂

end Log

end CodalMicrobit

import CodalMicrobit.Lemmas.Steady
import CodalMicrobit.Lemmas.Taken
import CodalMicrobit.Lemmas.TableRun
import CodalMicrobit.Theorems.LogLock

/-!
# The result of the end of a row

`endRow` takes its result from the flag that the log is full. The flag is set by a text that is refused, and stays set. The
cache's refusal to write, and a log that is gone, do not set it. So the result says whether the lines of the row are in the
flash where the log was not full before a row that there is room for, and the flash takes what is written.
-/

namespace CodalMicrobit

open Nor Outcome FSCache

namespace Log

variable {g : Geometry}

/-! ## What a row appends -/

/-- The row with its time stamp, which `endRow` logs. -/
def stamped (s : Log g) (now : Nat) : Log g :=
  match s.stampRow now with
  | .ok t => t
  | .error _ => s

/-- The line of the keys, if they changed since the last row. -/
def headerLine (s : Log g) : ManagedString := if s.headingsChanged then csvLine s.keys else []

/-- The lines of the row, as `logString` cleans them. -/
def rowText (s : Log g) : List UInt8 := cleaned s.headerLine false ++ cleaned (csvLine s.values) false

/-- The lines of the row of `s` lie at the end of the data of `t`, where the data of `s` ended; and if the headings changed,
they are stored. -/
structure RowAppended (s t : Log g) : Prop where
  dataEnd : t.dataEnd = s.dataEnd + s.rowText.length
  bytes : slice t.mem s.dataEnd s.rowText.length = s.rowText
  headings : s.headingsChanged = true → slice t.mem t.headingStart (csvLine s.keys).length = csvLine s.keys

instance (s t : Log g) : Decidable (RowAppended s t) :=
  decidable_of_iff (t.dataEnd = s.dataEnd + s.rowText.length ∧ slice t.mem s.dataEnd s.rowText.length = s.rowText ∧
    (s.headingsChanged = true → slice t.mem t.headingStart (csvLine s.keys).length = csvLine s.keys))
    ⟨fun ⟨h1, h2, h3⟩ => ⟨h1, h2, h3⟩, fun ⟨h1, h2, h3⟩ => ⟨h1, h2, h3⟩⟩

/-- `endRow` succeeds if the lines of the row were appended, and otherwise reports that there was no room. -/
def ReportsRow (s : Log g) (now : Nat) : Prop :=
  ∃ code t, s.endRow now = .ok (code, t) ∧ (code = .DEVICE_OK ∨ code = .DEVICE_NO_RESOURCES) ∧
    (code = .DEVICE_OK ↔ RowAppended (s.stamped now) t)

/-! ## When the result is right -/

/-- There is room for the lines of the row, which `logString` cuts at a NUL. -/
def HasRoom (s : Log g) : Prop :=
  s.dataEnd + ((cString s.headerLine).length + (cString (csvLine s.values)).length) ≤ s.logEnd

instance (s : Log g) : Decidable s.HasRoom := inferInstanceAs (Decidable (_ ≤ _))

/-- The list of headings fits into the page of the metadata, the flash can take it there, and the cache agrees with the flash
on that page. -/
def TakesHeadings (s : LogState g) (h : ManagedString) : Prop :=
  (s.startAddress ≤ headingAt s ∧ HeadingFits s h) ∧
    (∀ k (hk : k < h.length), Legal (s.mem (headingAt s + s.headingLength + k)) h[k]) ∧
    ∀ i p, (s.cache.cache i).page = some p → ∀ k, k < CONFIG_MICROBIT_LOG_CACHE_BLOCK_SIZE →
      s.startAddress ≤ (s.cache.cache i).address + k → (s.cache.cache i).address + k < s.journalStart →
      p k = s.mem ((s.cache.cache i).address + k)

instance (s : LogState g) (h : ManagedString) : Decidable (TakesHeadings s h) :=
  inferInstanceAs (Decidable ((_ ∧ _) ∧ _ ∧ ∀ i, ∀ p, (s.cache.cache i).page = some p → _))

/-- The log was not full before, no line has a NUL, and the flash takes the lines, and the headings if they changed. -/
structure TakesRow (s : Log g) : Prop where
  full : s.full = false
  nul : (0 : UInt8) ∉ s.headerLine ∧ (0 : UInt8) ∉ csvLine s.values
  text : TakesText s.toLogState s.rowText
  headings : s.headingsChanged = true → TakesHeadings s.toLogState (csvLine s.keys)

instance (s : Log g) : Decidable s.TakesRow :=
  decidable_of_iff (s.full = false ∧ ((0 : UInt8) ∉ s.headerLine ∧ (0 : UInt8) ∉ csvLine s.values) ∧
    TakesText s.toLogState s.rowText ∧ (s.headingsChanged = true → TakesHeadings s.toLogState (csvLine s.keys)))
    ⟨fun ⟨h1, h2, h3, h4⟩ => ⟨h1, h2, h3, h4⟩, fun ⟨h1, h2, h3, h4⟩ => ⟨h1, h2, h3, h4⟩⟩

/-- The log was not invalidated since the row was started, its data ends inside the data area, and a row that there is room
for is taken. -/
structure Answerable (s : Log g) (now : Nat) : Prop where
  initialized : s.initialized = true
  inside : s.dataStart ≤ s.dataEnd ∧ s.dataEnd ≤ s.logEnd
  takes : (s.stamped now).HasRoom → (s.stamped now).TakesRow

instance (s : Log g) (now : Nat) : Decidable (s.Answerable now) :=
  decidable_of_iff (s.initialized = true ∧ (s.dataStart ≤ s.dataEnd ∧ s.dataEnd ≤ s.logEnd) ∧
    ((s.stamped now).HasRoom → (s.stamped now).TakesRow))
    ⟨fun ⟨h1, h2, h3⟩ => ⟨h1, h2, h3⟩, fun ⟨h1, h2, h3⟩ => ⟨h1, h2, h3⟩⟩

/-! ## The lines -/

/-- A line is never empty. -/
theorem csvLine_length_pos (fields : List ManagedString) : 0 < (csvLine fields).length := by
  rw [csvLine_eq, List.length_append, List.length_singleton]
  exact Nat.succ_pos _

/-- A C string is no longer than its text. -/
theorem cString_length_le (str : List UInt8) : (cString str).length ≤ str.length :=
  (List.takeWhile_sublist _).length_le

/-- The text of a row is the new headings and the values. -/
theorem rowText_length (s : Log g) : s.rowText.length = s.headerLine.length + (csvLine s.values).length := by
  rw [rowText, List.length_append, cleaned_length, cleaned_length]

/-- A text without a zero byte is the whole C string. -/
theorem cString_of_not_mem {str : List UInt8} (h : (0 : UInt8) ∉ str) : cString str = str :=
  cString_of_no_nul str fun _ hb h0 => h (h0 ▸ hb)

/-! ## The time stamp -/

/-- The stamp of an initialised log. -/
theorem stampRow_eq {s : Log g} (hi : s.initialized = true) (now : Nat) : s.stampRow now = .ok (s.stamped now) := by
  have hok : ∃ t, s.stampRow now = .ok t := by
    unfold stampRow logData
    rw [init_of_initialized hi]
    split
    · exact ⟨_, rfl⟩
    · exact ⟨_, rfl⟩
  obtain ⟨t, ht⟩ := hok
  unfold stamped
  rw [ht]

/-- A value that is set is there. -/
theorem setValue_any {key value : ManagedString} (hv : value ≠ []) : ∀ {columns : List ColumnEntry},
    columns.any (·.key == key) = true → (setValue key value columns).any (·.value != []) = true := by
  intro columns
  induction columns with
  | nil => nofun
  | cons column rest ih =>
    intro h
    rw [List.any_cons, Bool.or_eq_true] at h
    unfold setValue
    split
    · rw [List.any_cons, Bool.or_eq_true]
      exact Or.inl (bne_iff_ne.mpr hv)
    · rename_i hne
      rw [List.any_cons, Bool.or_eq_true]
      exact Or.inr (ih (h.resolve_left fun heq => hne (beq_iff_eq.mp heq)))

/-- A row still has a value when a column was given one. -/
theorem setColumn_any (s : Log g) (key : ManagedString) {value : ManagedString} (hv : value ≠ []) :
    (s.setColumn key value).rowData.any (·.value != []) = true := by
  have hclean : cleaned value ≠ [] := by
    rw [← List.length_pos_iff, cleaned_length]
    exact List.length_pos_iff.mpr hv
  unfold setColumn
  dsimp only
  split
  · rename_i hkey
    exact setValue_any hclean hkey
  · rename_i hkey
    unfold addHeading
    rw [if_neg hkey]
    change (s.rowData ++ [_]).any _ = true
    rw [List.any_append, Bool.or_eq_true]
    exact Or.inr ((List.any_eq_true).mpr ⟨_, List.mem_singleton_self _, bne_iff_ne.mpr hclean⟩)

/-- Stamping a row leaves its values there. -/
theorem stamped_any {s : Log g} (hi : s.initialized = true) (hv : s.rowData.any (·.value != []) = true) (now : Nat) :
    (s.stamped now).rowData.any (·.value != []) = true := by
  have heq := stampRow_eq hi now
  unfold stampRow at heq
  split at heq
  · unfold logData at heq
    rw [init_of_initialized hi] at heq
    rw [← Except.ok.inj heq]
    exact setColumn_any _ _ (timeStamp_ne_nil _ _)
  · rw [← Except.ok.inj heq]
    exact hv

/-! ## The headings -/

/-- Storing headings leaves the log ready and as full as it was. -/
theorem Ready.storeHeadings {s : Log g} (h : s.Ready) (list : ManagedString) :
    (s.storeHeadings list).Ready ∧ (s.storeHeadings list).full = s.full ∧
      (s.storeHeadings list).dataEnd = s.dataEnd := by
  obtain ⟨c, start, es, heq, hn⟩ := storeHeadings_parts s list
  have hp := h.placed
  rw [heq]
  exact ⟨⟨⟨hp.startAddress, hp.journalStart, hp.dataStart, hp.logEnd, hp.le_dataEnd, hp.dataEnd_le, hp.head_dvd, hp.le_head,
    hp.head_lt, hn hp.nodup⟩, h.initialized, h.mutex⟩, rfl, rfl⟩

/-- Headings that the flash takes are stored, and it still takes the lines. -/
theorem storeHeadings_taken (hg : g.Fits) {s : Log g} (h : s.Placed) {list text : List UInt8}
    (hh : TakesHeadings s.toLogState list) (ht : TakesText s.toLogState text) :
    TakesText (s.storeHeadings list).toLogState text ∧
      slice (s.storeHeadings list).mem (s.storeHeadings list).headingStart list.length = list ∧
      (s.storeHeadings list).headingStart + list.length ≤ g.journalStart := by
  obtain ⟨⟨hstart, hfit⟩, hleg, hc⟩ := hh
  rw [h.startAddress] at hstart hc
  rw [h.journalStart] at hc
  have hds := g.dataStart_eq
  have hcoh : s.cache.Coherent fun x => g.logStart ≤ x ∧ x < g.journalStart := by
    rintro b q - ⟨i, rfl, hp⟩ k hk ⟨h1, h2⟩
    exact hc i q hp k hk h1 h2
  obtain ⟨ops₁, ops₂, hheaded, -⟩ := storeHeadings_headed hg h hstart hfit
  obtain ⟨-, m, hm, hcases⟩ := storeHeadings_put hg h hstart hfit hcoh fun x h1 h2 => ⟨h1, h2⟩
  unfold HeadingFits at hfit
  rw [h.journalStart] at hfit
  have hbehind : ∀ k, m (headingAt s.toLogState + s.headingLength + k) =
      s.mem (headingAt s.toLogState + s.headingLength + k) := by
    intro k
    rw [hm, put_of_le _ _ (by rw [List.length_replicate]; omega)]
  have hmem : (s.storeHeadings list).mem = put m (headingAt s.toLogState + s.headingLength) list := by
    refine hcases.resolve_right fun hno => hno.1 fun k hk => ?_
    rw [hbehind]
    exact hleg k hk
  refine ⟨ht.frame hg h.le_dataEnd ?_ (fun x hx => ?_) fun b q hq => ?_, ?_, ?_⟩
  · rw [hheaded.same]
  · rw [LogState.mem, hheaded.after.1]
    exact hheaded.within.replay_eq _ (Or.inr (by omega))
  · exact (hheaded.loaded b q hq).imp_right fun hb => by omega
  · rw [hmem, hheaded.headingStart]
    exact slice_put _ _ _
  · rw [hheaded.headingStart]
    exact hfit

/-! ## The end of a row -/

/-- What storing changed headings does to the members, whatever the cache holds. -/
theorem updateHeadings_members (hg : g.Fits) {s : Log g} (h : s.Ready) :
    ∃ t, s.updateHeadings = .ok t ∧ t.Ready ∧ t.rowData = s.rowData ∧
      (s.dataEnd + (cString s.headerLine).length ≤ g.logEnd ∧ t.dataEnd = s.dataEnd + (cString s.headerLine).length ∧
          t.full = s.full ∨
        g.logEnd < s.dataEnd + (cString s.headerLine).length ∧ t.dataEnd = s.dataEnd ∧ t.full = true) := by
  unfold updateHeadings headerLine
  by_cases hc : s.headingsChanged = true
  · obtain ⟨hready, hfull, hend⟩ := h.storeHeadings (csvLine s.keys)
    obtain ⟨code, t, ht, hready', hcases⟩ := logString_members hg hready (csvLine s.keys)
    have hstored := (storeHeadings_storeOnly s (csvLine s.keys)).1.trans (logString_records hready.initialized ht).1
    rw [hend, hfull] at hcases
    refine ⟨{ t with headingsChanged := false }, ?_, ⟨RamOnly.placed rfl hready'.placed, hready'.initialized, hready'.mutex⟩,
      by rw [hstored], ?_⟩
    · rw [if_pos hc]
      change ((s.storeHeadings (csvLine s.keys)).logString (csvLine s.keys) >>= _) = _
      rw [ht]
      rfl
    · rw [if_pos hc]
      exact hcases.imp (fun hr => hr.2) fun hr => hr.2
  · rw [if_neg hc, if_neg hc]
    exact ⟨s, rfl, h, rfl, Or.inl ⟨h.placed.dataEnd_le, rfl, rfl⟩⟩

/-- What logging the values does to the members. -/
theorem logRow_members (hg : g.Fits) {s : Log g} (h : s.Ready) (hv : s.rowData.any (·.value != []) = true) :
    ∃ code t, s.logString (csvLine s.values) = .ok (code, t) ∧ s.logRow = .ok t ∧
      (s.dataEnd + (cString (csvLine s.values)).length ≤ g.logEnd ∧
          t.dataEnd = s.dataEnd + (cString (csvLine s.values)).length ∧ t.full = s.full ∨
        g.logEnd < s.dataEnd + (cString (csvLine s.values)).length ∧ t.dataEnd = s.dataEnd ∧ t.full = true) := by
  obtain ⟨code, t, ht, -, hcases⟩ := logString_members hg h (csvLine s.values)
  refine ⟨code, t, ht, ?_, hcases.imp (fun hr => hr.2) fun hr => hr.2⟩
  have hall : ¬s.rowData.all (·.value == []) = true := by
    obtain ⟨c, hc, hne⟩ := List.any_eq_true.mp hv
    intro hall
    exact bne_iff_ne.mp hne (beq_iff_eq.mp (List.all_eq_true.mp hall c hc))
  unfold logRow
  rw [if_neg hall]
  change (s.logString (csvLine s.values) >>= _) = _
  rw [ht]
  rfl

/-- Changed headings that the flash takes are stored and logged. -/
theorem updateHeadings_taken (hg : g.Fits) {s t : Log g} (h : s.Ready) (ht : s.updateHeadings = .ok t)
    (hnul : (0 : UInt8) ∉ s.headerLine) {rest : List UInt8}
    (hroom : s.dataEnd + (cleaned s.headerLine false ++ rest).length ≤ g.logEnd)
    (htake : TakesText s.toLogState (cleaned s.headerLine false ++ rest))
    (hh : s.headingsChanged = true → TakesHeadings s.toLogState (csvLine s.keys)) :
    TakesText t.toLogState rest ∧ slice t.mem s.dataEnd s.headerLine.length = cleaned s.headerLine false ∧
      (s.headingsChanged = true → slice t.mem t.headingStart (csvLine s.keys).length = csvLine s.keys ∧
        t.headingStart + (csvLine s.keys).length ≤ g.journalStart) := by
  unfold updateHeadings at ht
  unfold headerLine at hnul hroom htake ⊢
  by_cases hc : s.headingsChanged = true
  · rw [if_pos hc] at ht hnul hroom htake ⊢
    obtain ⟨⟨code, u⟩, hu, ht⟩ := bind_eq_ok.mp ht
    obtain rfl := Except.ok.inj ht
    change (s.storeHeadings (csvLine s.keys)).logString (csvLine s.keys) = .ok (code, u) at hu
    obtain ⟨hready, -, hend⟩ := h.storeHeadings (csvLine s.keys)
    obtain ⟨htake₁, hstored, hin⟩ := storeHeadings_taken hg h.placed (hh hc) htake
    have hstr : cString (csvLine s.keys) = csvLine s.keys := cString_of_not_mem hnul
    obtain ⟨hrest, hslice, -⟩ := logString_taken hg hready (by rw [hend, hstr]; exact hroom) (by rw [hstr]; exact htake₁) hu
    obtain ⟨_, _, ops, hu', hlogged⟩ := logString_logged hg hready (csvLine s.keys)
    obtain ⟨rfl, rfl⟩ := Prod.mk.inj (Except.ok.inj (hu.symm.trans hu'))
    rw [hstr, hend] at hslice
    refine ⟨hrest, hslice, fun _ => ⟨?_, ?_⟩⟩
    · change slice u.mem u.headingStart _ = _
      rw [hlogged.headingStart, LogState.mem, hlogged.after.1]
      refine (slice_congr fun x _ hx => ?_).trans hstored
      exact hlogged.within.replay_eq _ (Or.inl (by omega))
    · change u.headingStart + _ ≤ _
      rw [hlogged.headingStart]
      exact hin
  · rw [if_neg hc] at ht htake ⊢
    obtain rfl := Except.ok.inj ht
    exact ⟨htake, rfl, fun h => absurd h hc⟩

/-- A row that is taken is appended. -/
theorem TakesRow.appended (hg : g.Fits) {s t u : Log g} (h : s.TakesRow) (hready : s.Ready) (hroom : s.HasRoom)
    (ht : s.updateHeadings = .ok t) (htr : t.Ready) (hrow : t.rowData = s.rowData)
    (htd : t.dataEnd = s.dataEnd + (cString s.headerLine).length) {code : ErrorCode}
    (hu : t.logString (csvLine t.values) = .ok (code, u))
    (hud : u.dataEnd = t.dataEnd + (cString (csvLine t.values)).length) : RowAppended s u := by
  obtain ⟨hnul₁, hnul₂⟩ := h.nul
  have hvalues : t.values = s.values := by rw [values, values, hrow]
  have hstr₁ := cString_of_not_mem hnul₁
  have hstr₂ := cString_of_not_mem hnul₂
  have hlen := s.rowText_length
  unfold HasRoom at hroom
  rw [hvalues] at hu hud
  rw [hready.placed.logEnd, hstr₁, hstr₂] at hroom
  rw [hstr₁] at htd
  rw [hstr₂] at hud
  obtain ⟨htake, hslice₁, hstored⟩ := updateHeadings_taken hg hready ht hnul₁ (by
    change s.dataEnd + s.rowText.length ≤ _
    omega) h.text h.headings
  have hclean : (cleaned (csvLine s.values) false).length = (csvLine s.values).length := cleaned_length _ _
  have htake' : TakesText t.toLogState (cleaned (cString (csvLine s.values)) false ++ []) := by
    rw [hstr₂, List.append_nil]
    exact htake
  obtain ⟨-, hslice₂, hbelow⟩ := logString_taken hg htr (by rw [hstr₂, List.append_nil]; omega) htake' hu
  obtain ⟨_, _, ops, hu', hlogged⟩ := logString_logged hg htr (csvLine s.values)
  obtain ⟨rfl, rfl⟩ := Prod.mk.inj (Except.ok.inj (hu.symm.trans hu'))
  rw [hstr₂, htd] at hslice₂
  refine ⟨by omega, ?_, fun hc => ?_⟩
  · have hfirst : slice u.mem s.dataEnd s.headerLine.length = cleaned s.headerLine false := by
      refine (slice_congr fun x h1 h2 => hbelow x ?_ (by omega)).trans hslice₁
      exact hready.placed.le_dataEnd.trans h1
    rw [hlen, slice_add, hfirst, hslice₂]
    rfl
  · obtain ⟨hkeys, hin⟩ := hstored hc
    rw [hlogged.headingStart, LogState.mem, hlogged.after.1]
    refine (slice_congr fun x _ hx => ?_).trans hkeys
    exact hlogged.within.replay_eq _ (Or.inl (by omega))

/-- The end of an open row with a value, in a log that is initialised. -/
theorem Ready.reportsRow (hg : g.Fits) {s : Log g} {now : Nat} (h : (s.stamped now).Ready) (hi : s.initialized = true)
    (hopen : s.rowStarted = true) (hv : s.rowData.any (·.value != []) = true)
    (htakes : (s.stamped now).HasRoom → (s.stamped now).TakesRow) : s.ReportsRow now := by
  have hstamp := stampRow_eq hi now
  have hv₁ := stamped_any hi hv now
  obtain ⟨s₁, hs₁⟩ : ∃ s₁, s₁ = s.stamped now := ⟨_, rfl⟩
  unfold ReportsRow
  rw [← hs₁] at h hstamp hv₁ htakes ⊢
  obtain ⟨s₂, h₂, hr₂, hrow₂, hcases₂⟩ := updateHeadings_members hg h
  have hvalues : s₂.values = s₁.values := by rw [values, values, hrow₂]
  obtain ⟨code, t, h₃, hlog, hcases₃⟩ := logRow_members hg hr₂ (by rw [hrow₂]; exact hv₁)
  have heq := endRow_eq hi hopen hstamp h₂ hlog
  have hlen := s₁.rowText_length
  have hle := cString_length_le s₁.headerLine
  have hle' := cString_length_le (csvLine s₁.values)
  have hpos := csvLine_length_pos s₁.values
  rw [hvalues] at hcases₃
  by_cases hroom : s₁.HasRoom
  · -- both lines have room: the flag stays as it was, and the lines are appended
    have htake := htakes hroom
    have hroom' := hroom
    unfold HasRoom at hroom'
    rw [h.placed.logEnd] at hroom'
    obtain ⟨-, hend₂, hfull₂⟩ := hcases₂.resolve_right fun hno => by omega
    obtain ⟨-, hend₃, hfull₃⟩ := hcases₃.resolve_right fun hno => by omega
    have hfull : t.full = false := hfull₃.trans (hfull₂.trans htake.full)
    have happ : RowAppended s₁ t := htake.appended hg h hroom h₂ hr₂ hrow₂ hend₂ h₃ (by rw [hvalues]; exact hend₃)
    rw [hfull] at heq
    exact ⟨_, _, heq, Or.inl rfl, fun _ => ⟨happ.dataEnd, happ.bytes, happ.headings⟩, fun _ => rfl⟩
  · -- one of the lines is refused: the flag is set, and the end of the data does not move past both
    unfold HasRoom at hroom
    rw [h.placed.logEnd] at hroom
    have hshort : t.full = true ∧ t.dataEnd < s₁.dataEnd + s₁.rowText.length := by
      rcases hcases₂ with ⟨hroom₂, hend₂, -⟩ | ⟨hno₂, hend₂, hfull₂⟩
      · rcases hcases₃ with ⟨hroom₃, -⟩ | ⟨-, hend₃, hfull₃⟩
        · omega
        · exact ⟨hfull₃, by omega⟩
      · rcases hcases₃ with ⟨-, hend₃, hfull₃⟩ | ⟨-, hend₃, hfull₃⟩
        · have := h.placed.dataEnd_le
          exact ⟨hfull₃.trans hfull₂, by omega⟩
        · exact ⟨hfull₃, by omega⟩
    rw [hshort.1, if_pos rfl] at heq
    refine ⟨_, _, heq, Or.inr rfl, fun hok => ?_, fun happ => ?_⟩
    · cases hok
    have hend : t.dataEnd = s₁.dataEnd + s₁.rowText.length := happ.dataEnd
    omega

/-- The result of `endRow`. In every run of calls and reboots from the start of the device in which the logs that are loaded
have the layout of `clear`, and texts are appended with the end of the data inside the data area: an open row with a value is
ended with a result that says whether its lines were appended and changed headings stored, if the log was not invalidated in
the meantime, the data ends inside the data area, and, where there is room for the lines, the log was not full before, the
lines have no NUL, and the flash takes them, and the headings if they changed. -/
theorem endRow_reports (hg : g.Fits) (flash : Flash g) (header : Nat → UInt8) (calls : List LogOp) (s : Log g)
    (hs : (new flash header).run calls = .ok s) (hc : ∀ e ∈ s.history, AsCleared e) (hopen : s.rowStarted = true)
    (hv : s.rowData.any (·.value != []) = true) (now : Nat) (ha : s.Answerable now) : s.ReportsRow now := by
  have hi := ha.initialized
  obtain ⟨hkeep, -, -⟩ := (keepsSteady_maintains hg).run (.new flash header) hs hc
  have hsteady := hkeep.ready hi
  obtain ⟨hin, hin'⟩ := ha.inside
  rw [hsteady.laidOut.dataStart] at hin
  rw [hsteady.laidOut.logEnd] at hin'
  have hstamp := stampRow_eq hi now
  have hr := stampRow_ramOnly hi hstamp
  have hopened : (s.stamped now).Open := (stampRow_leavesOpen ⟨run_mutex calls rfl hs, hi⟩ now).of_ok hstamp
  exact Ready.reportsRow hg ⟨hr.placed (hsteady.placed hin hin'), hopened.2, hopened.1⟩ hi hopen hv ha.takes

/-- The first row after a `clear`. -/
theorem endRow_reports_one :
    ∃ s, (new (blankFlash sixteenPages) fun _ => 0).run [.clear false, .logData (ascii ['k']) (ascii ['1'])] = .ok s ∧
      s.ReportsRow 0 := by
  have hrun : (match (new (blankFlash sixteenPages) fun _ => 0).run
        [.clear false, .logData (ascii ['k']) (ascii ['1'])] with
      | .ok s => decide ((∀ e ∈ s.history, AsCleared e) ∧ s.rowStarted = true ∧ s.rowData.any (·.value != []) = true ∧
          s.Answerable 0)
      | .error _ => false) = true := by
    decide +kernel
  cases hs : (new (blankFlash sixteenPages) fun _ => 0).run [.clear false, .logData (ascii ['k']) (ascii ['1'])] with
  | error e =>
    rw [hs] at hrun
    nomatch hrun
  | ok s =>
    simp only [hs, decide_eq_true_eq] at hrun
    obtain ⟨hc, hopen, hv, ha⟩ := hrun
    exact ⟨s, rfl, endRow_reports sixteenPages_fits (blankFlash sixteenPages) (fun _ => 0) _ s hs hc hopen hv 0 ha⟩

/-- After a text of 600 bytes, which is refused, a short row is appended, and its end reports that there was no room. -/
theorem endRow_appends_without_success :
    ∃ s, (new (blankFlash sixteenPages) fun _ => 0).run
        [.clear true, .logString (List.replicate 600 'a'.toUInt8), .logData (ascii ['k']) (ascii ['1'])] = .ok s ∧
      (∀ e ∈ s.history, AsCleared e) ∧ s.rowStarted = true ∧ s.rowData.any (·.value != []) = true ∧
      ¬s.ReportsRow 0 := by
  have hrun : (match (new (blankFlash sixteenPages) fun _ => 0).run
        [.clear true, .logString (List.replicate 600 'a'.toUInt8), .logData (ascii ['k']) (ascii ['1'])] with
      | .ok s => decide ((∀ e ∈ s.history, AsCleared e) ∧ s.rowStarted = true ∧ s.rowData.any (·.value != []) = true) &&
        match s.endRow 0 with
        | .ok (code, t) => decide (code = .DEVICE_NO_RESOURCES ∧ RowAppended (s.stamped 0) t)
        | .error _ => false
      | .error _ => false) = true := by
    decide +kernel
  cases hs : (new (blankFlash sixteenPages) fun _ => 0).run
      [.clear true, .logString (List.replicate 600 'a'.toUInt8), .logData (ascii ['k']) (ascii ['1'])] with
  | error e =>
    rw [hs] at hrun
    nomatch hrun
  | ok s =>
    simp only [hs, Bool.and_eq_true, decide_eq_true_eq] at hrun
    obtain ⟨⟨hc, hopen, hv⟩, hend⟩ := hrun
    refine ⟨s, rfl, hc, hopen, hv, fun ⟨code, t, ht, _, hiff⟩ => ?_⟩
    simp only [ht, decide_eq_true_eq] at hend
    obtain ⟨rfl, happ⟩ := hend
    exact absurd (hiff.mpr happ) nofun

end Log

end CodalMicrobit

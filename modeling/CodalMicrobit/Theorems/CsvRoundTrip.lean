import CodalMicrobit.Lemmas.TableRun

/-!
# The table in the log

The text that `endRow` appends is a table with a comma between two cells and a newline after each row. Splitting at the
separators what the flash holds of it gives back the values of the row, one for each column, under the header line that was
logged last, unless a list of headings was too long for its page and was written over the data.
-/

namespace CodalMicrobit

open Nor Outcome FSCache

namespace Log

variable {g : Geometry} {since : Nat}

/-! ## Rows -/

/-- A call that says something about the open row: `logData` with C strings, or `setTimeStamp`. -/
def RowCall : LogOp → Prop
  | .logData key value => (0 : UInt8) ∉ key ∧ (0 : UInt8) ∉ value
  | .setTimeStamp _ => True
  | _ => False

/-- The settings of the calls of a row: keys and values with the invalid symbols replaced. -/
def settingsOf : List LogOp → List (ManagedString × ManagedString)
  | [] => []
  | .logData key value :: calls => (sanitised key, sanitised value) :: settingsOf calls
  | _ :: calls => settingsOf calls

/-- The calls of whole rows: each row ends with an `endRow` at some time. -/
def callsOf (rows : List (List LogOp × Nat)) : List LogOp := rows.flatMap fun row => row.1 ++ [.endRow row.2]

/-- The calls of a row collect its settings. -/
theorem row_run (calls : List LogOp) : ∀ {s : Log g} {settings : List (ManagedString × ManagedString)}, s.Tabled since →
    s.RowIs settings → (∀ op ∈ calls, RowCall op) →
    ∃ t, s.run calls = .ok t ∧ t.Tabled since ∧ t.RowIs (settings ++ settingsOf calls) := by
  induction calls with
  | nil => exact fun {s settings} h hr _ => ⟨s, rfl, h, by rwa [settingsOf, List.append_nil]⟩
  | cons op calls ih =>
    intro s settings h hr hcalls
    have hrest : ∀ op ∈ calls, RowCall op := fun op' hop => hcalls op' (List.mem_cons_of_mem _ hop)
    have hop := hcalls op List.mem_cons_self
    cases op with
    | logData key value =>
      obtain ⟨t, ht, htab, hrow, -⟩ := logData_tabled h hop.1 hop.2 hr
      obtain ⟨u, hu, huab, hurow⟩ := ih htab hrow hrest
      refine ⟨u, bind_eq_ok.mpr ⟨t, ht, hu⟩, huab, ?_⟩
      rw [List.append_assoc, cleaned_eq, cleaned_eq] at hurow
      exact hurow
    | setTimeStamp format =>
      obtain ⟨htab, hrow, -⟩ := applyTimeStamp_tabled h format hr
      obtain ⟨u, hu, huab, hurow⟩ := ih htab hrow hrest
      refine ⟨u, bind_eq_ok.mpr ⟨_, ?_, hu⟩, huab, hurow⟩
      change (s.init >>= fun s => .ok (s.applyTimeStamp format)) = _
      rw [init_of_initialized h.initialized]
      rfl
    | isPresent | isFull | clear _ | invalidate | setSerialMirroring _ | beginRow _ | endRow _ | logString _ | reboot =>
      exact hop.elim

/-- Whole rows keep the table, and leave no row open. -/
theorem rows_run (hpos : 0 < g.getPageSize) (rows : List (List LogOp × Nat)) : ∀ {s : Log g}, s.Tabled since →
    s.rowStarted = false → (∀ row ∈ rows, ∀ op ∈ row.1, RowCall op) →
    ∃ t, s.run (callsOf rows) = .ok t ∧ t.Tabled since ∧ t.rowStarted = false := by
  induction rows with
  | nil => exact fun {s} h ho _ => ⟨s, rfl, h, ho⟩
  | cons row rows ih =>
    intro s h ho hrows
    obtain ⟨t, ht, htab, hrow⟩ := row_run row.1 h (Or.inl ⟨ho, rfl⟩) (hrows row List.mem_cons_self)
    have hend : ∃ code u, t.endRow row.2 = .ok (code, u) ∧ u.Tabled since ∧ u.rowStarted = false := by
      cases hopen : t.rowStarted with
      | false => exact ⟨_, t, endRow_closed hopen _, htab, hopen⟩
      | true =>
        obtain ⟨code, u, -, -, hu, huab, huo, -⟩ := endRow_tabled hpos htab hrow hopen row.2
        exact ⟨code, u, hu, huab, huo⟩
    obtain ⟨code, u, hu, huab, huo⟩ := hend
    obtain ⟨v, hv, hvab, hvo⟩ := ih huab huo fun r hr => hrows r (List.mem_cons_of_mem _ hr)
    refine ⟨v, ?_, hvab, hvo⟩
    change s.run ((row.1 ++ [.endRow row.2]) ++ callsOf rows) = _
    rw [List.append_assoc, run_append ht]
    refine bind_eq_ok.mpr ⟨u, ?_, hv⟩
    change (t.endRow row.2 >>= _) = _
    rw [hu]
    rfl

/-- What splitting gives for the line of the keys, which may not be there. -/
def Above (ks : List ManagedString) (above : List (List UInt8)) : Prop :=
  above = [] ∨ ∃ row, above = [row] ∧ row.splitOn ','.toUInt8 = ks

/-- Splitting behind the line of the keys. -/
theorem split_header {header : List UInt8} {ks : List ManagedString} (rest : List UInt8) (hk : ∀ f ∈ ks, IsCell f)
    (hh : header = [] ∨ header = csvLine ks ∧ ks ≠ []) :
    ∃ above, (header ++ rest).splitOn '\n'.toUInt8 = above ++ rest.splitOn '\n'.toUInt8 ∧ Above ks above := by
  rcases hh with rfl | ⟨rfl, hne⟩
  · exact ⟨[], rfl, Or.inl rfl⟩
  · obtain ⟨h1, h2⟩ := splitOn_csvLine hk hne rest
    exact ⟨[_], h1, Or.inr ⟨_, rfl, h2⟩⟩

/-- Splitting a line that ends the text. -/
theorem split_line {fields : List ManagedString} (hf : ∀ f ∈ fields, IsCell f) (hne : fields ≠ []) :
    ∃ line, (csvLine fields).splitOn '\n'.toUInt8 = [line, []] ∧ line.splitOn ','.toUInt8 = fields := by
  obtain ⟨h1, h2⟩ := splitOn_csvLine hf hne []
  rw [List.append_nil] at h1
  exact ⟨_, h1, h2⟩

/-! ## What the flash holds -/

/-- Every list of headings that was stored fits into the page of the metadata. -/
def HeadingsFit (events : List (LogEvent g)) : Prop :=
  ∀ before h, LogEvent.storing before h ∈ events → HeadingFits before h

instance (events : List (LogEvent g)) : Decidable (HeadingsFit events) :=
  decidable_of_iff (events.all fun
    | .storing before h => decide (HeadingFits before h)
    | _ => true) <| by
    rw [List.all_eq_true]
    refine ⟨fun h before text hm => of_decide_eq_true (h _ hm), fun h e he => ?_⟩
    cases e with
    | storing before text => exact decide_eq_true (h before text he)
    | _ => rfl

/-- There is room for what is recorded: for a text behind the data, for a list of headings in its page. -/
def Fitting : LogEvent g → Prop
  | .logging before text => Accepted before text
  | .storing before h => HeadingFits before h
  | _ => True

/-- With room for every text and every list of headings, every entry of the record fits. -/
theorem fitting_of {events : List (LogEvent g)} (hr : HadRoom events) (hf : HeadingsFit events) :
    ∀ e ∈ events, Fitting e := by
  intro e he
  cases e with
  | logging before text => exact hr before text he
  | storing before h => exact hf before h he
  | wrote | erased | loading => trivial

/-- There is room for a text if it ends in the log. -/
theorem Placed.accepted_iff {s : Log g} (h : s.Placed) {text : List UInt8} :
    Accepted { s.toLogState with mutex := true } text ↔ s.dataEnd + text.length ≤ g.logEnd := by
  have hle := h.dataEnd_le
  change text.length ≤ u32sub s.logEnd s.dataEnd ↔ _
  rw [h.room]
  omega

/-- No block of a page behind the one on which the data ends is cached. -/
def NothingAhead (s : Log g) : Prop :=
  ∀ page, g.getPageSize ∣ page → s.dataEnd < page → ∀ b q, s.cache.Loaded b q → b < page

/-- With nothing ahead of the end of the data, the pages to come are blank. -/
theorem NothingAhead.freshPages {s : Log g} (h : s.NothingAhead) (l : Nat) : FreshPages s.toLogState l :=
  fun page hd hlt _ _ b q hq hb => absurd (h page hd hlt b q hq) (Nat.not_lt.mpr hb)

/-- A text that is accepted caches only blocks that it meets, and blocks of the journal. -/
theorem NothingAhead.logString (hg : g.Fits) {s t : Log g} (hn : s.NothingAhead) (h : s.Ready) {str : List UInt8}
    {code : ErrorCode} (hl : s.dataEnd + (cString str).length ≤ g.logEnd) (ht : s.logString str = .ok (code, t)) :
    t.NothingAhead := by
  have hp := (entered_ramOnly s (cString str)).placed h.placed
  have hle := h.placed.le_dataEnd
  obtain ⟨serial, ops, s₁, -, ha, hcases⟩ := accept_cases hg hp hl
  have hend : s₁.dataEnd = s.dataEnd + (cString str).length := ha.dataEnd
  have hn₁ : s₁.NothingAhead := by
    intro page hd hlt b q hq
    rcases ha.loaded b q hq with hq | ht
    · exact hn page hd (by omega) b q hq
    · have hb : b < s.dataEnd + (cString str).length := ht.2.1
      omega
  rcases hcases with ⟨-, heq⟩ | ⟨-, heq⟩
  · obtain ⟨-, rfl⟩ := Prod.mk.inj (Except.ok.inj (ht.symm.trans (logString_accepted h hl heq)))
    exact hn₁
  · obtain ⟨-, rfl⟩ := Prod.mk.inj (Except.ok.inj (ht.symm.trans (logString_accepted h hl heq)))
    obtain ⟨ops', hj⟩ := writeJournal_journaled hg ha.placed
    intro page hd hlt b q hq
    have hlt' : s₁.writeJournal.dataEnd < page := hlt
    rw [hj.journalOnly.dataEnd] at hlt'
    rcases hj.loaded b q hq with hq | ⟨-, -, hb⟩
    · exact hn₁ page hd hlt' b q hq
    · omega

/-- The flash holds exactly the texts that were appended after the first `since` entries of the record. -/
structure HoldsSince (since : Nat) (s : Log g) : Prop where
  since_le : since ≤ s.history.length
  onePlace : s.OnePlace
  stored : s.Stored (appendedBy (s.history.drop since))
  ahead : s.NothingAhead

/-- A text that is accepted is added to what the log holds. -/
theorem HoldsSince.logString (hg : g.Fits) {s t : Log g} (h : HoldsSince since s) {str : List UInt8} {code : ErrorCode}
    (ht : s.logString str = .ok (code, t)) (hc : Accepted { s.toLogState with mutex := true } (cString str)) :
    HoldsSince since t := by
  have hready := h.onePlace.ready
  have hl : s.dataEnd + (cString str).length ≤ g.logEnd := hready.placed.accepted_iff.mp hc
  obtain ⟨-, before, es, rfl, hh, hq, -⟩ := logString_records hready.initialized ht
  obtain ⟨_, _, ht', -, hcases⟩ := logString_members hg hready str
  obtain ⟨rfl, rfl⟩ := Prod.mk.inj (Except.ok.inj (ht.symm.trans ht'))
  have hok : code = .DEVICE_OK := by
    rcases hcases with ⟨hok, -⟩ | ⟨-, hno, -⟩
    · exact hok
    · omega
  have hst := logString_stored hg hready h.stored (fun _ => h.ahead.freshPages _) ht
  rw [if_pos hok] at hst
  have hby : appendedBy (LogEvent.logging { s.toLogState with mutex := true } (cString str) :: es) =
      cleaned (cString str) false := (appendedBy_cons_quiet _ hq).trans (appendedBy_accepted hc)
  refine ⟨?_, (h.onePlace.logString hg ht).1, ?_, h.ahead.logString hg hready hl ht⟩
  · rw [hh, List.length_append]
    exact Nat.le_add_right_of_le h.since_le
  · rw [hh, List.drop_append_of_le_length h.since_le, appendedBy_append, hby]
    exact hst

/-- A list of headings that fits leaves the text in the data area alone. -/
theorem HoldsSince.storeHeadings (hg : g.Fits) {s : Log g} (h : HoldsSince since s) {list : ManagedString}
    (hc : HeadingFits s.toLogState list) : HoldsSince since (s.storeHeadings list) := by
  obtain ⟨hone, ⟨ops, hh⟩, -⟩ := h.onePlace.storeHeadings hg rfl hc
  obtain ⟨es, hes, -, hq⟩ := storeHeadings_adds s list
  have hhist : (s.storeHeadings list).history = s.history ++ .storing s.toLogState list :: es := by
    rw [hes]
    exact List.append_assoc _ [_] _
  have hby : appendedBy (LogEvent.storing s.toLogState list :: es) = [] := appendedBy_cons_quiet _ hq
  refine ⟨?_, hone, ?_, fun page hd hlt b q hq => ?_⟩
  · rw [hhist, List.length_append]
    exact Nat.le_add_right_of_le h.since_le
  · rw [hhist, List.drop_append_of_le_length h.since_le, appendedBy_append, hby, List.append_nil]
    exact hh.stored hg h.onePlace.le_headingAt h.stored
  · have hend : (s.storeHeadings list).dataEnd = s.dataEnd := by rw [hh.same]
    rw [hend] at hlt
    rcases hh.loaded b q hq with hq | ⟨-, -, hb⟩
    · exact h.ahead page hd hlt b q hq
    · have hds := g.dataStart_eq
      have hle := h.onePlace.ready.placed.le_dataEnd
      omega

/-- Every step keeps the text that the log holds. -/
theorem holdsSince_kept (hg : g.Fits) (since : Nat) : Kept (g := g) Fitting (HoldsSince since) := by
  refine ⟨fun h hr hm hh => ⟨hh ▸ h.since_le, h.onePlace.ramOnly hr hm, ?_, ?_⟩, fun h _ _ hc => h.storeHeadings hg hc,
    fun h ht hc => h.logString hg ht hc⟩
  · rw [hh]
    exact hr.stored h.stored
  · intro page hd hlt b q hq
    rw [hr.dataEnd] at hlt
    rw [hr.cache] at hq
    exact h.ahead page hd hlt b q hq

/-- A fresh log holds nothing since its `clear`. -/
theorem Fresh.holdsSince (hg : g.Fits) {s : Log g} (h : s.Fresh) (hm : s.mutex = false) :
    HoldsSince s.history.length s := by
  refine ⟨Nat.le_refl _, h.onePlace hm, ?_, fun page hd hlt b q hq => ?_⟩
  · rw [List.drop_length]
    exact h.stored hg
  · have := h.loaded b q hq
    rw [h.dataEnd] at hlt
    omega

/-- The header that was logged last stands in the text. -/
theorem LastHeader.text {events : List (LogEvent g)} {fields : List ManagedString}
    (hl : LastHeader events (csvLine fields)) (hf : ∀ f ∈ fields, IsCell f) (hr : HadRoom events) :
    ∃ before after, appendedBy events = before ++ csvLine fields ++ after := by
  obtain ⟨pre, mid, post, before, before', rfl, -, -⟩ := hl
  have hacc : Accepted before' (csvLine fields) :=
    hr _ _ (List.mem_append_right _ (List.mem_cons_of_mem _ (List.mem_append_right _ List.mem_cons_self)))
  have hline : appendedBy [LogEvent.logging before' (csvLine fields)] = csvLine fields :=
    (appendedBy_accepted hacc).trans (cleaned_csvLine hf)
  refine ⟨appendedBy (pre ++ .storing before (csvLine fields) :: mid), appendedBy post, ?_⟩
  rw [← hline, ← appendedBy_append, ← appendedBy_append, hline]
  congr 1
  simp only [List.append_assoc, List.cons_append, List.nil_append]

/-- The flash after the end of a row: what it held before, and the text that was appended. -/
theorem dataText_appended {s t : Log g} (hs : HoldsSince since s) (ht : HoldsSince since t)
    {es : List (LogEvent g)} (hh : t.history = s.history ++ es) :
    dataText t.toLogState = dataText s.toLogState ++ appended s t := by
  rw [dataText_of_stored ht.onePlace.ready.placed ht.stored, dataText_of_stored hs.onePlace.ready.placed hs.stored,
    appended_of_history hh, hh, List.drop_append_of_le_length hs.since_le, appendedBy_append]

/-- After a `clear`, whole rows and the calls of one more, the flash holds what was appended, and so it does after its
`endRow`, if there was room for all that was recorded. -/
theorem rows_hold (hg : g.Fits) {s : Log g} (hfresh : s.Fresh) (hm : s.mutex = false) (htab : s.Tabled s.history.length)
    (ho : s.rowStarted = false) {rows : List (List LogOp × Nat)} {calls : List LogOp} {now : Nat}
    (hrows : ∀ row ∈ rows, ∀ op ∈ row.1, RowCall op) (hcalls : ∀ op ∈ calls, RowCall op) {u t : Log g}
    {code : ErrorCode} (hu : s.run (callsOf rows ++ calls) = .ok u) (ht : u.endRow now = .ok (code, t))
    (hr : HadRoom (t.history.drop s.history.length)) (hf : HeadingsFit (t.history.drop s.history.length)) :
    HoldsSince s.history.length u ∧ HoldsSince s.history.length t := by
  have htext : ∀ op, RowCall op → TextCall op := by
    intro op h
    cases op with
    | logData key value => exact h
    | setTimeStamp format => trivial
    | _ => exact h.elim
  have hall : ∀ op ∈ callsOf rows ++ calls, TextCall op := by
    intro op hop
    rcases List.mem_append.mp hop with hop | hop
    · obtain ⟨row, hrow, hop⟩ := List.mem_flatMap.mp hop
      rcases List.mem_append.mp hop with hop | hop
      · exact htext op (hrows row hrow op hop)
      · exact List.mem_singleton.mp hop ▸ trivial
    · exact htext op (hcalls op hop)
  have k := holdsSince_kept hg s.history.length
  obtain ⟨u', hu', hin, es, hes, -, hkeep⟩ := k.run_moves hg.pos _ ⟨htab, [], Or.inl ⟨ho, rfl⟩⟩ hall
  obtain rfl : u = u' := Except.ok.inj (hu.symm.trans hu')
  obtain ⟨code', t', ht', -, -, es', hes', -, hkeep'⟩ := k.endRow_moves hg.pos hin now
  obtain ⟨-, rfl⟩ := Prod.mk.inj (Except.ok.inj (ht.symm.trans ht'))
  have hc := fitting_of hr hf
  rw [hes', hes, List.append_assoc, List.drop_left] at hc
  have hhu := hkeep (hfresh.holdsSince hg hm) fun e he => hc e (List.mem_append_left _ he)
  exact ⟨hhu, hkeep' hhu fun e he => hc e (List.mem_append_right _ he)⟩

/-! ## A list that is too long -/

/-- The first list of headings after a `clear`, written across the journal and the data. -/
theorem Fresh.storeHeadings (hg : g.Fits) {s : Log g} (h : s.Fresh) (hm : s.mutex = false) {list : ManagedString}
    (hend : g.logStart + metaDataSize + list.length ≤ g.logEnd)
    (hleg : ∀ k (hk : k < list.length), Legal (s.mem (g.logStart + metaDataSize + k)) list[k]) :
    (s.storeHeadings list).Ready ∧ ((s.storeHeadings list).cache.Coherent fun _ => True) ∧
      (s.storeHeadings list).mem = put s.mem (g.logStart + metaDataSize) list ∧
      (s.storeHeadings list).dataEnd = g.dataStart := by
  have hord := hg.order
  have hlogEnd := hg.logEnd_add
  have hat : headingAt s.toLogState = g.logStart + metaDataSize := by
    unfold headingAt
    rw [if_pos h.headingStart, h.placed.startAddress]
  have hlen := h.headingLength
  obtain ⟨hcoh, m, hm₁, hcases⟩ := storeHeadings_write hg h.placed (t := list)
    (hg.block_dvd_of_page hg.page_dvd_logEnd) (by omega) (by omega) (by omega) h.coherent fun _ _ _ => trivial
  rw [hlen] at hm₁
  obtain rfl : m = s.mem := hm₁.trans (put_nil _ _)
  rw [hat, hlen, Nat.add_zero] at hcases
  have hnodup : (s.storeHeadings list).cache.Nodup := by
    unfold Log.storeHeadings
    dsimp only
    split <;> exact FSCache.write_nodup _ (FSCache.write_nodup _ h.placed.nodup _ _) _ _
  have hsame : s.storeHeadings list = { s with
      cache := (s.storeHeadings list).cache, headingStart := (s.storeHeadings list).headingStart
      history := (s.storeHeadings list).history } := by
    unfold Log.storeHeadings
    dsimp only
    split <;> rfl
  have hp := h.placed
  refine ⟨⟨?_, ?_, ?_⟩, hcoh, hcases.resolve_right fun hno => hno.1 hleg, ?_⟩
  · rw [hsame] at hnodup ⊢
    exact ⟨hp.startAddress, hp.journalStart, hp.dataStart, hp.logEnd, hp.le_dataEnd, hp.dataEnd_le, hp.head_dvd,
      hp.le_head, hp.head_lt, hnodup⟩
  · rw [hsame]
    exact h.initialized
  · exact (storeHeadings_mutex s list).trans hm
  · rw [hsame]
    exact h.dataEnd

/-- A chunk that the flash cannot take is lost: the page keeps what it held. -/
theorem writeData_refused (hg : g.Fits) {s t : Log g} (hp : s.Placed)
    (hc : s.cache.Coherent fun x => g.dataStart ≤ x) {data : List UInt8} {fuel : Nat} (hf : data.length ≤ fuel)
    (hl : s.dataEnd + data.length ≤ g.logEnd) (hfull : g.pageEnd s.dataEnd ≤ s.dataEnd + data.length)
    (hno : ∃ k, ∃ hk : k < data.length, k < s.spaceOnPage ∧ ¬Legal (s.mem (s.dataEnd + k)) data[k])
    (ht : s.writeData data fuel = .ok t) :
    ∀ x, g.dataStart ≤ x → x < g.pageEnd s.dataEnd → t.mem x = s.mem x := by
  have hord := hg.order
  have hle := hp.le_dataEnd
  obtain ⟨hsp, hsp0⟩ := spaceOnPage_eq hg s
  have hne : data ≠ [] := by
    rintro rfl
    obtain ⟨k, hk, -⟩ := hno
    exact absurd hk (Nat.not_lt_zero k)
  have hpos := List.length_pos_iff.mpr hne
  have hmin : min data.length s.spaceOnPage = s.spaceOnPage := by omega
  have hchunk : (data.take s.spaceOnPage).length = s.spaceOnPage := by
    rw [List.length_take]
    omega
  obtain ⟨fuel, rfl⟩ : ∃ m, fuel = m + 1 := ⟨fuel - 1, by omega⟩
  obtain ⟨ops₁, hafter, -, hend, hentries, hwithin, -, -⟩ := eraseNextPage_spec hg hp data.length
  obtain ⟨s₁, hs₁⟩ : ∃ s₁, s₁ = s.eraseNextPage data.length := ⟨_, rfl⟩
  rw [← hs₁] at hafter hend hentries
  have hmem₁ : ∀ x, x < g.pageEnd s.dataEnd → s₁.mem x = s.mem x := by
    intro x hx
    rw [LogState.mem, hafter.1]
    exact hwithin.replay_eq _ (Or.inl hx)
  -- the next page may have been erased, but the cache still agrees with this one
  have hc₁ : s₁.cache.Coherent fun x => g.dataStart ≤ x ∧ x < g.pageEnd s.dataEnd :=
    Agrees.frame (hc.mono fun x hx => hx.1) (fun x hx => hmem₁ x hx.2)
      fun b q _ hq => Or.inl ((loaded_congr hentries).mp hq)
  obtain ⟨c, hw, hfetched⟩ := write_refused (by decide) (by decide) hg.block_dvd_flashEnd s₁.cache
    (a := s.dataEnd) (t := data.take s.spaceOnPage) (hp.nodup.congr hentries) hc₁ (by omega)
    (fun x h1 h2 => ⟨by omega, by omega⟩) (fun hall => by
      obtain ⟨k, hk, hks, hill⟩ := hno
      have hleg := hall k (by omega)
      rw [List.getElem_take] at hleg
      exact hill (hmem₁ (s.dataEnd + k) (by omega) ▸ hleg))
  obtain ⟨_, hturn⟩ := writeTurn_appended hg hp hne hl
  have hturnEnd := hturn.dataEnd
  have hcache : (s.writeTurn data).cache = c := by
    simp only [writeTurn, hmin, ← hs₁, hend, hw]
    rfl
  have hdrop : (data.drop s.spaceOnPage).length = data.length - s.spaceOnPage := List.length_drop
  obtain ⟨ops₂, t', ht', hrest⟩ := writeData_appended hg fuel (s.writeTurn data) (data.drop s.spaceOnPage) hturn.placed
    (by omega) (by omega)
  have heq : s.writeData data (fuel + 1) = (s.writeTurn data).writeData (data.drop s.spaceOnPage) fuel := by
    rw [writeData, if_neg hne, hmin]
  obtain rfl : t = t' := Except.ok.inj (ht.symm.trans (heq.trans ht'))
  intro x h1 h2
  have h4 : (4 : Nat) ∣ g.pageEnd s.dataEnd :=
    (by decide : 4 ∣ 256).trans (hg.block_dvd_of_page (g.page_dvd_pageEnd s.dataEnd))
  have hfrom : wordStart (s.writeTurn data).dataEnd = g.pageEnd s.dataEnd := by
    unfold wordStart
    omega
  rw [LogState.mem, hrest.after.1, hrest.ahead.replay_eq _ (Or.inl (by omega)), hcache, hfetched.flash_eq]
  exact hmem₁ x h2

/-- What the data area holds after an accepted text is what the loop of `logString` left there. -/
theorem logString_written (hg : g.Fits) {s t : Log g} (h : s.Ready) {str : List UInt8} {code : ErrorCode}
    (hl : s.dataEnd + (cString str).length ≤ g.logEnd) (ht : s.logString str = .ok (code, t)) :
    ∃ serial ops s₁, ({ s.entered (cString str) with serial } : Log g).writeData (cleaned (cString str) false)
        (cString str).length = .ok s₁ ∧ Appended { s.entered (cString str) with serial } s₁ (cString str).length ops ∧
      ∀ x, g.dataStart ≤ x → t.mem x = s₁.mem x := by
  have hp := (entered_ramOnly s (cString str)).placed h.placed
  obtain ⟨serial, ops, s₁, hw, ha, hcases⟩ := accept_cases hg hp hl
  refine ⟨serial, ops, s₁, hw, ha, fun x hx => ?_⟩
  rcases hcases with ⟨-, heq⟩ | ⟨-, heq⟩
  · obtain ⟨-, rfl⟩ := Prod.mk.inj (Except.ok.inj (ht.symm.trans (logString_accepted h hl heq)))
    rfl
  · obtain ⟨-, rfl⟩ := Prod.mk.inj (Except.ok.inj (ht.symm.trans (logString_accepted h hl heq)))
    obtain ⟨ops', hj⟩ := writeJournal_journaled hg ha.placed
    change s₁.writeJournal.cache.flash.mem x = _
    rw [hj.after.1]
    exact hj.within.replay_eq _ (Or.inr hx)

/-- A text that fills its page, and of which the flash cannot take the first chunk, leaves the page as it was. -/
theorem logString_spoiled (hg : g.Fits) {s t : Log g} (h : s.Ready) (hc : s.cache.Coherent fun x => g.dataStart ≤ x)
    {str : List UInt8} {code : ErrorCode} (hl : s.dataEnd + (cString str).length ≤ g.logEnd)
    (hfull : g.pageEnd s.dataEnd ≤ s.dataEnd + (cString str).length)
    (hno : ∃ k, ∃ hk : k < (cleaned (cString str) false).length, k < s.spaceOnPage ∧
      ¬Legal (s.mem (s.dataEnd + k)) (cleaned (cString str) false)[k])
    (ht : s.logString str = .ok (code, t)) :
    ∀ x, g.dataStart ≤ x → x < g.pageEnd s.dataEnd → t.mem x = s.mem x := by
  have hr : ∀ serial, RamOnly s { s.entered (cString str) with serial } := fun _ => rfl
  obtain ⟨serial, ops, s₁, hw, -, hmem⟩ := logString_written hg h hl ht
  intro x h1 h2
  rw [hmem x h1]
  exact writeData_refused hg ((hr serial).placed h.placed) hc (Nat.le_of_eq (cleaned_length _ _))
    (by rw [cleaned_length]; exact hl) (by rw [cleaned_length]; exact hfull) hno hw x h1 h2

/-- An accepted text leaves the words of the data area before it as they were. -/
theorem logString_behind (hg : g.Fits) {s t : Log g} (h : s.Ready) {str : List UInt8} {code : ErrorCode}
    (hl : s.dataEnd + (cString str).length ≤ g.logEnd) (ht : s.logString str = .ok (code, t)) :
    ∀ x, g.dataStart ≤ x → x < wordStart s.dataEnd → t.mem x = s.mem x := by
  obtain ⟨serial, ops, s₁, -, ha, hmem⟩ := logString_written hg h hl ht
  intro x h1 h2
  rw [hmem x h1, LogState.mem, ha.after.1]
  exact ha.ahead.replay_eq _ (Or.inl h2)

/-- The text is at most one line with the keys, and one line of values. -/
def ReadsBack (text : List UInt8) (ks values : List ManagedString) : Prop :=
  ∃ above line, text.splitOn '\n'.toUInt8 = above ++ [line, []] ∧ line.splitOn ','.toUInt8 = values ∧ Above ks above

/-- A key that fills the rest of the page of the metadata and the journal, but for its last symbol. -/
def longKey : ManagedString := List.replicate 1240 '0'.toUInt8 ++ ['1'.toUInt8]

/-- The long heading has 1241 symbols. -/
theorem longKey_length : longKey.length = 1241 := by
  rw [longKey, List.length_append, List.length_replicate]
  rfl

/-- The list with the long heading ends with a newline. -/
theorem longLine_length : (longKey ++ ['\n'.toUInt8]).length = 1242 := by
  rw [List.length_append, longKey_length]
  rfl

/-- All symbols of the long heading but the last are zeros. -/
theorem longKey_getElem? {k : Nat} (hk : k < 1240) : (longKey ++ ['\n'.toUInt8])[k]? = some '0'.toUInt8 := by
  rw [List.getElem?_append_left (by rw [longKey_length]; omega), longKey,
    List.getElem?_append_left (by rw [List.length_replicate]; exact hk), List.getElem?_replicate, if_pos hk]

/-- The long heading is a cell, so cleaning leaves it alone. -/
theorem isCell_longKey : IsCell longKey := by
  have hmem : ∀ b, b ≠ '0'.toUInt8 → b ≠ '1'.toUInt8 → b ∉ longKey := by
    intro b h0 h1 hb
    rcases List.mem_append.mp hb with hb | hb
    · exact h0 (List.eq_of_mem_replicate hb)
    · exact h1 (List.mem_singleton.mp hb)
  refine ⟨fun i hi => ?_, hmem _ (by decide) (by decide), hmem _ (by decide) (by decide), hmem _ (by decide) (by decide),
    hmem _ (by decide) (by decide)⟩
  exact hmem '-'.toUInt8 (by decide) (by decide) (List.mem_of_getElem? hi.1)

/-- A log with the long key as its only column, in a row that sets its value. -/
def withLongKey (s : Log nineteenPages) : Log nineteenPages :=
  { s with rowData := [⟨longKey, ['1'.toUInt8]⟩], rowStarted := true, headingsChanged := true }

/-- The calls of the row end here. -/
theorem run_longKey {s : Log nineteenPages} (hi : s.initialized = true) (hr : s.rowData = []) :
    s.run [.logData longKey ['1'.toUInt8]] = .ok s.withLongKey := by
  have hrow : s.startRow.rowData = [] := by
    change s.rowData.map _ = []
    rw [hr]
    rfl
  have hset : (if s.rowStarted then s else s.startRow).setColumn longKey ['1'.toUInt8] = s.withLongKey := by
    have hset : ∀ r : Log nineteenPages, r.rowData = [] → r.setColumn longKey ['1'.toUInt8] =
        { r with rowData := [⟨longKey, ['1'.toUInt8]⟩], headingsChanged := true } := by
      intro r hr
      have hv : cleaned ['1'.toUInt8] = ['1'.toUInt8] := by decide
      unfold setColumn addHeading
      simp only [isCell_longKey.cleaned, hv, hr, List.any_nil]
      rfl
    split
    · rename_i ho
      rw [hset s hr, withLongKey, ← ho]
    · rw [hset _ hrow]
      rfl
  change (s.logData longKey ['1'.toUInt8] >>= fun s => .ok s) = _
  unfold logData
  rw [init_of_initialized hi]
  change Except.ok _ = _
  rw [hset]

/-- The bytes that the list with the long key goes to are erased, or symbols '0' of the first journal entry. -/
theorem legal_longKey {s : Log nineteenPages} (h : s.Fresh) (k : Nat) (hk : k < (longKey ++ ['\n'.toUInt8]).length) :
    Legal (s.mem (nineteenPages.logStart + metaDataSize + k)) (longKey ++ ['\n'.toUInt8])[k] := by
  have hstart : nineteenPages.logStart = 2048 := by decide
  have hjournal : nineteenPages.journalStart = 2304 := by decide
  have hdata : nineteenPages.dataStart = 3328 := by decide
  have h40 : metaDataSize = 40 := rfl
  have h256 : nineteenPages.getPageSize = 256 := rfl
  have hk' : k < 1242 := Nat.lt_of_lt_of_eq hk longLine_length
  by_cases hentry : 2304 ≤ 2048 + 40 + k ∧ 2048 + 40 + k < 2312
  · have hbyte : s.mem (nineteenPages.logStart + metaDataSize + k) = '0'.toUInt8 := by
      have hget : (slice s.mem nineteenPages.journalStart 8)[k - 216]? = some '0'.toUInt8 := by
        rw [h.entry, List.getElem?_replicate, if_pos (by omega)]
      obtain ⟨hi, hb⟩ := List.getElem?_eq_some_iff.mp hget
      rw [slice_getElem, hjournal] at hb
      have haddr : nineteenPages.logStart + metaDataSize + k = 2304 + (k - 216) := by omega
      exact (congrArg s.mem haddr).trans hb
    obtain ⟨_, hnew⟩ := List.getElem?_eq_some_iff.mp (longKey_getElem? (k := k) (by omega))
    rw [hbyte, hnew]
    decide
  · have hbyte : s.mem (nineteenPages.logStart + metaDataSize + k) = blank := by
      rcases Nat.lt_or_ge (2048 + 40 + k) 2304 with h1 | h1
      · exact h.headings _ (by omega) (by omega)
      · rcases Nat.lt_or_ge (2048 + 40 + k) 3328 with h2 | h2
        · exact h.journal _ (by omega) (by omega)
        · exact h.data _ (by omega) (by omega)
    rw [hbyte]
    exact legal_blank _

/-- A line of one cell. -/
theorem csvLine_singleton (f : ManagedString) : csvLine [f] = f ++ ['\n'.toUInt8] := by
  rw [csvLine_eq, List.intercalate_singleton]

theorem HadRoom.append {es es' : List (LogEvent g)} (h : HadRoom es) (h' : HadRoom es') : HadRoom (es ++ es') :=
  fun before text hm => (List.mem_append.mp hm).elim (h before text) (h' before text)

/-- A list of headings needs no room in the data area. -/
theorem hadRoom_storing (before : LogState g) (h : ManagedString) {es : List (LogEvent g)} (hq : ∀ e ∈ es, Quiet e) :
    HadRoom (.storing before h :: es) := by
  intro before' text hm
  rcases List.mem_cons.mp hm with hm | hm
  · nomatch hm
  · exact (hq _ hm).elim

/-- A text that is accepted had room. -/
theorem hadRoom_logging {before : LogState g} {text : List UInt8} {es : List (LogEvent g)} (ha : Accepted before text)
    (hq : ∀ e ∈ es, Quiet e) : HadRoom (.logging before text :: es) := by
  intro before' text' hm
  rcases List.mem_cons.mp hm with hm | hm
  · obtain ⟨rfl, rfl⟩ := LogEvent.logging.inj hm
    exact ha
  · exact (hq _ hm).elim

/-- The list with the long key is stored across the journal, and its last two bytes are the first two of the data. -/
theorem storeHeadings_longKey {s : Log nineteenPages} (h : s.Fresh) (hm : s.mutex = false) {text : List UInt8}
    (hline : text = longKey ++ ['\n'.toUInt8]) :
    (s.storeHeadings text).Ready ∧ ((s.storeHeadings text).cache.Coherent fun _ => True) ∧
      (s.storeHeadings text).dataEnd = 3328 ∧ (s.storeHeadings text).mem 3328 = '1'.toUInt8 ∧
      (s.storeHeadings text).mem 3329 = '\n'.toUInt8 := by
  have hstart : nineteenPages.logStart = 2048 := by decide
  have hlogEnd : nineteenPages.logEnd = 4604 := by decide
  have h40 : metaDataSize = 40 := rfl
  have hlen : text.length = 1242 := (congrArg List.length hline).trans longLine_length
  have hroom : nineteenPages.logStart + metaDataSize + text.length ≤ nineteenPages.logEnd := by omega
  obtain ⟨hready, hcoh, hmem, hend⟩ := h.storeHeadings nineteenPages_fits hm hroom (hline ▸ legal_longKey h)
  have hbyte : ∀ k b, text[k]? = some b → (s.storeHeadings text).mem (2088 + k) = b := by
    intro k b hk
    obtain ⟨hlt, hb⟩ := List.getElem?_eq_some_iff.mp hk
    rw [hmem, hstart, h40]
    exact (put_add _ _ _ _ hlt).trans hb
  refine ⟨hready, hcoh, hend.trans (by decide), hbyte 1240 _ ?_, hbyte 1241 _ ?_⟩
  · rw [hline, List.getElem?_append_left (by rw [longKey_length]; omega), longKey,
      List.getElem?_append_right (by rw [List.length_replicate]), List.length_replicate]
    rfl
  · rw [hline, List.getElem?_append_right (by rw [longKey_length]), longKey_length]
    rfl

/-- The line of the keys has a '0' where the flash has the newline of the list, so its first chunk is refused. -/
theorem updateHeadings_longKey {s : Log nineteenPages} (h : s.Fresh) (hm : s.mutex = false) :
    ∃ t es, s.withLongKey.updateHeadings = .ok t ∧ t.Ready ∧ t.rowData = [⟨longKey, ['1'.toUInt8]⟩] ∧
      t.history = s.history ++ es ∧ HadRoom es ∧ t.dataEnd = 4570 ∧ t.mem 3328 = '1'.toUInt8 ∧
      t.mem 3329 = '\n'.toUInt8 := by
  have hg := nineteenPages_fits
  have hdata : nineteenPages.dataStart = 3328 := by decide
  have hlogEnd : nineteenPages.logEnd = 4604 := by decide
  have hpage : nineteenPages.pageEnd 3328 = 3584 := by decide
  obtain ⟨text, hline⟩ : ∃ text, text = longKey ++ ['\n'.toUInt8] := ⟨_, rfl⟩
  have hcsv : csvLine [longKey] = text := (csvLine_singleton longKey).trans hline.symm
  have hcell : ∀ f ∈ [longKey], IsCell f := fun f hf => List.mem_singleton.mp hf ▸ isCell_longKey
  have hcstr : cString text = text := hcsv ▸ cString_csvLine hcell
  have hclean : cleaned text false = text := hcsv ▸ cleaned_csvLine hcell
  have hlen : text.length = 1242 := (congrArg List.length hline).trans longLine_length
  obtain ⟨hready, hcoh, hend, hone, hnewline⟩ := storeHeadings_longKey (s := s.withLongKey) (RamOnly.fresh rfl h) hm hline
  obtain ⟨hst, -⟩ := storeHeadings_storeOnly s.withLongKey text
  obtain ⟨es₁, hes₁, -, hq₁⟩ := storeHeadings_adds s.withLongKey text
  obtain ⟨s₁, hs₁⟩ : ∃ s₁, s₁ = s.withLongKey.storeHeadings text := ⟨_, rfl⟩
  rw [← hs₁] at hready hcoh hend hone hnewline hst hes₁
  obtain ⟨code, t, ht, hready', hcases⟩ := logString_members hg hready text
  obtain ⟨hso, _, es₂, rfl, hes₂, hq₂, -⟩ := logString_records hready.initialized ht
  rw [hcstr] at hes₂ hcases
  have hroom : s₁.dataEnd + (cString text).length ≤ nineteenPages.logEnd := by
    rw [hcstr]
    omega
  have hend' : t.dataEnd = 4570 := by
    rcases hcases with ⟨-, -, he, -⟩ | ⟨-, hno, -⟩
    · omega
    · omega
  have hspoiled : ∀ x, 3328 ≤ x → x < 3584 → t.mem x = s₁.mem x := by
    intro x h1 h2
    refine logString_spoiled hg hready (hcoh.mono fun _ _ => trivial) hroom ?_ ?_ ht x (by omega) ?_
    · rw [hend, hpage, hcstr]
      omega
    · rw [hcstr, hclean]
      refine ⟨1, by omega, ?_, fun hleg => ?_⟩
      · have := (spaceOnPage_eq hg s₁).1
        rw [hend, hpage] at this
        omega
      · have h0 : text[1]? = some '0'.toUInt8 := by
          rw [hline]
          exact longKey_getElem? (by decide)
        obtain ⟨_, h0⟩ := List.getElem?_eq_some_iff.mp h0
        rw [hend, h0, hnewline] at hleg
        exact absurd hleg (by decide)
    · rw [hend, hpage]
      exact h2
  have hacc : Accepted { s₁.toLogState with mutex := true } text := hready.placed.accepted_iff.mpr (hcstr ▸ hroom)
  have htready : ({ t with headingsChanged := false } : Log nineteenPages).Ready :=
    ⟨RamOnly.placed rfl hready'.placed, hready'.initialized, hready'.mutex⟩
  refine ⟨{ t with headingsChanged := false }, (.storing s.withLongKey.toLogState text :: es₁) ++
    .logging { s₁.toLogState with mutex := true } text :: es₂, ?_, htready, ?_, ?_, ?_, hend',
    (hspoiled 3328 (by decide) (by decide)).trans hone, (hspoiled 3329 (by decide) (by decide)).trans hnewline⟩
  · unfold updateHeadings
    refine (if_pos (show s.withLongKey.headingsChanged = true from rfl)).trans ?_
    change ((s.withLongKey.storeHeadings (csvLine [longKey])).logString (csvLine [longKey]) >>= _) = _
    rw [hcsv, ← hs₁, ht]
    rfl
  · change t.rowData = _
    rw [hso, hst]
    rfl
  · change t.history = _
    rw [hes₂, hes₁, ← List.append_assoc]
    exact congrArg (· ++ _) (List.append_assoc s.history [_] es₁)
  · exact (hadRoom_storing _ _ hq₁).append (hadRoom_logging hacc hq₂)

/-- The line of the values goes behind the line of the keys, as if it had been written. -/
theorem endRow_longKey {s : Log nineteenPages} (h : s.Fresh) (hm : s.mutex = false) (hts : s.timeStampFormat = .None) :
    ∃ code t es, s.withLongKey.endRow 0 = .ok (code, t) ∧ t.keys = [longKey] ∧ t.history = s.history ++ es ∧ HadRoom es ∧
      ∃ rest, dataText t.toLogState = '1'.toUInt8 :: '\n'.toUInt8 :: rest ∧ rest ≠ [] := by
  have hg := nineteenPages_fits
  have hdata : nineteenPages.dataStart = 3328 := by decide
  have hlogEnd : nineteenPages.logEnd = 4604 := by decide
  obtain ⟨s₁, es₁, hupdate, hready₁, hrow₁, hes₁, hroom₁, hend₁, hone, hnewline⟩ := updateHeadings_longKey h hm
  obtain ⟨code, t, ht, hready, hcases⟩ := logString_members hg hready₁ ['1'.toUInt8, '\n'.toUInt8]
  obtain ⟨hso, _, es₂, rfl, hes₂, hq₂, -⟩ := logString_records hready₁.initialized ht
  have hcstr : cString ['1'.toUInt8, '\n'.toUInt8] = ['1'.toUInt8, '\n'.toUInt8] := by decide
  rw [hcstr] at hes₂ hcases
  rw [hend₁] at hcases
  have hend : t.dataEnd = 4572 := by
    rcases hcases with ⟨-, -, he, -⟩ | ⟨-, hno, -⟩
    · exact he
    · rw [hlogEnd] at hno
      exact absurd hno (by decide)
  have hbehind : ∀ x, 3328 ≤ x → x < 4568 → t.mem x = s₁.mem x := by
    have hws : wordStart s₁.dataEnd = 4568 := by
      rw [hend₁]
      rfl
    intro x h1 h2
    exact logString_behind hg hready₁ (by rw [hcstr, hend₁, hlogEnd]; decide) ht x (by omega) (by omega)
  have hlog : s₁.logRow = .ok t := by
    unfold logRow
    rw [hrow₁, if_neg (by decide)]
    change (s₁.logString ['1'.toUInt8, '\n'.toUInt8] >>= _) = _
    rw [ht]
    rfl
  have hstamp : s.withLongKey.stampRow 0 = .ok s.withLongKey := if_neg fun hc => hc.2 hts
  have hrow := endRow_eq (s := s.withLongKey) h.initialized rfl hstamp hupdate hlog
  have hacc : Accepted { s₁.toLogState with mutex := true } ['1'.toUInt8, '\n'.toUInt8] := by
    refine hready₁.placed.accepted_iff.mpr ?_
    rw [hend₁, hlogEnd]
    decide
  refine ⟨_, _, es₁ ++ _, hrow, ?_, ?_, hroom₁.append (hadRoom_logging hacc hq₂),
    slice t.mem (3328 + 2) 1242, ?_, ?_⟩
  · change t.rowData.map (·.key) = _
    rw [hso, hrow₁]
    rfl
  · change t.history = _
    rw [hes₂, hes₁, List.append_assoc]
  · change slice t.mem t.dataStart (t.dataEnd - t.dataStart) = _
    rw [hready.placed.dataStart, hdata, hend]
    have htwo : slice t.mem 3328 2 = [t.mem 3328, t.mem 3329] := rfl
    refine (slice_add t.mem 3328 2 1242).trans ?_
    rw [htwo, hbehind 3328 (by decide) (by decide), hbehind 3329 (by decide) (by decide), hone, hnewline,
      List.cons_append, List.cons_append, List.nil_append]
  · intro hnil
    have hlen := congrArg List.length hnil
    rw [slice_length] at hlen
    exact absurd hlen (by decide)

/-- Such a text is no line of the keys and one line of values. -/
theorem not_readsBack {rest : List UInt8} {ks values : List ManagedString} (hrest : rest ≠ [])
    (hks : ks ≠ [['1'.toUInt8]]) : ¬ReadsBack ('1'.toUInt8 :: '\n'.toUInt8 :: rest) ks values := by
  rintro ⟨above, text, hsplit, -, habove⟩
  have hcell : ∀ f ∈ [['1'.toUInt8]], IsCell f := by
    intro f hf
    obtain rfl := List.mem_singleton.mp hf
    exact ⟨fun i hi => absurd (List.mem_of_getElem? hi.1) (by decide), by decide, by decide, by decide, by decide⟩
  obtain ⟨h1, h2⟩ := splitOn_csvLine hcell (List.cons_ne_nil _ _) rest
  rw [csvLine_singleton, List.intercalate_singleton] at h1
  rw [List.intercalate_singleton] at h2
  have hlines : ['1'.toUInt8] :: rest.splitOn '\n'.toUInt8 = above ++ [text, []] := h1.symm.trans hsplit
  rcases habove with rfl | ⟨row, rfl, hrow⟩
  · have hempty := (List.cons.inj hlines).2
    have hjoin : ['\n'.toUInt8].intercalate (rest.splitOn '\n'.toUInt8) = rest := List.intercalate_splitOn _
    rw [hempty, List.intercalate_singleton] at hjoin
    exact hrest hjoin.symm
  · have hfirst := (List.cons.inj hlines).1
    rw [← hfirst, h2] at hrow
    exact hks hrow.symm

/-- The table in the log. After a `clear` and any rows, the calls of one more row and its `endRow` return, and the keys of
the columns are distinct. As long as there was room, and every list of headings that was stored fits into its page, this
`endRow` adds a text to the ones in the data area of the flash. Splitting it gives, if a value of the row is not empty, one
text whose cells are the last values set for each column, in the order of the columns, after the text of the keys where
that was logged again; otherwise it gives no text of values. The text of the keys that was logged last has the same
columns, and stands in the data area. -/
theorem csv_round_trip (hg : g.Fits) (s₀ : Log g) (hm : s₀.mutex = false) (fullErase : Bool)
    (rows : List (List LogOp × Nat)) (calls : List LogOp) (now : Nat) (hrows : ∀ row ∈ rows, ∀ op ∈ row.1, RowCall op)
    (hcalls : ∀ op ∈ calls, RowCall op) :
    ∃ s u code t, s₀.clear fullErase = .ok s ∧ s.run (callsOf rows ++ calls) = .ok u ∧ u.endRow now = .ok (code, t) ∧
      t.keys.Nodup ∧ (HadRoom (t.history.drop s.history.length) → HeadingsFit (t.history.drop s.history.length) →
        ∃ text, dataText t.toLogState = dataText u.toLogState ++ text ∧
          ((∃ key, cell (settingsOf calls) key ≠ []) →
            ReadsBack text t.keys (t.keys.map (cell (settingsOf calls ++ u.stampOf now))) ∧
            ∃ header row before after, LastHeader (t.history.drop s.history.length) header ∧
              dataText t.toLogState = before ++ header ++ after ∧ header.splitOn '\n'.toUInt8 = [row, []] ∧
              row.splitOn ','.toUInt8 = t.keys) ∧
          ((∀ key, cell (settingsOf calls) key = []) → ∃ above,
            text.splitOn '\n'.toUInt8 = above ++ [[]] ∧ Above t.keys above)) := by
  obtain ⟨s, hs, hfresh, hmu, -⟩ := clear_fresh hg hm fullErase
  obtain ⟨s', hs', hst, hso⟩ := clear_tabled hm fullErase
  obtain rfl : s = s' := Except.ok.inj (hs.symm.trans hs')
  obtain ⟨r, hr, hrt, hro⟩ := rows_run hg.pos rows hst hso hrows
  obtain ⟨u, hu, hut, hrow⟩ := row_run calls hrt (Or.inl ⟨hro, rfl⟩) hcalls
  rw [List.nil_append] at hrow
  have hrun : s.run (callsOf rows ++ calls) = .ok u := (run_append hr).trans hu
  cases hopen : u.rowStarted with
  | false =>
    have hnone : settingsOf calls = [] := by
      rcases hrow with ⟨-, h0⟩ | ⟨h1, -⟩
      · exact h0
      · rw [hopen] at h1
        nomatch h1
    refine ⟨s, u, _, u, hs, hrun, endRow_closed hopen now, hut.nodup, fun _ _ => ⟨[], (List.append_nil _).symm, ?_,
      fun _ => ⟨[], rfl, Or.inl rfl⟩⟩⟩
    rintro ⟨key, hkey⟩
    exact absurd (hnone ▸ rfl) hkey
  | true =>
    obtain ⟨code, t, es', header, ht, htab, -, hlast, hh, hval, hnone⟩ := endRow_tabled hg.pos hut hrow hopen now
    have hkeys := htab.isCell_keys
    refine ⟨s, u, code, t, hs, hrun, ht, htab.nodup, fun hroom hfit => ?_⟩
    obtain ⟨hhu, hht⟩ := rows_hold hg hfresh hmu hst hso hrows hcalls hrun ht hroom hfit
    have hroom' : t.history = u.history ++ es' → HadRoom es' := by
      intro heq before text hm
      refine hroom before text ?_
      rw [heq, hut.drop_append]
      exact List.mem_append_right _ hm
    by_cases hv : ∃ key, cell (settingsOf calls) key ≠ []
    · obtain ⟨hne, hvals, hl⟩ := hval hv
      have htext := (appended_of_history hl.history).trans (hl.appended (hroom' hl.history)).1
      have hlast := hlast.resolve_left hne
      obtain ⟨before, after, hheader⟩ := hlast.text hkeys hroom
      obtain ⟨above, hsplit, habove⟩ := split_header (csvLine t.values) hkeys hh
      have hnv : t.values ≠ [] := by
        rw [hvals]
        exact fun hnil => hne (List.map_eq_nil_iff.mp hnil)
      obtain ⟨text, h1, h2⟩ := split_line htab.isCell_values hnv
      obtain ⟨row, h3, h4⟩ := split_line hkeys hne
      refine ⟨_, dataText_appended hhu hht hl.history, fun _ => ⟨⟨above, text, ?_, hvals ▸ h2, habove⟩, _, row, before,
        after, hlast, ?_, h3, h4⟩, fun hall => absurd hv fun ⟨key, hkey⟩ => hkey (hall key)⟩
      · rw [htext, hsplit, h1]
      · rw [dataText_of_stored hht.onePlace.ready.placed hht.stored, hheader]
    · have hall : ∀ key, cell (settingsOf calls) key = [] := fun key => by_contra fun hk => hv ⟨key, hk⟩
      have hl := hnone hall
      have htext := (appended_of_history hl.history).trans (hl.appended (hroom' hl.history)).1
      obtain ⟨above, hsplit, habove⟩ := split_header [] hkeys hh
      refine ⟨_, dataText_appended hhu hht hl.history, fun hv' => absurd hv' hv, fun _ => ⟨above, ?_, habove⟩⟩
      rw [htext, ← List.append_nil header, hsplit]
      rfl

/-- The calls of two rows: the second one sets a column again, sets a new one to a text with symbols that are replaced,
and leaves the first column empty. -/
def firstRow : List LogOp :=
  [.logData (ascii ['a']) (ascii ['1', ',', '2']), .logData (ascii ['b']) (ascii ['3'])]

def secondRow : List LogOp :=
  [.logData (ascii ['b']) (ascii ['4']), .logData (ascii ['c']) (ascii ['-', '-', '>', '5']),
    .logData (ascii ['b']) (ascii ['6'])]

/-- `csv_round_trip` for the two rows on an erased storage. -/
theorem csv_round_trip_two_rows :
    ∃ s u code t text header row before after, (new (blankFlash sixteenPages) fun _ => 0).clear = .ok s ∧
      s.run (callsOf [(firstRow, 0)] ++ secondRow) = .ok u ∧ u.endRow 0 = .ok (code, t) ∧ t.keys.Nodup ∧
      dataText t.toLogState = dataText u.toLogState ++ text ∧
      ReadsBack text t.keys (t.keys.map (cell ([(ascii ['b'], ascii ['4']), (ascii ['c'], ascii ['_', '_', '_', '5']),
        (ascii ['b'], ascii ['6'])] ++ u.stampOf 0))) ∧
      dataText t.toLogState = before ++ header ++ after ∧ header.splitOn '\n'.toUInt8 = [row, []] ∧
      row.splitOn ','.toUInt8 = t.keys := by
  have hfirst : ∀ op ∈ firstRow, RowCall op := by
    intro op hop
    simp only [firstRow, List.mem_cons, List.not_mem_nil, or_false] at hop
    rcases hop with rfl | rfl <;> exact ⟨by decide, by decide⟩
  have hsecond : ∀ op ∈ secondRow, RowCall op := by
    intro op hop
    simp only [secondRow, List.mem_cons, List.not_mem_nil, or_false] at hop
    rcases hop with rfl | rfl | rfl <;> exact ⟨by decide, by decide⟩
  obtain ⟨s, u, code, t, hs, hu, ht, hn, himp⟩ := csv_round_trip sixteenPages_fits
    (new (blankFlash sixteenPages) fun _ => 0) rfl false [(firstRow, 0)] secondRow 0
    (fun row hrow op hop => hfirst op (by rwa [List.mem_singleton.mp hrow] at hop)) hsecond
  have hroom : (match (new (blankFlash sixteenPages) fun _ => 0).clear with
      | .ok s =>
        match s.run (callsOf [(firstRow, 0)] ++ secondRow) with
        | .ok u =>
          match u.endRow 0 with
          | .ok (_, t) => decide (HadRoom (t.history.drop s.history.length) ∧ HeadingsFit (t.history.drop s.history.length))
          | .error _ => false
        | .error _ => false
      | .error _ => false) = true := by
    decide +kernel
  simp only [hs, hu, ht, decide_eq_true_eq] at hroom
  obtain ⟨text, htext, hval, -⟩ := himp hroom.1 hroom.2
  obtain ⟨hreads, header, row, before, after, -, h1, h2, h3⟩ := hval ⟨ascii ['c'], by decide⟩
  exact ⟨s, u, code, t, text, header, row, before, after, hs, hu, ht, hn, htext, hreads, h1, h2, h3⟩

/-- A key of 1241 symbols: the list of headings runs over the journal into the data, so that the line of the keys is
refused there, and the text that `endRow` appended does not read back, though there was room for it. -/
theorem long_key_spoils_table :
    ∃ s u code t, (new (blankFlash nineteenPages) fun _ => 0).clear = .ok s ∧
      s.run (callsOf [] ++ [.logData longKey ['1'.toUInt8]]) = .ok u ∧ u.endRow 0 = .ok (code, t) ∧
      HadRoom (t.history.drop s.history.length) ∧
      ¬∃ text, dataText t.toLogState = dataText u.toLogState ++ text ∧
        ReadsBack text t.keys (t.keys.map (cell (settingsOf [.logData longKey ['1'.toUInt8]] ++ u.stampOf 0))) := by
  obtain ⟨s, hs, hfresh, hm, -⟩ := clear_fresh nineteenPages_fits (s := new (blankFlash nineteenPages) fun _ => 0) rfl false
  have hstate : s.rowData = [] ∧ s.timeStampFormat = .None := by
    cases hs
    exact ⟨rfl, rfl⟩
  obtain ⟨code, t, es, ht, hkeys, hes, hroom, rest, htext, hrest⟩ := endRow_longKey hfresh hm hstate.2
  refine ⟨s, s.withLongKey, code, t, hs, run_longKey hfresh.initialized hstate.1, ht, ?_, ?_⟩
  · rw [hes, List.drop_left]
    exact hroom
  · rintro ⟨text, heq, hreads⟩
    have hbefore : dataText s.withLongKey.toLogState = [] := by
      change slice s.mem s.dataStart (s.dataEnd - s.dataStart) = []
      rw [hfresh.placed.dataStart, hfresh.dataEnd, Nat.sub_self]
      rfl
    rw [htext, hbefore, List.nil_append] at heq
    rw [← heq] at hreads
    refine not_readsBack hrest ?_ hreads
    rw [hkeys]
    intro h
    have hlen := congrArg List.length (List.cons.inj h).1
    rw [longKey_length] at hlen
    exact absurd hlen (by decide)

end Log

end CodalMicrobit

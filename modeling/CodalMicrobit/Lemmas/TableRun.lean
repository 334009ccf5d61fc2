import CodalMicrobit.Lemmas.EndRow
import CodalMicrobit.Lemmas.Headings

/-!
# Runs of rows and texts

Between a `clear` and a reboot a log collects rows, ends them and appends texts. What any of these calls does to the flash
it does by storing a list of headings or by logging a text, each of which it records first. So a property is kept by a
whole run if it is kept by these two, on a condition on what is recorded, and by changes of the table.
-/

namespace CodalMicrobit

open Nor Outcome FSCache

namespace Log

variable {g : Geometry} {since : Nat}

/-- The text in the data area. -/
def dataText (s : LogState g) : List UInt8 := slice s.mem s.dataStart (s.dataEnd - s.dataStart)

/-- The data in flash is the text stored. -/
theorem dataText_of_stored {s : Log g} (hp : s.Placed) {text : List UInt8} (h : s.Stored text) :
    dataText s.toLogState = text := by
  unfold dataText
  rw [hp.dataStart, h.dataEnd, Nat.add_sub_cancel_left]
  exact h.holds.bytes

/-- A call that collects or ends a row, or appends a text. Keys and values are C strings. -/
def TextCall : LogOp → Prop
  | .logData key value => (0 : UInt8) ∉ key ∧ (0 : UInt8) ∉ value
  | .beginRow _ | .endRow _ | .setTimeStamp _ | .logString _ => True
  | _ => False

/-- The table with its open row. -/
def InTable (s : Log g) (since : Nat) : Prop := s.Tabled since ∧ ∃ settings, s.RowIs settings

/-- `I` is kept by what calls do to the flash, where `C` holds of what they record, and by changes of the table. -/
structure Kept (C : LogEvent g → Prop) (I : Log g → Prop) : Prop where
  ramOnly : ∀ {s t : Log g}, I s → RamOnly s t → t.mutex = false → t.history = s.history → I t
  storeHeadings : ∀ {s : Log g} {fields : List ManagedString}, I s → (∀ f ∈ fields, IsCell f) → fields ≠ [] →
    C (.storing s.toLogState (csvLine fields)) → I (s.storeHeadings (csvLine fields))
  logString : ∀ {s t : Log g} {str : List UInt8} {code : ErrorCode}, I s → s.logString str = .ok (code, t) →
    C (.logging { s.toLogState with mutex := true } (cString str)) → I t

/-- `t` is reached from `s`: no column is lost, and headings are stored only where there are some; and `I` is kept if `C`
holds of everything that was recorded on the way. -/
def Moves (C : LogEvent g → Prop) (I : Log g → Prop) (s t : Log g) : Prop :=
  ∃ es, t.history = s.history ++ es ∧ (t.rowData = [] → s.rowData = [] ∧ NoHeadings es) ∧
    (I s → (∀ e ∈ es, C e) → I t)

variable {C : LogEvent g → Prop} {I : Log g → Prop}

theorem Moves.refl (s : Log g) : Moves C I s s :=
  ⟨[], (List.append_nil _).symm, fun h => ⟨h, fun _ _ => List.not_mem_nil⟩, fun h _ => h⟩

theorem Moves.trans {s t u : Log g} (h : Moves C I s t) (h' : Moves C I t u) : Moves C I s u := by
  obtain ⟨es, he, hr, hi⟩ := h
  obtain ⟨es', he', hr', hi'⟩ := h'
  refine ⟨es ++ es', by rw [he', he, List.append_assoc], fun hu => ?_,
    fun hs hc => hi' (hi hs fun e hm => ?_) fun e hm => ?_⟩
  · obtain ⟨ht, hn'⟩ := hr' hu
    obtain ⟨hs, hn⟩ := hr ht
    refine ⟨hs, fun b text hm => ?_⟩
    rcases List.mem_append.mp hm with hm | hm
    · exact hn b text hm
    · exact hn' b text hm
  · exact hc e (List.mem_append_left _ hm)
  · exact hc e (List.mem_append_right _ hm)

/-- A change in RAM only, with the row as it was or longer, is a step. -/
theorem Kept.moves (k : Kept C I) {s t : Log g} (hr : RamOnly s t) (hm : t.mutex = false)
    (hh : t.history = s.history) (hrow : t.rowData = [] → s.rowData = []) : Moves C I s t :=
  ⟨[], by rw [hh, List.append_nil], fun ht => ⟨hrow ht, fun _ _ => List.not_mem_nil⟩, fun hs _ => k.ramOnly hs hr hm hh⟩

/-! ## Changes of the table -/

/-- On an initialized log `logData` changes RAM only. -/
theorem logData_ramOnly {s t : Log g} (hi : s.initialized = true) {key value : ManagedString}
    (h : s.logData key value = .ok t) : RamOnly s t := by
  obtain ⟨s₁, h₁, h⟩ := bind_eq_ok.mp h
  obtain rfl : s = s₁ := Except.ok.inj ((init_of_initialized hi).symm.trans h₁)
  obtain rfl := Except.ok.inj h
  split
  · exact setColumn_ramOnly _ _ _
  · exact RamOnly.trans (rfl : RamOnly s s.startRow) (setColumn_ramOnly _ _ _)

/-- On an initialized log the time stamp changes RAM only. -/
theorem stampRow_ramOnly {s t : Log g} (hi : s.initialized = true) {now : Nat} (h : s.stampRow now = .ok t) :
    RamOnly s t := by
  unfold stampRow at h
  split at h
  · exact logData_ramOnly hi h
  · exact Except.ok.inj h ▸ .refl s

/-- Once a value was set there is a column. -/
theorem RowIs.rowData_ne_nil {s : Log g} {settings : List (ManagedString × ManagedString)} {kv : ManagedString × ManagedString}
    (h : s.RowIs (settings ++ [kv])) : s.rowData ≠ [] := by
  intro hnil
  rcases h with ⟨-, h⟩ | ⟨-, -, h⟩
  · exact List.append_ne_nil_of_right_ne_nil _ (List.cons_ne_nil _ _) h
  · have hin := h kv (List.mem_append_right _ (List.mem_singleton_self _))
    rw [hnil] at hin
    nomatch hin

/-- A column for the time never empties the row. -/
theorem applyTimeStamp_rowData {s : Log g} {format : TimeStampFormat} (h : (s.applyTimeStamp format).rowData = []) :
    s.rowData = [] := by
  unfold applyTimeStamp addHeading at h
  dsimp only at h
  split at h
  · exact h
  · split at h
    · exact h
    · exfalso
      split at h
      · exact List.cons_ne_nil _ _ h
      · exact List.append_ne_nil_of_right_ne_nil _ (List.cons_ne_nil _ _) h

/-- Stamping the row never empties it. -/
theorem stampRow_rowData {s t : Log g} (h : s.Tabled since) {settings : List (ManagedString × ManagedString)}
    (hr : s.RowIs settings) {now : Nat} (ht : s.stampRow now = .ok t) (hnil : t.rowData = []) : s.rowData = [] := by
  unfold stampRow at ht
  split at ht
  · rename_i hc
    obtain ⟨t', ht', -, hrt, -⟩ := logData_tabled h (h.stamp hc.2) (nul_not_mem_timeStamp _ now) hr
    obtain rfl := Except.ok.inj (ht.symm.trans ht')
    exact absurd hnil hrt.rowData_ne_nil
  · exact Except.ok.inj ht ▸ hnil

/-! ## Texts and headings -/

/-- Logging a text leaves the table as it is. -/
theorem logString_tabled (hpos : 0 < g.getPageSize) {s : Log g} (h : s.Tabled since) (str : List UInt8) :
    ∃ code t, s.logString str = .ok (code, t) ∧ t.Tabled since ∧ StoreOnly s t := by
  obtain ⟨code, t, ht, hm⟩ := logString_returns hpos h.initialized h.mutex str
  obtain ⟨hst, before, es, rfl, hh, hq, -⟩ := logString_records h.initialized ht
  refine ⟨code, t, ht, h.storeOnly hst hm hh fun hc => ?_, hst⟩
  have hc' : s.headingsChanged = t.headingsChanged := by rw [hst]
  have hrow : t.rowData = s.rowData := by rw [hst]
  rw [hrow, hh, h.drop_append]
  refine (h.header (hc'.trans hc)).imp id fun hl => hl.append fun b text hm => ?_
  rcases List.mem_cons.mp hm with hm | hm
  · nomatch hm
  · exact hq _ hm

/-- Storing text leaves the row alone. -/
theorem StoreOnly.rowIs {s t : Log g} (h : StoreOnly s t) {settings : List (ManagedString × ManagedString)}
    (hr : s.RowIs settings) : t.RowIs settings := by
  rw [h]
  exact hr

/-- `logString` is a step. -/
theorem Kept.logString_moves (k : Kept C I) {s t : Log g} (hi : s.initialized = true) {str : List UInt8}
    {code : ErrorCode} (ht : s.logString str = .ok (code, t)) : Moves C I s t := by
  obtain ⟨hst, before, es, rfl, hh, hq, -⟩ := logString_records hi ht
  have hrow : t.rowData = s.rowData := by rw [hst]
  refine ⟨_, hh, fun hnil => ⟨hrow.symm.trans hnil, fun b text hm => ?_⟩,
    fun hs hc => k.logString hs ht (hc _ List.mem_cons_self)⟩
  rcases List.mem_cons.mp hm with hm | hm
  · nomatch hm
  · exact hq _ hm

/-- Storing new columns is a step. -/
theorem Kept.updateHeadings_moves (k : Kept C I) {s t : Log g} (h : s.Tabled since) (hm : t.mutex = false)
    (ht : s.updateHeadings = .ok t) : Moves C I s t := by
  unfold updateHeadings at ht
  by_cases hc : s.headingsChanged = true
  · rw [if_pos hc] at ht
    obtain ⟨⟨code, r⟩, hr, ht⟩ := bind_eq_ok.mp ht
    obtain rfl := Except.ok.inj ht
    obtain ⟨s₁, hs₁⟩ : ∃ s₁, s₁ = s.storeHeadings (csvLine s.keys) := ⟨_, rfl⟩
    obtain ⟨es₁, hes₁, -⟩ := storeHeadings_adds s (csvLine s.keys)
    have hst := (storeHeadings_storeOnly s (csvLine s.keys)).1
    change (s.storeHeadings (csvLine s.keys)).logString (csvLine s.keys) = _ at hr
    rw [← hs₁] at hr hes₁ hst
    have hrow : s₁.rowData = s.rowData := by rw [hst]
    have hne : s.keys ≠ [] := fun hnil => h.columns hc (List.map_eq_nil_iff.mp hnil)
    have hstored : Moves C I s s₁ := by
      refine ⟨.storing s.toLogState (csvLine s.keys) :: es₁, ?_, fun hnil => ?_, fun hs hce => ?_⟩
      · rw [hes₁]
        exact List.append_assoc _ [_] _
      · exact absurd (hrow.symm.trans hnil) (h.columns hc)
      · rw [hs₁]
        exact k.storeHeadings hs h.isCell_keys hne (hce _ List.mem_cons_self)
    have hlogged := k.logString_moves (hst.initialized.trans h.initialized) hr
    exact hstored.trans (hlogged.trans (k.moves rfl hm rfl id))
  · rw [if_neg hc] at ht
    exact Except.ok.inj ht ▸ .refl s

/-- Writing the row is a step. -/
theorem Kept.logRow_moves (k : Kept C I) {s t : Log g} (h : s.Tabled since) (ht : s.logRow = .ok t) : Moves C I s t := by
  unfold logRow at ht
  split at ht
  · exact Except.ok.inj ht ▸ .refl s
  · obtain ⟨⟨code, r⟩, hr, ht⟩ := bind_eq_ok.mp ht
    obtain rfl := Except.ok.inj ht
    exact k.logString_moves h.initialized hr

/-! ## Calls -/

/-- `endRow` ends the row in the table and is a step. -/
theorem Kept.endRow_moves (k : Kept C I) (hpos : 0 < g.getPageSize) {s : Log g} (h : s.InTable since) (now : Nat) :
    ∃ code t, s.endRow now = .ok (code, t) ∧ t.InTable since ∧ t.rowStarted = false ∧ Moves C I s t := by
  obtain ⟨htab, settings, hrow⟩ := h
  cases hopen : s.rowStarted with
  | false => exact ⟨_, s, endRow_closed hopen now, ⟨htab, settings, hrow⟩, hopen, .refl s⟩
  | true =>
    obtain ⟨s₁, stamp, h₁, ht₁, -, -, hl₁, -, -⟩ := stampRow_tabled htab hrow hopen now
    have hrow₁ : s₁.rowData = [] → s.rowData = [] := stampRow_rowData htab hrow h₁
    obtain ⟨s₂, es₂, h₂, ht₂, -, -, -, -⟩ := updateHeadings_tabled hpos ht₁
    obtain ⟨s₃, es₃, h₃, -, hm₃, -, -⟩ := logRow_tabled hpos ht₂
    obtain ⟨code, t, es, header, ht, ht', ho, -⟩ := endRow_tabled hpos htab hrow hopen now
    have heq := endRow_eq htab.initialized hopen h₁ h₂ h₃
    obtain ⟨-, rfl⟩ := Prod.mk.inj (Except.ok.inj (ht.symm.trans heq))
    refine ⟨code, _, ht, ⟨ht', [], Or.inl ⟨ho, rfl⟩⟩, ho, ?_⟩
    have hstamp : Moves C I s s₁ :=
      k.moves (stampRow_ramOnly htab.initialized h₁) ht₁.mutex (hl₁.history.trans (List.append_nil _)) hrow₁
    have hend : Moves C I s₃ { s₃ with rowStarted := false } := k.moves rfl hm₃ rfl id
    exact hstamp.trans ((k.updateHeadings_moves ht₁ ht₂.mutex h₂).trans ((k.logRow_moves ht₂ h₃).trans hend))

/-- Starting a row is a step. -/
theorem Kept.startRow_moves (k : Kept C I) {s : Log g} (h : s.Tabled since) :
    s.startRow.InTable since ∧ Moves C I s s.startRow := by
  obtain ⟨ht, hr⟩ := startRow_tabled h
  exact ⟨⟨ht, [], hr⟩, k.moves rfl ht.mutex rfl List.map_eq_nil_iff.mp⟩

/-- One call. -/
theorem Kept.perform_moves (k : Kept C I) (hpos : 0 < g.getPageSize) {s : Log g} (h : s.InTable since) {op : LogOp}
    (hop : TextCall op) : ∃ t, s.perform op = .ok t ∧ t.InTable since ∧ Moves C I s t := by
  obtain ⟨htab, settings, hrow⟩ := h
  have hinit := init_of_initialized htab.initialized
  cases op with
  | logData key value =>
    obtain ⟨t, ht, htt, hr, -, hh, -⟩ := logData_tabled htab hop.1 hop.2 hrow
    exact ⟨t, ht, ⟨htt, _, hr⟩, k.moves (logData_ramOnly htab.initialized ht) htt.mutex hh
      fun hnil => absurd hnil hr.rowData_ne_nil⟩
  | setTimeStamp format =>
    obtain ⟨htt, hr, hh⟩ := applyTimeStamp_tabled htab format hrow
    refine ⟨_, ?_, ⟨htt, _, hr⟩, k.moves (applyTimeStamp_ramOnly s format) htt.mutex hh applyTimeStamp_rowData⟩
    change (s.init >>= fun s => .ok (s.applyTimeStamp format)) = _
    rw [hinit]
    rfl
  | logString str =>
    obtain ⟨code, t, ht, htt, hst⟩ := logString_tabled hpos htab str
    refine ⟨t, ?_, ⟨htt, settings, hst.rowIs hrow⟩, k.logString_moves htab.initialized ht⟩
    change (s.logString str >>= _) = _
    rw [ht]
    rfl
  | endRow now =>
    obtain ⟨code, t, ht, htt, -, hmv⟩ := k.endRow_moves hpos ⟨htab, settings, hrow⟩ now
    refine ⟨t, ?_, htt, hmv⟩
    change (s.endRow now >>= _) = _
    rw [ht]
    rfl
  | beginRow now =>
    have heq : s.beginRow now = if s.rowStarted then (s.endRow now >>= fun r => .ok r.2.startRow) else .ok s.startRow := by
      unfold beginRow
      rw [hinit]
      rfl
    change ∃ t, s.beginRow now = .ok t ∧ _
    rw [heq]
    split
    · obtain ⟨code, t, ht, htt, -, hmv⟩ := k.endRow_moves hpos ⟨htab, settings, hrow⟩ now
      obtain ⟨hti, hmv'⟩ := k.startRow_moves htt.1
      exact ⟨t.startRow, by rw [ht]; rfl, hti, hmv.trans hmv'⟩
    · obtain ⟨hti, hmv⟩ := k.startRow_moves htab
      exact ⟨s.startRow, rfl, hti, hmv⟩
  | isPresent | isFull | clear _ | invalidate | setSerialMirroring _ | reboot => exact hop.elim

/-- A run of calls. -/
theorem Kept.run_moves (k : Kept C I) (hpos : 0 < g.getPageSize) (calls : List LogOp) : ∀ {s : Log g}, s.InTable since →
    (∀ op ∈ calls, TextCall op) → ∃ t, s.run calls = .ok t ∧ t.InTable since ∧ Moves C I s t := by
  induction calls with
  | nil => exact fun {s} h _ => ⟨s, rfl, h, .refl s⟩
  | cons op calls ih =>
    intro s h hcalls
    obtain ⟨t, ht, hti, hmv⟩ := k.perform_moves hpos h (hcalls op List.mem_cons_self)
    obtain ⟨u, hu, hui, hmv'⟩ := ih hti fun op' hop => hcalls op' (List.mem_cons_of_mem _ hop)
    exact ⟨u, bind_eq_ok.mpr ⟨t, ht, hu⟩, hui, hmv.trans hmv'⟩

end Log

end CodalMicrobit

import CodalMicrobit.Lemmas.Rows

/-!
# The table of a log

A log keeps a table: its columns have distinct keys, and a row gives each of them a value. Keys and values were cleaned
when they were set, so a line of them has its separators at the ends of the cells only, and cleaning the line again as it
is appended changes nothing. Setting values, starting a row and setting the time stamp keep the table as it should be.
-/

namespace CodalMicrobit

open Nor Outcome

/-! ## Cells and lines -/

/-- A text that can stand in a cell: no separators, nothing that is replaced when the row is appended, no terminator. -/
structure IsCell (t : List UInt8) : Prop where
  noCommentEnd : NoCommentEnd t
  tab : '\t'.toUInt8 ∉ t
  comma : ','.toUInt8 ∉ t
  newline : '\n'.toUInt8 ∉ t
  nul : (0 : UInt8) ∉ t

theorem isCell_nil : IsCell [] := ⟨noCommentEnd_nil, nofun, nofun, nofun, nofun⟩

/-- What cleaning leaves of a text without zero bytes is a cell. -/
theorem isCell_cleaned {s : List UInt8} (h : (0 : UInt8) ∉ s) : IsCell (cleaned s) := by
  rw [cleaned_eq]
  obtain ⟨hc, hn⟩ := separator_not_mem_sanitised s
  exact ⟨noCommentEnd_sanitised s true, tab_not_mem_sanitised s true, hc, hn, nul_not_mem_sanitised h true⟩

/-- Cleaning a cell changes nothing. -/
theorem IsCell.cleaned {t : List UInt8} (h : IsCell t) : cleaned t = t := by
  rw [cleaned_eq]
  exact sanitised_of_clean h.noCommentEnd h.tab fun _ => ⟨h.comma, h.newline⟩

namespace Log

/-- A line is the cells with commas between them and a line break behind. -/
theorem csvLine_eq (fields : List ManagedString) :
    csvLine fields = [','.toUInt8].intercalate fields ++ ['\n'.toUInt8] := rfl

/-- A byte of a row of cells is one of a cell, or a comma. -/
theorem mem_intercalate {fields : List ManagedString} {b : UInt8} (h : b ∈ [','.toUInt8].intercalate fields) :
    (∃ f ∈ fields, b ∈ f) ∨ b = ','.toUInt8 := by
  induction fields with
  | nil => nomatch h
  | cons f fields ih =>
    cases fields with
    | nil => exact Or.inl ⟨f, List.mem_cons_self, by simpa using h⟩
    | cons f' fields =>
      rw [List.intercalate_cons_cons] at h
      rcases List.mem_append.mp h with h | h
      · rcases List.mem_append.mp h with h | h
        · exact Or.inl ⟨f, List.mem_cons_self, h⟩
        · exact Or.inr (List.mem_singleton.mp h)
      · exact (ih h).imp_left fun ⟨f, hf, hb⟩ => ⟨f, List.mem_cons_of_mem _ hf, hb⟩

/-- Cells joined by commas never end the comment in the header. -/
theorem noCommentEnd_intercalate {fields : List ManagedString} (h : ∀ f ∈ fields, IsCell f) :
    NoCommentEnd ([','.toUInt8].intercalate fields) := by
  induction fields with
  | nil => exact noCommentEnd_nil
  | cons f fields ih =>
    cases fields with
    | nil => simpa using (h f List.mem_cons_self).noCommentEnd
    | cons f' fields =>
      rw [List.intercalate_cons_cons, List.append_assoc]
      exact noCommentEnd_separated (by decide) (h f List.mem_cons_self).noCommentEnd
        (ih fun g hg => h g (List.mem_cons_of_mem _ hg))

/-- A byte that is in no cell, and not the comma, is not in the joined cells. -/
theorem not_mem_intercalate {fields : List ManagedString} {b : UInt8} (hf : ∀ f ∈ fields, b ∉ f)
    (hb : b ≠ ','.toUInt8) : b ∉ [','.toUInt8].intercalate fields := by
  intro h
  rcases mem_intercalate h with ⟨f, hm, h⟩ | h
  · exact hf f hm h
  · exact hb h

/-- A byte that is in no cell, and no delimiter, is not in the line. -/
theorem not_mem_csvLine {fields : List ManagedString} {b : UInt8} (hf : ∀ f ∈ fields, b ∉ f) (hc : b ≠ ','.toUInt8)
    (hn : b ≠ '\n'.toUInt8) : b ∉ csvLine fields := by
  intro hm
  rcases List.mem_append.mp hm with hm | hm
  · exact not_mem_intercalate hf hc hm
  · exact hn (List.mem_singleton.mp hm)

/-- A line of cells has no zero byte, so a C string holds all of it. -/
theorem cString_csvLine {fields : List ManagedString} (h : ∀ f ∈ fields, IsCell f) :
    cString (csvLine fields) = csvLine fields := by
  have hnul := not_mem_csvLine (fun f hf => (h f hf).nul) (by decide) (by decide)
  exact cString_of_no_nul _ fun b hb h0 => hnul (h0 ▸ hb)

/-- Cleaning a line of cells changes nothing. -/
theorem cleaned_csvLine {fields : List ManagedString} (h : ∀ f ∈ fields, IsCell f) :
    cleaned (csvLine fields) false = csvLine fields := by
  have htab := not_mem_csvLine (fun f hf => (h f hf).tab) (by decide) (by decide)
  have hend : NoCommentEnd (csvLine fields) :=
    noCommentEnd_separated (by decide) (noCommentEnd_intercalate h) noCommentEnd_nil
  rw [cleaned_eq]
  exact sanitised_of_clean hend htab nofun

/-- Splitting a line gives back its cells. -/
theorem splitOn_csvLine {fields : List ManagedString} (h : ∀ f ∈ fields, IsCell f) (hne : fields ≠ [])
    (rest : List UInt8) :
    (csvLine fields ++ rest).splitOn '\n'.toUInt8 =
      [','.toUInt8].intercalate fields :: rest.splitOn '\n'.toUInt8 ∧
      ([','.toUInt8].intercalate fields).splitOn ','.toUInt8 = fields := by
  refine ⟨?_, List.splitOn_intercalate _ (fun f hf => (h f hf).comma) hne⟩
  rw [csvLine_eq, List.append_assoc]
  exact List.splitOn_append_cons_self_of_not_mem (not_mem_intercalate (fun f hf => (h f hf).newline) (by decide)) rest

/-! ## Setting values -/

/-- The value of a column after some settings of keys to values: the last one of its key, or none. -/
def cell (settings : List (ManagedString × ManagedString)) (key : ManagedString) : ManagedString :=
  ((settings.reverse.find? (·.1 == key)).map (·.2)).getD []

/-- A new setting counts for its own key only. -/
theorem cell_concat (settings : List (ManagedString × ManagedString)) (k v key : ManagedString) :
    cell (settings ++ [(k, v)]) key = if k = key then v else cell settings key := by
  unfold cell
  rw [List.reverse_append, List.reverse_singleton, List.singleton_append, List.find?_cons]
  by_cases h : k = key
  · rw [if_pos h, h, beq_self_eq_true]
    rfl
  · rw [if_neg h, beq_eq_false_iff_ne.mpr h]

/-- A value leaves the names of the columns alone. -/
theorem setValue_keys (k v : ManagedString) (cols : List ColumnEntry) :
    (setValue k v cols).map (·.key) = cols.map (·.key) := by
  induction cols with
  | nil => rfl
  | cons c cols ih =>
    unfold setValue
    split
    · rfl
    · rw [List.map_cons, ih, List.map_cons]

/-- The column of the key has the new value, and every other one is as it was. -/
theorem mem_setValue {k v : ManagedString} {cols : List ColumnEntry} (hn : (cols.map (·.key)).Nodup) {c : ColumnEntry}
    (h : c ∈ setValue k v cols) : c.key = k ∧ c.value = v ∨ c.key ≠ k ∧ c ∈ cols := by
  induction cols with
  | nil => nomatch h
  | cons d cols ih =>
    obtain ⟨hd, hn⟩ := List.nodup_cons.mp hn
    unfold setValue at h
    split at h
    · rename_i hk
      rcases List.mem_cons.mp h with rfl | h
      · exact Or.inl ⟨hk, rfl⟩
      · refine Or.inr ⟨fun hck => hd ?_, List.mem_cons_of_mem _ h⟩
        exact List.mem_map.mpr ⟨c, h, hck.trans hk.symm⟩
    · rename_i hk
      rcases List.mem_cons.mp h with rfl | h
      · exact Or.inr ⟨hk, List.mem_cons_self⟩
      · exact (ih hn h).imp_right fun ⟨h1, h2⟩ => ⟨h1, List.mem_cons_of_mem _ h2⟩

/-! ## The table -/

variable {g : Geometry}

/-- The list of headings that was logged last is `h`: it was stored, and then logged. -/
def LastHeader (history : List (LogEvent g)) (h : ManagedString) : Prop :=
  ∃ pre mid post before before', history = pre ++ .storing before h :: (mid ++ .logging before' h :: post) ∧
    (∀ e ∈ mid, Quiet e) ∧ ∀ before text, LogEvent.storing before text ∉ post

theorem LastHeader.append {history es : List (LogEvent g)} {h : ManagedString} (hl : LastHeader history h)
    (hes : ∀ before text, LogEvent.storing before text ∉ es) : LastHeader (history ++ es) h := by
  obtain ⟨pre, mid, post, before, before', heq, hmid, hpost⟩ := hl
  refine ⟨pre, mid, post ++ es, before, before', ?_, hmid, fun b t hm => ?_⟩
  · rw [heq]
    simp [List.append_assoc]
  · rcases List.mem_append.mp hm with hm | hm
    · exact hpost b t hm
    · exact hes b t hm

/-- A header that was logged last since some entry was logged last. -/
theorem LastHeader.of_drop {history : List (LogEvent g)} {h : ManagedString} {n : Nat}
    (hl : LastHeader (history.drop n) h) : LastHeader history h := by
  obtain ⟨pre, mid, post, before, before', heq, hmid, hpost⟩ := hl
  refine ⟨history.take n ++ pre, mid, post, before, before', ?_, hmid, hpost⟩
  rw [List.append_assoc, ← heq, List.take_append_drop]

/-- The table between two calls. A header that is up to date was logged after the first `since` entries of the record. -/
structure Tabled (s : Log g) (since : Nat) : Prop where
  initialized : s.initialized = true
  mutex : s.mutex = false
  since_le : since ≤ s.history.length
  nodup : (s.rowData.map (·.key)).Nodup
  keys : ∀ column ∈ s.rowData, IsCell column.key
  values : ∀ column ∈ s.rowData, IsCell column.value
  stamp : s.timeStampFormat ≠ .None → (0 : UInt8) ∉ s.timeStampHeading
  columns : s.headingsChanged = true → s.rowData ≠ []
  header : s.headingsChanged = false →
    s.rowData = [] ∨ LastHeader (s.history.drop since) (csvLine (s.rowData.map (·.key)))

variable {since : Nat}

/-- The values of the open row are those of the settings so far. -/
def RowIs (s : Log g) (settings : List (ManagedString × ManagedString)) : Prop :=
  s.rowStarted = false ∧ settings = [] ∨
    s.rowStarted = true ∧ (∀ column ∈ s.rowData, column.value = cell settings column.key) ∧
      ∀ kv ∈ settings, kv.1 ∈ s.rowData.map (·.key)

/-- On an initialized log `init` does nothing. -/
theorem init_of_initialized {s : Log g} (h : s.initialized = true) : s.init = .ok s := if_pos h

/-- Adding a column whose key is new. -/
theorem addHeading_new {s : Log g} {k v : ManagedString} {head : Bool} (h : k ∉ s.rowData.map (·.key)) :
    s.addHeading k v head = { s with
      rowData := if head then ⟨k, v⟩ :: s.rowData else s.rowData ++ [⟨k, v⟩], headingsChanged := true } := by
  unfold addHeading
  rw [if_neg]
  intro hany
  obtain ⟨c, hc, hk⟩ := List.any_eq_true.mp hany
  exact h (List.mem_map.mpr ⟨c, hc, beq_iff_eq.mp hk⟩)

/-- The search for a column finds it exactly when it is there. -/
theorem mem_keys_iff {s : Log g} {k : ManagedString} :
    s.rowData.any (·.key == k) = true ↔ k ∈ s.rowData.map (·.key) := by
  rw [List.any_eq_true, List.mem_map]
  exact exists_congr fun c => and_congr_right fun _ => beq_iff_eq

/-- A new column with a cell for a name keeps the table right. -/
theorem Tabled.addColumn {s : Log g} (h : s.Tabled since) {k v : ManagedString} (hk : IsCell k) (hv : IsCell v) (head : Bool)
    (hnew : k ∉ s.rowData.map (·.key)) : (s.addHeading k v head).Tabled since := by
  have hmem : ∀ column ∈ (if head then ⟨k, v⟩ :: s.rowData else s.rowData ++ [⟨k, v⟩]),
      column = ⟨k, v⟩ ∨ column ∈ s.rowData := by
    intro column hc
    cases head
    · rcases List.mem_append.mp hc with hc | hc
      · exact Or.inr hc
      · exact Or.inl (List.mem_singleton.mp hc)
    · exact List.mem_cons.mp hc
  rw [addHeading_new hnew]
  refine ⟨h.initialized, h.mutex, h.since_le, ?_, fun c hc => ?_, fun c hc => ?_, h.stamp, fun _ => ?_, nofun⟩
  · cases head
    · change ((s.rowData ++ [(⟨k, v⟩ : ColumnEntry)]).map (·.key)).Nodup
      rw [List.map_append, List.map_singleton]
      refine List.nodup_append.mpr ⟨h.nodup, List.nodup_singleton _, fun a ha b hb hab => hnew ?_⟩
      obtain rfl : a = k := hab.trans (List.mem_singleton.mp hb)
      exact ha
    · exact List.nodup_cons.mpr ⟨hnew, h.nodup⟩
  · rcases hmem c hc with rfl | hc
    · exact hk
    · exact h.keys c hc
  · rcases hmem c hc with rfl | hc
    · exact hv
    · exact h.values c hc
  · cases head
    · exact List.append_ne_nil_of_right_ne_nil _ (List.cons_ne_nil _ _)
    · exact List.cons_ne_nil _ _

/-- `logData`, in an open row, sets the value of its key. -/
theorem setColumn_tabled {s : Log g} (h : s.Tabled since) {key value : ManagedString} (hk : (0 : UInt8) ∉ key)
    (hv : (0 : UInt8) ∉ value) {settings : List (ManagedString × ManagedString)} (hopen : s.rowStarted = true)
    (hrow : s.RowIs settings) :
    (s.setColumn key value).Tabled since ∧ (s.setColumn key value).RowIs (settings ++ [(cleaned key, cleaned value)]) ∧
      (s.setColumn key value).rowStarted = true ∧ (s.setColumn key value).history = s.history ∧
      (s.setColumn key value).dataEnd = s.dataEnd := by
  have hck := isCell_cleaned hk
  have hcv := isCell_cleaned hv
  obtain ⟨-, hvals, hkeys⟩ := hrow.resolve_left fun hc => by rw [hopen] at hc; nomatch hc.1
  unfold setColumn
  dsimp only
  by_cases hin : cleaned key ∈ s.rowData.map (·.key)
  · rw [if_pos (mem_keys_iff.mpr hin)]
    have hset : ∀ {c}, c ∈ setValue (cleaned key) (cleaned value) s.rowData →
        c.key = cleaned key ∧ c.value = cleaned value ∨ c.key ≠ cleaned key ∧ c ∈ s.rowData :=
      fun hc => mem_setValue h.nodup hc
    have hks := setValue_keys (cleaned key) (cleaned value) s.rowData
    refine ⟨⟨h.initialized, h.mutex, h.since_le, ?_, fun c hc => ?_, fun c hc => ?_, h.stamp, fun _ hnil => ?_,
      fun hh => ?_⟩, Or.inr ⟨hopen, fun c hc => ?_, fun kv hm => ?_⟩, hopen, rfl, rfl⟩
    · exact hks ▸ h.nodup
    · rcases hset hc with ⟨h1, -⟩ | ⟨-, h2⟩
      · exact h1 ▸ hck
      · exact h.keys c h2
    · rcases hset hc with ⟨-, h1⟩ | ⟨-, h2⟩
      · exact h1 ▸ hcv
      · exact h.values c h2
    · rw [← hks, show setValue _ _ s.rowData = [] from hnil] at hin
      nomatch hin
    · refine (h.header hh).imp (fun he => ?_) fun hl => ?_
      · exact absurd hin (by rw [he]; exact nofun)
      · exact hks.symm ▸ hl
    · rw [cell_concat]
      rcases hset hc with ⟨h1, h2⟩ | ⟨h1, h2⟩
      · rw [if_pos h1.symm]
        exact h2
      · rw [if_neg fun he => h1 he.symm]
        exact hvals c h2
    · rw [hks]
      rcases List.mem_append.mp hm with hm | hm
      · exact hkeys kv hm
      · exact List.mem_singleton.mp hm ▸ hin
  · rw [if_neg fun hany => hin (mem_keys_iff.mp hany)]
    refine ⟨h.addColumn hck hcv false hin, Or.inr ⟨?_, fun c hc => ?_, fun kv hm => ?_⟩, ?_, addHeading_history _ _ _ _,
      (addHeading_ramOnly _ _ _ _).dataEnd⟩
    · rw [addHeading_new hin]
      exact hopen
    · rw [addHeading_new hin] at hc
      rw [cell_concat]
      rcases List.mem_append.mp hc with hc | hc
      · rw [if_neg fun he : cleaned key = c.key => hin (List.mem_map.mpr ⟨c, hc, he.symm⟩)]
        exact hvals c hc
      · rw [List.mem_singleton.mp hc, if_pos rfl]
    · rw [addHeading_new hin]
      change kv.1 ∈ (s.rowData ++ [(⟨cleaned key, cleaned value⟩ : ColumnEntry)]).map (·.key)
      rw [List.map_append]
      rcases List.mem_append.mp hm with hm | hm
      · exact List.mem_append_left _ (hkeys kv hm)
      · exact List.mem_append_right _ (by rw [List.mem_singleton.mp hm]; exact List.mem_singleton_self _)
    · rw [addHeading_new hin]
      exact hopen

/-- Starting a row clears the values. -/
theorem startRow_tabled {s : Log g} (h : s.Tabled since) : s.startRow.Tabled since ∧ s.startRow.RowIs [] := by
  have hkeys : s.startRow.rowData.map (·.key) = s.rowData.map (·.key) := by
    change (s.rowData.map _).map _ = _
    rw [List.map_map]
    rfl
  have hmem : ∀ column ∈ s.startRow.rowData, column.value = [] ∧ ∃ c ∈ s.rowData, c.key = column.key := by
    intro column hc
    obtain ⟨c, hcm, rfl⟩ := List.mem_map.mp hc
    exact ⟨rfl, c, hcm, rfl⟩
  refine ⟨⟨h.initialized, h.mutex, h.since_le, by rw [hkeys]; exact h.nodup, fun c hc => ?_, fun c hc => ?_, h.stamp,
    fun hc hnil => h.columns hc (List.map_eq_nil_iff.mp hnil), fun hh => ?_⟩, Or.inr ⟨rfl, fun c hc => (hmem c hc).1, nofun⟩⟩
  · obtain ⟨-, d, hd, hk⟩ := hmem c hc
    exact hk ▸ h.keys d hd
  · rw [(hmem c hc).1]
    exact isCell_nil
  · refine (h.header hh).imp (fun he => ?_) fun hl => ?_
    · change s.rowData.map _ = []
      rw [he]
      rfl
    · rw [hkeys]
      exact hl

/-- `logData` opens a row if none is open, and sets the value of its key. -/
theorem logData_tabled {s : Log g} (h : s.Tabled since) {key value : ManagedString} (hk : (0 : UInt8) ∉ key)
    (hv : (0 : UInt8) ∉ value) {settings : List (ManagedString × ManagedString)} (hrow : s.RowIs settings) :
    ∃ t, s.logData key value = .ok t ∧ t.Tabled since ∧ t.RowIs (settings ++ [(cleaned key, cleaned value)]) ∧
      t.rowStarted = true ∧ t.history = s.history ∧ t.dataEnd = s.dataEnd := by
  have heq : s.logData key value = .ok ((if s.rowStarted then s else s.startRow).setColumn key value) := by
    unfold logData
    rw [init_of_initialized h.initialized]
    rfl
  rw [heq]
  by_cases hopen : s.rowStarted = true
  · rw [if_pos hopen]
    exact ⟨_, rfl, setColumn_tabled h hk hv hopen hrow⟩
  · rw [if_neg hopen]
    obtain ⟨ht, hr⟩ := startRow_tabled h
    obtain rfl : settings = [] := by
      rcases hrow with ⟨-, h0⟩ | ⟨h1, -⟩
      · exact h0
      · exact absurd h1 hopen
    exact ⟨_, rfl, setColumn_tabled ht hk hv rfl hr⟩

/-! ## Time stamps -/

/-- A key that was not set has no value. -/
theorem cell_of_not_mem {settings : List (ManagedString × ManagedString)} {key : ManagedString}
    (h : ∀ kv ∈ settings, kv.1 ≠ key) : cell settings key = [] := by
  unfold cell
  rw [List.find?_eq_none.mpr]
  · rfl
  · intro kv hkv hk
    exact h kv (List.mem_reverse.mp hkv) (beq_iff_eq.mp hk)

/-- An empty column that is added to the open row. -/
theorem RowIs.addColumn {s : Log g} {settings : List (ManagedString × ManagedString)} (h : s.RowIs settings)
    {key : ManagedString} (head : Bool) (hnew : key ∉ s.rowData.map (·.key)) :
    (s.addHeading key [] head).RowIs settings := by
  rw [addHeading_new hnew]
  refine h.imp id fun ⟨hopen, hvals, hkeys⟩ => ⟨hopen, fun c hc => ?_, fun kv hm => ?_⟩
  · -- no setting so far is one of the new column
    have hcell : cell settings key = [] := cell_of_not_mem fun kv hm he => hnew (he ▸ hkeys kv hm)
    cases head
    · rcases List.mem_append.mp hc with hc | hc
      · exact hvals c hc
      · rw [List.mem_singleton.mp hc]
        exact hcell.symm
    · rcases List.mem_cons.mp hc with rfl | hc
      · exact hcell.symm
      · exact hvals c hc
  · have hold := hkeys kv hm
    cases head
    · change kv.1 ∈ (s.rowData ++ [(⟨key, []⟩ : ColumnEntry)]).map (·.key)
      rw [List.map_append]
      exact List.mem_append_left _ hold
    · exact List.mem_cons_of_mem _ hold

/-- The heading of the time column is a cell. -/
theorem isCell_timeStampHeading (format : TimeStampFormat) :
    IsCell (ascii ['T', 'i', 'm', 'e', ' ', '('] ++ timeStampUnits format ++ ascii [')']) := by
  have hclean : cleaned (ascii ['T', 'i', 'm', 'e', ' ', '('] ++ timeStampUnits format ++ ascii [')']) =
      ascii ['T', 'i', 'm', 'e', ' ', '('] ++ timeStampUnits format ++ ascii [')'] := by
    cases format <;> decide
  rw [← hclean]
  exact isCell_cleaned (by cases format <;> decide)

/-- Setting the time stamp adds its column, empty, unless there is one. -/
theorem applyTimeStamp_tabled {s : Log g} (h : s.Tabled since) (format : TimeStampFormat)
    {settings : List (ManagedString × ManagedString)} (hrow : s.RowIs settings) :
    (s.applyTimeStamp format).Tabled since ∧ (s.applyTimeStamp format).RowIs settings ∧
      (s.applyTimeStamp format).history = s.history := by
  refine ⟨?_, ?_, applyTimeStamp_history s format⟩
  · unfold applyTimeStamp
    dsimp only
    split
    · rename_i hf
      exact ⟨h.initialized, h.mutex, h.since_le, h.nodup, h.keys, h.values, fun hn => absurd hf hn, h.columns, h.header⟩
    · obtain ⟨heading, hh⟩ : ∃ heading, heading =
        ascii ['T', 'i', 'm', 'e', ' ', '('] ++ timeStampUnits format ++ ascii [')'] := ⟨_, rfl⟩
      have hcell : IsCell heading := hh ▸ isCell_timeStampHeading format
      rw [← hh]
      have ht : Tabled { s with timeStampFormat := format, timeStampHeading := heading } since :=
        ⟨h.initialized, h.mutex, h.since_le, h.nodup, h.keys, h.values, fun _ => hcell.nul, h.columns, h.header⟩
      by_cases hin : heading ∈ s.rowData.map (·.key)
      · unfold addHeading
        rw [if_pos (mem_keys_iff.mpr hin)]
        exact ht
      · exact ht.addColumn hcell isCell_nil _ hin
  · unfold applyTimeStamp
    dsimp only
    split
    · exact hrow
    · obtain ⟨heading, hh⟩ : ∃ heading, heading =
        ascii ['T', 'i', 'm', 'e', ' ', '('] ++ timeStampUnits format ++ ascii [')'] := ⟨_, rfl⟩
      rw [← hh]
      have hr : RowIs { s with timeStampFormat := format, timeStampHeading := heading } settings := hrow
      by_cases hin : heading ∈ s.rowData.map (·.key)
      · unfold addHeading
        rw [if_pos (mem_keys_iff.mpr hin)]
        exact hr
      · exact hr.addColumn _ hin

/-- Decimal digits are no zero bytes. -/
theorem nul_not_mem_decimalDigits (fuel : Nat) : ∀ n, (0 : UInt8) ∉ decimalDigits n fuel := by
  induction fuel with
  | zero => exact fun _ => nofun
  | succ fuel ih =>
    intro n h
    unfold decimalDigits at h
    rcases List.mem_cons.mp h with h | h
    · have hlt := Nat.mod_lt n (show 0 < 10 by decide)
      have hall : ∀ d, d < 10 → (0 : UInt8) ≠ '0'.toUInt8 + d.toUInt8 := by decide
      exact hall _ hlt h
    · split at h
      · nomatch h
      · exact ih _ h

/-- A number in decimal has no zero byte. -/
theorem nul_not_mem_decimal (n : Int) : (0 : UInt8) ∉ decimal n := by
  have hd : (0 : UInt8) ∉ (decimalDigits n.natAbs 10).reverse :=
    fun h => nul_not_mem_decimalDigits 10 _ (List.mem_reverse.mp h)
  unfold decimal
  dsimp only
  split
  · intro h
    rcases List.mem_cons.mp h with h | h
    · exact absurd h (by decide)
    · exact hd h
  · exact hd

/-- Padding puts no zero byte into a text. -/
theorem nul_not_mem_padString {s : ManagedString} (h : (0 : UInt8) ∉ s) (digits : Nat) :
    (0 : UInt8) ∉ padString s digits := by
  intro hm
  rcases List.mem_append.mp hm with hm | hm
  · exact absurd (List.eq_of_mem_replicate hm) (by decide)
  · exact h hm

/-- A time stamp has no zero byte. -/
theorem nul_not_mem_timeStamp (format : TimeStampFormat) (now : Nat) : (0 : UInt8) ∉ timeStamp format now := by
  have happend : ∀ {a b : ManagedString}, (0 : UInt8) ∉ a → (0 : UInt8) ∉ b → (0 : UInt8) ∉ a ++ b :=
    fun ha hb h => (List.mem_append.mp h).elim ha hb
  have hnum : ∀ (b : Int) (u : Nat), (0 : UInt8) ∉
      if b ≠ 0 then decimal b ++ padString (decimal u) 9 else decimal u := by
    intro b u
    split
    · exact happend (nul_not_mem_decimal _) (nul_not_mem_padString (nul_not_mem_decimal _) _)
    · exact nul_not_mem_decimal _
  unfold timeStamp
  dsimp only
  split
  · exact happend (happend (hnum _ _) (by decide)) (nul_not_mem_padString (nul_not_mem_decimal _) _)
  · exact hnum _ _

theorem decimal_ne_nil (n : Int) : decimal n ≠ [] := by
  have hd : (decimalDigits n.natAbs 10).reverse ≠ [] := by
    rw [Ne, List.reverse_eq_nil_iff, decimalDigits]
    exact List.cons_ne_nil _ _
  unfold decimal
  dsimp only
  split
  · exact List.cons_ne_nil _ _
  · exact hd

/-- A time stamp is not empty. -/
theorem timeStamp_ne_nil (format : TimeStampFormat) (now : Nat) : timeStamp format now ≠ [] := by
  unfold timeStamp
  dsimp only
  split
  · exact List.append_ne_nil_of_left_ne_nil (List.append_ne_nil_of_right_ne_nil _ (List.cons_ne_nil _ _)) _
  · split
    · exact List.append_ne_nil_of_left_ne_nil (decimal_ne_nil _) _
    · exact decimal_ne_nil _

end Log

end CodalMicrobit

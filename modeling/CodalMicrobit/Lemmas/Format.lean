import CodalMicrobit.Lemmas.Journal

/-!
# A fresh log

What `clear` leaves: the metadata in its page with nothing after it, one journal entry, and an erased first page of data.
And what a later start finds: a log whose metadata is still there is present, with the layout it was given.
-/

namespace CodalMicrobit

open Nor Outcome FSCache

namespace Log

variable {g : Geometry}

/-! ## Changes in RAM only -/

/-- `s'` is `s` but for members that say nothing about the flash, and the record. -/
def RamOnly (s s' : Log g) : Prop :=
  s' = { s with
    mutex := s'.mutex, rowStarted := s'.rowStarted, serialMirror := s'.serialMirror
    headingsChanged := s'.headingsChanged, rowData := s'.rowData, timeStampFormat := s'.timeStampFormat
    timeStampHeading := s'.timeStampHeading, serial := s'.serial, history := s'.history }

theorem RamOnly.refl (s : Log g) : RamOnly s s := rfl

theorem RamOnly.trans {s s' s'' : Log g} (h : RamOnly s s') (h' : RamOnly s' s'') : RamOnly s s'' := by
  unfold RamOnly at h h' ⊢
  rw [h'] at *
  rw [h]

/-- The addresses stay where they belong. -/
theorem RamOnly.placed {s s' : Log g} (hr : RamOnly s s') (h : s.Placed) : s'.Placed := by
  rw [hr]
  exact ⟨h.startAddress, h.journalStart, h.dataStart, h.logEnd, h.le_dataEnd, h.dataEnd_le, h.head_dvd, h.le_head,
    h.head_lt, h.nodup⟩

/-- The cache is the same. -/
theorem RamOnly.cache {s s' : Log g} (hr : RamOnly s s') : s'.cache = s.cache := by
  rw [hr]

/-- The end of the data is the same. -/
theorem RamOnly.dataEnd {s s' : Log g} (hr : RamOnly s s') : s'.dataEnd = s.dataEnd := by
  rw [hr]

/-- Noting an event changes no more than the record. -/
theorem RamOnly.note (s : Log g) (e : LogEvent g) : RamOnly s (s.note e) := rfl

/-- Giving the lock back changes only the lock. -/
theorem RamOnly.notify (s : Log g) : RamOnly s s.notify := rfl

/-- The log is as full as before. -/
theorem RamOnly.full {s s' : Log g} (hr : RamOnly s s') : s'.full = s.full := by
  rw [hr]

/-- The log is as initialized as before. -/
theorem RamOnly.initialized {s s' : Log g} (hr : RamOnly s s') : s'.initialized = s.initialized := by
  rw [hr]

/-- The text stored is the same. -/
theorem RamOnly.stored {s s' : Log g} {text : List UInt8} (hr : RamOnly s s') (h : s.Stored text) : s'.Stored text := by
  rw [hr]
  exact ⟨h.dataEnd, h.holds, h.coherent⟩

/-- A new column is kept in RAM until the row ends. -/
theorem addHeading_ramOnly (s : Log g) (k v : ManagedString) (head : Bool) : RamOnly s (s.addHeading k v head) := by
  unfold addHeading
  split <;> rfl

/-- A value is kept in RAM until the row ends. -/
theorem setColumn_ramOnly (s : Log g) (key value : ManagedString) : RamOnly s (s.setColumn key value) := by
  unfold setColumn
  dsimp only
  split
  · rfl
  · exact addHeading_ramOnly _ _ _ _

/-- The column for the time is kept in RAM until the row ends. -/
theorem applyTimeStamp_ramOnly (s : Log g) (f : TimeStampFormat) : RamOnly s (s.applyTimeStamp f) := by
  unfold applyTimeStamp
  dsimp only
  split
  · rfl
  · exact RamOnly.trans (rfl : RamOnly s { s with timeStampFormat := f, timeStampHeading := _ }) (addHeading_ramOnly _ _ _ _)

/-! ## Formatting -/

/-- Erasing the pages from the start of the storage on. -/
theorem erasePages_mem (f : Flash g) (n : Nat) (h : n * g.getPageSize ≤ g.getFlashEnd) (x : Nat) :
    ((List.range n).foldl (fun f i => f.erase (g.getFlashStart + i * g.getPageSize)) f).mem x =
      if x < n * g.getPageSize then blank else f.mem x := by
  simp only [Geometry.getFlashStart, Nat.zero_add]
  induction n with
  | zero => simp
  | succ n ih =>
    rw [Nat.succ_mul] at h ⊢
    rw [List.range_succ, List.foldl_append, List.foldl_cons, List.foldl_nil, Flash.erase_eq _ h]
    dsimp only
    unfold Nor.erase
    by_cases h1 : n * g.getPageSize ≤ x ∧ x < n * g.getPageSize + g.getPageSize
    · rw [if_pos h1, if_pos (by omega)]
    · rw [if_neg h1, ih (by omega)]
      exact if_congr (by omega) rfl rfl

/-- The metadata of a log with the layout `clear` gives it. -/
def MetaOk (g : Geometry) (m : Memory) : Prop :=
  slice m g.logStart metaDataSize = (newMetaData g.logEnd g.dataStart).bytes

/-- Whether the metadata is right depends on the flash up to its end only. -/
theorem MetaOk.congr {m m' : Memory} (hm : MetaOk g m) (he : ∀ x, x < g.logStart + metaDataSize → m' x = m x) :
    MetaOk g m' :=
  (slice_congr fun x _ hx => he x hx).trans hm

/-- A log as `clear` leaves it. -/
structure Fresh (s : Log g) : Prop where
  placed : s.Placed
  initialized : s.initialized = true
  full : s.full = false
  dataEnd : s.dataEnd = g.dataStart
  journalHead : s.journalHead = g.journalStart
  headingStart : s.headingStart = 0
  headingLength : s.headingLength = 0
  coherent : s.cache.Coherent fun _ => True
  metaOk : MetaOk g s.mem
  headings : Blank s.mem (g.logStart + metaDataSize) g.journalStart
  entry : slice s.mem g.journalStart 8 = List.replicate 8 '0'.toUInt8
  journal : Blank s.mem (g.journalStart + 8) g.dataStart
  data : Blank s.mem g.dataStart (g.dataStart + g.getPageSize)
  marker : s.mem (g.logEnd + 1) = 0 ∨ s.mem (g.logEnd + 1) = blank
  loaded : ∀ b q, s.cache.Loaded b q → b < g.dataStart

/-- The metadata fills its place. -/
theorem newMetaData_length (a b : Nat) : (newMetaData a b).bytes.length = metaDataSize := rfl

/-- The pages that `clear` erases: at least up to the first one of the data, at most up to the word of the FULL indicator. -/
theorem erased_pages (hg : g.Fits) (fullErase : Bool) :
    g.dataStart + g.getPageSize ≤ ((if fullErase then g.logEnd else g.dataStart) / g.getPageSize + 1) * g.getPageSize ∧
      ((if fullErase then g.logEnd else g.dataStart) / g.getPageSize + 1) * g.getPageSize ≤ g.logEnd + 4 := by
  obtain ⟨hd, hsum, hle, hlt⟩ := page_lastPage hg
  have h1 : g.pageEnd g.dataStart = g.dataStart + g.getPageSize :=
    Geometry.pageEnd_of_dvd hg.pos g.page_dvd_dataStart
  have h2 : g.pageEnd (lastPage g) = lastPage g + g.getPageSize := Geometry.pageEnd_of_dvd hg.pos hd
  have h3 : g.pageEnd g.logEnd = g.pageEnd (lastPage g) := Geometry.pageEnd_of_lt hg.pos (by omega) (by omega)
  unfold Geometry.pageEnd at h1 h2 h3
  cases fullErase
  · simp only [Bool.false_eq_true, if_false]
    omega
  · simp only [if_true]
    omega

/-- The flash before the metadata is written: erased from the header to the end of the first page of data. -/
theorem erased_mem (hg : g.Fits) (f : Flash g) (header : Nat → UInt8) (fullErase : Bool) :
    let n := (if fullErase then g.logEnd else g.dataStart) / g.getPageSize + 1
    let f' := ((List.range n).foldl (fun f i => f.erase (g.getFlashStart + i * g.getPageSize))
      (f.write g.logEnd (fun _ => 0) 1)).write g.getFlashStart header (headerSize / 4)
    Blank f'.mem g.logStart (g.dataStart + g.getPageSize) ∧
      (f'.mem (g.logEnd + 1) = 0 ∨ f'.mem (g.logEnd + 1) = blank) := by
  obtain ⟨hn1, hn2⟩ := erased_pages hg fullErase
  obtain ⟨n, hn⟩ : ∃ n, n = (if fullErase then g.logEnd else g.dataStart) / g.getPageSize + 1 := ⟨_, rfl⟩
  rw [← hn] at hn1 hn2
  have hord := hg.order
  have hhead := hg.headerSize_le
  have hds := g.dataStart_eq
  have hjs := g.journalStart_eq
  have h2048 : headerSize = 2048 := rfl
  have hmem : ∀ x, headerSize ≤ x →
      (((List.range n).foldl (fun f i => f.erase (g.getFlashStart + i * g.getPageSize))
        (f.write g.logEnd (fun _ => 0) 1)).write g.getFlashStart header (headerSize / 4)).mem x =
        if x < n * g.getPageSize then blank else (f.write g.logEnd (fun _ => 0) 1).mem x := by
    intro x hx
    rw [Flash.write_eq _ _ (by unfold Geometry.getFlashStart; omega)]
    dsimp only
    unfold program
    rw [if_neg (by unfold Geometry.getFlashStart; omega), erasePages_mem _ n (by omega)]
  dsimp only
  rw [← hn]
  refine ⟨fun x h1 h2 => ?_, ?_⟩
  · rw [hmem x (by omega), if_pos (by omega)]
  · rw [hmem _ (by omega)]
    split
    · exact Or.inr rfl
    · left
      rw [Flash.write_eq _ _ (by omega)]
      dsimp only
      unfold program
      rw [if_pos (by omega)]
      exact UInt8.and_zero

/-- What is recorded of `clear`: its writes, up to the word of the FULL indicator, and the erases, after each of which
nothing is cached. -/
def FormatEvent : LogEvent g → Prop
  | .wrote w ops => w = .format ∧ Within 0 (g.logEnd + 4) ops
  | .erased _ after => ∀ b q, ¬after.Loaded b q
  | _ => False

/-- Erasing a page up to the word of the FULL indicator, with an empty cache. -/
theorem erasePage_format (hg : g.Fits) (s : Log g) (hempty : ∀ b q, ¬s.cache.Loaded b q) {page : Nat}
    (h : page + g.getPageSize ≤ g.logEnd + 4) : ∃ es, (s.erasePage .format page).history = s.history ++ es ∧
      ∀ e ∈ es, FormatEvent e := by
  have hord := hg.order
  have hafter : s.cache.flash.After [.erase page g.getPageSize] (s.cache.flash.erase page) :=
    Flash.after_erase _ (by omega)
  obtain ⟨c, hc⟩ : ∃ c, c = s.cache.flashErase page := ⟨_, rfl⟩
  have hempty' : ∀ b q, ¬c.Loaded b q := by
    rw [hc]
    exact hempty
  have herase : s.erasePage .format page = (s.setCache .format c).note (.erased page c) := by
    rw [hc]
    rfl
  have hhist := setCache_history (s := s) (w := .format) (c := c) (by rw [hc]; exact hafter)
  refine ⟨[.wrote .format [.erase page g.getPageSize], .erased page c], ?_, fun e he => ?_⟩
  · rw [herase]
    change (s.setCache _ _).history ++ _ = _
    rw [hhist, List.append_assoc]
    rfl
  · rcases List.mem_cons.mp he with rfl | he
    · exact ⟨rfl, (Within.erase _ _).mono (Nat.zero_le _) h⟩
    · rw [List.mem_singleton.mp he]
      exact hempty'

/-- Erasing pages up to the word of the FULL indicator, with an empty cache. -/
theorem erasePages_eq (hg : g.Fits) (l : List Nat) : ∀ (s : Log g), (∀ b q, ¬s.cache.Loaded b q) →
    (∀ i ∈ l, g.getFlashStart + i * g.getPageSize + g.getPageSize ≤ g.logEnd + 4) →
    ∃ es, l.foldl (fun s i => s.erasePage .format (g.getFlashStart + i * g.getPageSize)) s =
      { s with
        cache := { s.cache with
          flash := l.foldl (fun f i => f.erase (g.getFlashStart + i * g.getPageSize)) s.cache.flash }
        history := s.history ++ es } ∧ ∀ e ∈ es, FormatEvent e := by
  induction l with
  | nil => exact fun s _ _ => ⟨[], by simp, List.forall_mem_nil _⟩
  | cons i l ih =>
    intro s h hl
    obtain ⟨es, heq, hes⟩ := ih (s.erasePage .format (g.getFlashStart + i * g.getPageSize)) h
      fun j hj => hl j (List.mem_cons_of_mem _ hj)
    obtain ⟨es₁, hhist, hes₁⟩ := erasePage_format hg s h (hl i List.mem_cons_self)
    refine ⟨es₁ ++ es, ?_, fun e he => ?_⟩
    · rw [List.foldl_cons, heq, hhist, List.append_assoc]
      rfl
    · rcases List.mem_append.mp he with he | he
      · exact hes₁ e he
      · exact hes e he

/-- A cache that was cleared holds no page. -/
theorem clear_empty (c : FSCache g CONFIG_MICROBIT_LOG_CACHE_BLOCK_SIZE 4) (f : Flash g) :
    (∀ b q, ¬({ c.clear with flash := f } : FSCache g CONFIG_MICROBIT_LOG_CACHE_BLOCK_SIZE 4).Loaded b q) ∧
      ({ c.clear with flash := f } : FSCache g CONFIG_MICROBIT_LOG_CACHE_BLOCK_SIZE 4).Nodup := by
  refine ⟨?_, nofun⟩
  rintro b q ⟨i, -, hi⟩
  nomatch hi

/-- The first part of `clear`: an empty cache over a flash that is erased up to the end of the first page of data. -/
theorem eraseStorage_eq (hg : g.Fits) {s : Log g} (hend : s.logEnd = g.logEnd) (hstart : s.dataStart = g.dataStart)
    (fullErase : Bool) : ∃ es, s.eraseStorage fullErase =
      { s with
        cache := { s.cache.clear with
          flash := (List.range ((if fullErase then s.logEnd else s.dataStart) / g.getPageSize + 1)).foldl
            (fun f i => f.erase (g.getFlashStart + i * g.getPageSize)) (s.cache.flash.write s.logEnd (fun _ => 0) 1) }
        history := s.history ++ es } ∧ ∀ e ∈ es, FormatEvent e := by
  obtain ⟨s₁, hs₁⟩ : ∃ s₁ : Log g, s₁ = s.setCache .format
      { s.cache.clear with flash := s.cache.flash.write s.logEnd (fun _ => 0) 1 } := ⟨_, rfl⟩
  have hempty : ∀ b q, ¬s₁.cache.Loaded b q := by
    rw [hs₁]
    exact (clear_empty s.cache _).1
  have hord := hg.order
  have hafter := Flash.after_write s.cache.flash (fun _ => 0) (show s.logEnd + 4 * 1 ≤ g.getFlashEnd by omega)
  obtain ⟨ops, hops⟩ : ∃ ops, ops = programWords 4 s.logEnd 1 fun _ => 0 := ⟨_, rfl⟩
  have hhist : s₁.history = s.history ++ [.wrote .format ops] := by
    rw [hs₁, hops]
    exact setCache_history hafter
  have hwithin : Within 0 (g.logEnd + 4) ops := by
    rw [hops, hend]
    exact fun o ho x hx => ⟨Nat.zero_le x, (covers_of_mem_programWords ho hx).2⟩
  obtain ⟨-, hpages⟩ := erased_pages hg fullErase
  obtain ⟨es, heq, hes⟩ := erasePages_eq hg
    (List.range ((if fullErase then s.logEnd else s.dataStart) / g.getPageSize + 1)) s₁ hempty fun i hi => by
      rw [hend, hstart, List.mem_range] at hi
      have hle := Nat.mul_le_mul_right g.getPageSize (Nat.succ_le_of_lt hi)
      rw [Nat.succ_mul] at hle
      unfold Geometry.getFlashStart
      omega
  refine ⟨[.wrote .format ops] ++ es, ?_, ?_⟩
  · unfold eraseStorage
    dsimp only
    have hsame : s₁.logEnd = s.logEnd ∧ s₁.dataStart = s.dataStart := by
      rw [hs₁]
      exact ⟨rfl, rfl⟩
    rw [← hs₁, hsame.1, hsame.2, heq, hhist, List.append_assoc, hs₁]
    rfl
  · intro e he
    rcases List.mem_append.mp he with he | he
    · rw [List.mem_singleton.mp he]
      exact ⟨rfl, hwithin⟩
    · exact hes e he

/-- The second part of `clear`: the metadata and a journal entry, on erased flash. -/
theorem writeStorage_spec (hg : g.Fits) {s : Log g} {f : Flash g} (hempty : ∀ b q, ¬s.cache.Loaded b q)
    (hf : f = s.cache.flash.write g.getFlashStart s.header (headerSize / 4))
    (hblank : Blank f.mem g.logStart (g.dataStart + g.getPageSize)) (hstart : s.startAddress = g.logStart)
    (hhead : s.journalHead = g.journalStart) (hmeta : s.metaData = newMetaData g.logEnd g.dataStart) :
    ∃ c ops, s.writeStorage = { s with cache := c, history := s.history ++ [.wrote .format ops] } ∧ c.Nodup ∧
      (c.Coherent fun _ => True) ∧ slice c.flash.mem g.journalStart 8 = List.replicate 8 '0'.toUInt8 ∧
      MetaOk g c.flash.mem ∧ Within 0 (g.logEnd + 4) ops ∧ (∀ b q, c.Loaded b q → b < g.dataStart) ∧
      ∀ x, ¬(g.logStart ≤ x ∧ x < g.logStart + metaDataSize) → ¬(g.journalStart ≤ x ∧ x < g.journalStart + 8) →
        c.flash.mem x = f.mem x := by
  have hord := hg.order
  have hds := g.dataStart_eq
  have hjs := g.journalStart_eq
  have hps : 256 ≤ g.getPageSize := hg.block_le_page
  have hsize : metaDataSize = 40 := rfl
  obtain ⟨c₁, hc₁⟩ : ∃ c₁ : FSCache g CONFIG_MICROBIT_LOG_CACHE_BLOCK_SIZE 4, c₁ = { s.cache with flash := f } :=
    ⟨_, rfl⟩
  have hempty₁ : ∀ b q, ¬c₁.Loaded b q := by
    rw [hc₁]
    exact hempty
  have hmem₁ : c₁.flash.mem = f.mem := by rw [hc₁]
  have hnodup : c₁.Nodup := by
    intro i j hi
    obtain ⟨p, hp⟩ := Option.isSome_iff_exists.mp hi
    exact absurd ⟨i, rfl, hp⟩ (hempty₁ (c₁.cache i).address p)
  -- the metadata goes to erased bytes, through the empty cache
  obtain ⟨ops₂, c₂, hw₂, hwrote₂, hmem₂, hcoh₂, -⟩ := write_put (by decide) (by decide) hg.block_dvd_flashEnd
    (R := fun _ => True) c₁ (a := g.logStart) (t := (newMetaData g.logEnd g.dataStart).bytes) hnodup
    (fun b q _ hq => absurd hq (hempty₁ b q)) (by rw [newMetaData_length]; omega) (fun _ _ _ _ => trivial)
    (fun k hk => by
      rw [newMetaData_length] at hk
      rw [hmem₁, hblank _ (by omega) (by omega)]
      exact legal_blank _)
  obtain ⟨ops₃, c₃, hw₃, hwrote₃, hmem₃, hcoh₃, -⟩ := write_put (by decide) (by decide) hg.block_dvd_flashEnd
    (R := fun _ => True) c₂ (a := g.journalStart) (t := List.replicate 8 '0'.toUInt8) hwrote₂.nodup hcoh₂
    (by rw [List.length_replicate]; omega) (fun _ _ _ _ => trivial)
    (fun k hk => by
      rw [List.length_replicate] at hk
      rw [hmem₂, put_of_le _ _ (by rw [newMetaData_length]; omega), hmem₁, hblank _ (by omega) (by omega)]
      exact legal_blank _)
  have hcache : s.writeStorage = s.setCache .format c₃ := by
    have h2 : (c₁.write g.logStart (newMetaData g.logEnd g.dataStart).bytes).2 = c₂ := by rw [hw₂]
    have h3 : (c₂.write g.journalStart (List.replicate 8 '0'.toUInt8)).2 = c₃ := by rw [hw₃]
    unfold writeStorage
    dsimp only
    rw [hstart, hhead, hmeta, ← hf, ← hc₁, h2, ← h3]
    rfl
  have hafter₁ : s.cache.flash.After (programWords 4 g.getFlashStart (headerSize / 4) s.header) c₁.flash := by
    rw [hc₁, hf]
    refine Flash.after_write _ _ ?_
    have hhead := hg.headerSize_le
    have h2048 : headerSize = 2048 := rfl
    unfold Geometry.getFlashStart
    omega
  have hafter := hafter₁.trans (hwrote₂.after.trans hwrote₃.after)
  obtain ⟨ops, hops⟩ : ∃ ops, ops = programWords 4 g.getFlashStart (headerSize / 4) s.header ++ (ops₂ ++ ops₃) :=
    ⟨_, rfl⟩
  rw [← hops] at hafter
  have hcache' : s.writeStorage = { s with cache := c₃, history := s.history ++ [.wrote .format ops] } := by
    rw [hcache, ← hafter.drop]
    rfl
  refine ⟨c₃, ops, hcache', hwrote₃.nodup, hcoh₃, by rw [hmem₃]; exact slice_put _ _ _, ?_, ?_, fun b q hq => ?_,
    fun x h1 h2 => ?_⟩
  · have hs := slice_put f.mem g.logStart (newMetaData g.logEnd g.dataStart).bytes
    rw [newMetaData_length] at hs
    refine (slice_congr fun x h1 h2 => ?_).trans hs
    rw [hmem₃, put_of_lt _ _ (by omega), hmem₂, hmem₁]
  · have hhead := hg.headerSize_le
    have h2048 : headerSize = 2048 := rfl
    rw [hops]
    refine Within.append (fun o ho x hx => ⟨Nat.zero_le x, ?_⟩) (Within.append
      (Within.mono hwrote₂.within (Nat.zero_le _) ?_) (Within.mono hwrote₃.within (Nat.zero_le _) ?_))
    · have := (covers_of_mem_programWords ho hx).2
      unfold Geometry.getFlashStart at this
      omega
    · have := wordEnd_ge (g.logStart + (newMetaData g.logEnd g.dataStart).bytes.length)
      rw [newMetaData_length] at this ⊢
      omega
    · have := wordEnd_ge (g.journalStart + (List.replicate 8 '0'.toUInt8).length)
      rw [List.length_replicate] at this ⊢
      omega
  · rcases hwrote₃.loaded b q hq with hq | ht
    · have ht := (hwrote₂.loaded b q hq).resolve_left (hempty₁ b q)
      have := ht.2.1
      rw [newMetaData_length] at this
      omega
    · have := ht.2.1
      rw [List.length_replicate] at this
      omega
  · rw [hmem₃, put_of_not_mem _ _ (by rw [List.length_replicate]; omega), hmem₂,
      put_of_not_mem _ _ (by rw [newMetaData_length]; omega), hmem₁]

/-- `format` leaves a fresh log and records nothing but what it writes and erases. -/
theorem format_fresh (hg : g.Fits) (s : Log g) (fullErase : Bool) :
    Fresh (s.format fullErase) ∧ ∃ es, (s.format fullErase).history = s.history ++ es ∧ ∀ e ∈ es, FormatEvent e := by
  have hord := hg.order
  have hds := g.dataStart_eq
  have hjs := g.journalStart_eq
  have hps : 256 ≤ g.getPageSize := hg.block_le_page
  obtain ⟨s₀, hs₀⟩ : ∃ s₀ : Log g, s₀ = { s with
      startAddress := g.logStart, journalStart := g.journalStart, dataStart := g.dataStart, logEnd := g.logEnd
      journalPages := CONFIG_MICROBIT_LOG_JOURNAL_PAGES, journalHead := g.journalStart, dataEnd := g.dataStart
      initialized := false, rowStarted := false, full := false
      headingsChanged := false, headingStart := 0, headingLength := 0, rowData := []
      metaData := newMetaData g.logEnd g.dataStart } := ⟨_, rfl⟩
  have hformat : s.format fullErase = { (s₀.eraseStorage fullErase).writeStorage with initialized := true } := by
    rw [hs₀]
    rfl
  obtain ⟨es, heq, hes⟩ := eraseStorage_eq hg (s := s₀) (by rw [hs₀]) (by rw [hs₀]) fullErase
  obtain ⟨hblank, hmark⟩ := erased_mem hg s.cache.flash s.header fullErase
  obtain ⟨s₁, hs₁⟩ : ∃ s₁, s₁ = s₀.eraseStorage fullErase := ⟨_, rfl⟩
  rw [← hs₁] at heq hformat
  have hempty : ∀ b q, ¬s₁.cache.Loaded b q := by
    rw [heq]
    exact (clear_empty s₀.cache _).1
  obtain ⟨f, hf⟩ : ∃ f, f = s₁.cache.flash.write g.getFlashStart s₁.header (headerSize / 4) := ⟨_, rfl⟩
  have hf' := hf
  rw [heq, hs₀] at hf'
  dsimp only at hf' hblank hmark
  rw [← hf'] at hblank hmark
  obtain ⟨c, ops, hw, hnodup, hcoh, hentry, hok, hwithin, hloaded, hrest⟩ := writeStorage_spec hg hempty hf hblank (by rw [heq, hs₀])
    (by rw [heq, hs₀]) (by rw [heq, hs₀])
  have hformat : s.format fullErase = { s₀ with
      cache := c, initialized := true, history := s₀.history ++ es ++ [.wrote .format ops] } := by
    rw [hformat, hw, heq]
  have h8 : (8 : Nat) ∣ g.journalStart := (by decide : 8 ∣ 256).trans hg.block_dvd_journalStart
  rw [hformat, hs₀]
  refine ⟨⟨⟨rfl, rfl, rfl, rfl, Nat.le_refl _, Nat.le_of_lt hord.1, h8, Nat.le_refl _, ?_, hnodup⟩, rfl, rfl, rfl, rfl, rfl,
    rfl, hcoh, hok, ?_, hentry, ?_, ?_, ?_, hloaded⟩, es ++ [.wrote .format ops], List.append_assoc _ _ _, ?_⟩
  · change g.journalStart < _
    omega
  · exact fun x h1 h2 => (hrest x (by omega) (by omega)).trans (hblank x (by omega) (by omega))
  · exact fun x h1 h2 => (hrest x (by unfold metaDataSize; omega) (by omega)).trans (hblank x (by omega) (by omega))
  · exact fun x h1 h2 => (hrest x (by unfold metaDataSize; omega) (by omega)).trans (hblank x (by omega) (by omega))
  · change c.flash.mem _ = _ ∨ c.flash.mem _ = _
    rw [hrest _ (by unfold metaDataSize; omega) (by omega)]
    exact hmark
  · intro e he
    rcases List.mem_append.mp he with he | he
    · exact hes e he
    · rw [List.mem_singleton.mp he]
      exact ⟨rfl, hwithin⟩

/-- A new column is not recorded. -/
theorem addHeading_history (s : Log g) (k v : ManagedString) (head : Bool) :
    (s.addHeading k v head).history = s.history := by
  unfold addHeading
  split <;> rfl

/-- A column for the time is not recorded. -/
theorem applyTimeStamp_history (s : Log g) (f : TimeStampFormat) : (s.applyTimeStamp f).history = s.history := by
  unfold applyTimeStamp
  dsimp only
  split
  · rfl
  · exact addHeading_history _ _ _ _

/-- A value in a column is not recorded. -/
theorem setColumn_history (s : Log g) (key value : ManagedString) : (s.setColumn key value).history = s.history := by
  unfold setColumn
  dsimp only
  split
  · rfl
  · exact addHeading_history _ _ _ _

/-- A fresh log stays fresh. -/
theorem RamOnly.fresh {s s' : Log g} (hr : RamOnly s s') (h : s.Fresh) : s'.Fresh := by
  have hp := hr.placed h.placed
  rw [hr] at hp ⊢
  exact ⟨hp, h.initialized, h.full, h.dataEnd, h.journalHead, h.headingStart, h.headingLength, h.coherent, h.metaOk,
    h.headings, h.entry, h.journal, h.data, h.marker, h.loaded⟩

/-- `clear`, with the lock free, leaves a fresh log. -/
theorem clear_fresh (hg : g.Fits) {s : Log g} (hm : s.mutex = false) (fullErase : Bool) :
    ∃ s', s.clear fullErase = .ok s' ∧ Fresh s' ∧ s'.mutex = false ∧
      ∃ es, s'.history = s.history ++ es ∧ ∀ e ∈ es, FormatEvent e := by
  have hw : s.wait = .ok { s with mutex := true } := by simp [wait, hm]
  obtain ⟨hf, es, hhist, hes⟩ := format_fresh hg { s with mutex := true } fullErase
  obtain ⟨t, ht⟩ : ∃ t, t = ({ s with mutex := true } : Log g).format fullErase := ⟨_, rfl⟩
  rw [← ht] at hf hhist
  have hr : RamOnly t (t.applyTimeStamp t.timeStampFormat).notify := (applyTimeStamp_ramOnly _ _).trans rfl
  refine ⟨_, by unfold clear; rw [hw, ht]; rfl, hr.fresh hf, rfl, es, ?_, hes⟩
  exact (applyTimeStamp_history _ _).trans hhist

/-- A fresh log holds no text. -/
theorem Fresh.stored (hg : g.Fits) {s : Log g} (h : Fresh s) : s.Stored [] := by
  refine ⟨h.dataEnd, ⟨Nat.le_of_lt hg.order.1, rfl, ?_⟩, h.coherent.mono fun _ _ => trivial⟩
  rw [List.length_nil, Nat.add_zero, Geometry.pageEnd_of_dvd hg.pos g.page_dvd_dataStart]
  exact h.data.mono (Nat.le_refl _) (by omega)

/-! ## A log that is found -/

/-- The metadata written is read back. -/
theorem ofBytes_newMetaData (a b : Nat) : MicroBitLogMetaData.ofBytes (newMetaData a b).bytes = newMetaData a b := rfl

/-- The log once `isPresent` has found its metadata. -/
def found (s : Log g) : Log g :=
  { s with
    startAddress := g.logStart, journalStart := g.journalStart, dataStart := g.dataStart, logEnd := g.logEnd
    metaData :=
      { version := (newMetaData g.logEnd g.dataStart).version.set 17 0
        logEnd := (newMetaData g.logEnd g.dataStart).logEnd.set 10 0
        dataStart := (newMetaData g.logEnd g.dataStart).dataStart.set 10 0 } }

/-- Where the metadata stands, the log is present, with its layout. -/
theorem isPresent_of_metaOk (hg : g.Fits) {s : Log g} (hi : s.initialized = false) (hm : MetaOk g s.mem) :
    s.isPresent = (true, s.found) := by
  have hord := hg.order
  have hds := g.dataStart_eq
  have hjs := g.journalStart_eq
  have hpos := hg.pos
  have hbuffer : slice (s.cache.flash.read (fun k => s.metaData.bytes.getD k 0) g.logStart (metaDataSize / 4)) 0
      metaDataSize = (newMetaData g.logEnd g.dataStart).bytes := by
    rw [← hm]
    refine List.map_congr_left fun k hk => ?_
    have hk' : k < metaDataSize := List.mem_range.mp hk
    have h40 : metaDataSize = 40 := rfl
    unfold Flash.read
    rw [if_pos (by omega), Nat.zero_add, if_pos (by omega)]
  have hend : strtoul (cString ((newMetaData g.logEnd g.dataStart).logEnd.set 10 0)) = g.logEnd :=
    @strtoul_metaData g.logEnd (by omega)
  have hstart : strtoul (cString ((newMetaData g.logEnd g.dataStart).dataStart.set 10 0)) = g.dataStart :=
    @strtoul_metaData g.dataStart (by omega)
  have hversion : (((newMetaData g.logEnd g.dataStart).version.set 17 0).take 17 == MICROBIT_LOG_VERSION.take 17) =
      true := by
    change ((MICROBIT_LOG_VERSION.set 17 0).take 17 == MICROBIT_LOG_VERSION.take 17) = true
    decide
  unfold isPresent
  rw [if_neg (by simp [hi])]
  simp only [hbuffer, ofBytes_newMetaData, hend, hstart, hversion, ge_iff_le, Bool.and_true]
  refine Prod.ext ?_ rfl
  simp only [Bool.and_eq_true, decide_eq_true_eq]
  omega

end Log

end CodalMicrobit

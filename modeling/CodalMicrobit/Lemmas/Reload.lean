import CodalMicrobit.Lemmas.Load
import CodalMicrobit.Lemmas.Table

/-!
# Loading the headings

A later start reads the column headings from behind the metadata: it skips the zeroes of old ones, takes the bytes up to
the first erased one, and cuts them at the separators. Of a list of cells that is stored there it makes the same keys.
-/

namespace CodalMicrobit

open Nor Outcome FSCache

namespace Log

variable {g : Geometry}

/-! ## Reading the headings -/

/-- A scan stops at the first byte it looks for. -/
theorem scan_spec (hg : g.Fits) (stop : UInt8 → Bool) (k : Nat) : ∀ (s : Log g) (a : Nat) (c : UInt8) (fuel : Nat),
    s.cache.Faithful → a + k + 1 < g.getFlashEnd → (∀ j, j < k → stop (s.mem (a + j)) = false) →
    stop (s.mem (a + k)) = true → k < fuel →
    ∃ cache, s.scan stop a c fuel = .ok (a + k, s.mem (a + k), { s with cache }) ∧ Fills s.cache cache := by
  have hord := hg.order
  induction k with
  | zero =>
    intro s a c fuel h hin _ hstop hfuel
    obtain ⟨fuel, rfl⟩ := Nat.exists_eq_succ_of_ne_zero (show fuel ≠ 0 by omega)
    obtain ⟨bytes, cache, hread, hc, hbytes⟩ := cacheRead_spec hg h a [c]
    have hbytes : bytes = [s.mem a] := (hbytes (by rw [List.length_singleton]; omega)).trans (by simp [slice])
    refine ⟨cache, ?_, hc⟩
    unfold scan
    rw [hread, hbytes]
    exact if_pos hstop
  | succ k ih =>
    intro s a c fuel h hin hno hstop hfuel
    obtain ⟨fuel, rfl⟩ := Nat.exists_eq_succ_of_ne_zero (show fuel ≠ 0 by omega)
    obtain ⟨bytes, cache, hread, hc, hbytes⟩ := cacheRead_spec hg h a [c]
    have hbytes : bytes = [s.mem a] := (hbytes (by rw [List.length_singleton]; omega)).trans (by simp [slice])
    have hmem : cache.flash.mem = s.mem := by rw [hc.1]
    have hu : u32 (a + 1) = a + 1 := u32_of_lt (by omega)
    have hshift : ∀ j, a + 1 + j = a + (j + 1) := fun j => by omega
    obtain ⟨cache', heq, hc'⟩ := ih { s with cache } (a + 1) (s.mem a) fuel hc.2 (by omega)
      (fun j hj => by rw [LogState.mem, hmem, hshift]; exact hno (j + 1) (by omega))
      (by rw [LogState.mem, hmem, hshift]; exact hstop) (by omega)
    refine ⟨cache', ?_, hc.trans hc'⟩
    unfold scan
    rw [hread, hbytes]
    refine (if_neg ?_).trans ?_
    · rw [List.headD_cons, Bool.not_eq_true]
      exact hno 0 (by omega)
    · rw [List.headD_cons, hu, heq, LogState.mem, hmem, hshift]

/-- The comma and the line break are the separators. -/
theorem isSeparator_iff (b : UInt8) : isSeparator b = true ↔ b = ','.toUInt8 ∨ b = '\n'.toUInt8 := by
  rw [isSeparator, Bool.or_eq_true, beq_iff_eq, beq_iff_eq]

/-- The headings with the separators replaced by terminators, as `init` cuts them. -/
def terminated (headers : List UInt8) : List UInt8 := headers.map fun b => if isSeparator b then 0 else b

/-- A cell ends at no separator inside. -/
theorem terminated_cell {t : List UInt8} (h : IsCell t) : terminated t = t ∧ t.countP isSeparator = 0 := by
  have hno : ∀ b ∈ t, isSeparator b = false := by
    intro b hb
    by_contra hs
    rcases (isSeparator_iff b).mp (Bool.not_eq_false _ ▸ hs) with rfl | rfl
    · exact h.comma hb
    · exact h.newline hb
  refine ⟨?_, List.countP_eq_zero.mpr fun b hb => by rw [hno b hb]; exact Bool.false_ne_true⟩
  unfold terminated
  conv_rhs => rw [← List.map_id t]
  exact List.map_congr_left fun b hb => by rw [hno b hb]; rfl

/-- A cell and what follows its separator. -/
theorem parseKeys_cons {t : List UInt8} (h : IsCell t) (rest : List UInt8) (count : Nat) :
    parseKeys (t ++ 0 :: rest) (count + 1) = t :: parseKeys rest count := by
  have hs : cString (t ++ 0 :: rest) = t := by
    unfold cString
    rw [List.takeWhile_append_of_pos, List.takeWhile_cons, if_neg (by decide), List.append_nil]
    exact fun b hb => decide_eq_true fun h0 : b = 0 => h.nul (h0 ▸ hb)
  have hd : (t ++ 0 :: rest).drop (t.length + 1) = rest := by
    rw [List.drop_append, List.drop_eq_nil_of_le (by omega), Nat.add_sub_cancel_left]
    rfl
  rw [parseKeys, hs, hd]

/-- Of a stored line of cells, `init` makes the cells. -/
theorem parseKeys_csvLine {keys : List ManagedString} (h : ∀ key ∈ keys, IsCell key) (hne : keys ≠ []) :
    parseKeys (terminated (csvLine keys)) ((csvLine keys).countP isSeparator) = keys := by
  have happend : ∀ a b, terminated (a ++ b) = terminated a ++ terminated b := fun a b => List.map_append
  induction keys with
  | nil => exact absurd rfl hne
  | cons key keys ih =>
    obtain ⟨ht, hc⟩ := terminated_cell (h key List.mem_cons_self)
    cases keys with
    | nil =>
      have hline : csvLine [key] = key ++ ['\n'.toUInt8] := by simp [csvLine]
      rw [hline, happend, ht, List.countP_append, hc]
      exact parseKeys_cons (h key List.mem_cons_self) [] 0
    | cons key' keys =>
      have hline : csvLine (key :: key' :: keys) = key ++ ([','.toUInt8] ++ csvLine (key' :: keys)) := by
        rw [csvLine_eq, csvLine_eq, List.intercalate_cons_cons]
        simp only [List.append_assoc]
      have hsep : terminated [','.toUInt8] = [0] := by decide
      have hone : [','.toUInt8].countP isSeparator = 1 := by decide
      rw [hline, happend, happend, ht, hsep, List.countP_append, List.countP_append, hc, hone, Nat.zero_add, Nat.add_comm]
      change parseKeys (key ++ 0 :: terminated (csvLine (key' :: keys))) (_ + 1) = _
      rw [parseKeys_cons (h key List.mem_cons_self)]
      rw [ih (fun k hk => h k (List.mem_cons_of_mem _ hk)) (List.cons_ne_nil _ _)]

/-- The place for the headings holds exactly the list. -/
structure Place (g : Geometry) (m : Memory) (h : ManagedString) : Prop where
  lt : g.logStart + metaDataSize + h.length < g.journalStart
  bytes : slice m (g.logStart + metaDataSize) h.length = h
  rest : Blank m (g.logStart + metaDataSize + h.length) g.journalStart

/-- Each byte of the headings is in its place. -/
theorem Place.getElem {m : Memory} {h : ManagedString} (hp : Place g m h) {k : Nat} (hk : k < h.length) :
    m (g.logStart + metaDataSize + k) = h[k] := by
  have hb := slice_getElem m (g.logStart + metaDataSize) h.length k (by rw [slice_length]; exact hk)
  rw [← hb]
  exact List.getElem_of_eq hp.bytes _

/-- A 32-bit address is in the address space. -/
theorem lt_addressSpace {k : Nat} (h : k < 2 ^ 32) : k < addressSpace := by
  unfold addressSpace
  exact h

/-- Loading is a scan for the start, one for the end, and the cutting. -/
theorem loadHeadings_eq {s s₁ s₂ : Log g} {a e : Nat} {c : UInt8}
    (h₁ : s.scan (· != 0) (s.startAddress + metaDataSize) 0 addressSpace = .ok (a, c, s₁))
    (h₂ : s₁.headingEnd a c = .ok (e, s₂)) : s.loadHeadings = .ok (s₂.parseHeadings a (u32sub e a)) := by
  unfold loadHeadings
  rw [h₁]
  change (s₁.headingEnd a c >>= _) = _
  rw [h₂]
  rfl

/-- Where nothing is stored, no headings are loaded. -/
theorem loadHeadings_nil (hg : g.Fits) {s : Log g} (h : s.cache.Faithful) (hs : s.startAddress = g.logStart)
    (hp : Place g s.mem []) : ∃ t, s.loadHeadings = .ok t ∧ t.rowData = s.rowData := by
  have hord := hg.order
  have hds := g.dataStart_eq
  have hlt := hp.lt
  rw [List.length_nil, Nat.add_zero] at hlt
  have hblank : s.mem (g.logStart + metaDataSize) = 0xFF := hp.rest _ (Nat.le_refl _) hlt
  obtain ⟨c, hscan, -⟩ := scan_spec hg (· != 0) 0 s (g.logStart + metaDataSize) 0 addressSpace h (by omega)
    (fun j hj => absurd hj (Nat.not_lt_zero j)) (by rw [Nat.add_zero, hblank]; decide) (lt_addressSpace (by decide))
  rw [Nat.add_zero, hblank, ← hs] at hscan
  refine ⟨_, loadHeadings_eq hscan (if_pos rfl), ?_⟩
  rw [u32sub_of_le (Nat.le_refl _), Nat.sub_self]
  rfl

/-- Where a line of cells is stored, without a byte that could be taken for an erased one, its cells are loaded. -/
theorem loadHeadings_csvLine (hg : g.Fits) {s : Log g} (h : s.cache.Faithful) (hs : s.startAddress = g.logStart)
    {keys : List ManagedString} (hk : ∀ key ∈ keys, IsCell key) (hne : keys ≠ []) (hff : blank ∉ csvLine keys)
    (hp : Place g s.mem (csvLine keys)) : ∃ t, s.loadHeadings = .ok t ∧ t.rowData.map (·.key) = keys := by
  have hord := hg.order
  have hds := g.dataStart_eq
  have hlt := hp.lt
  obtain ⟨line, hline⟩ : ∃ line, line = csvLine keys := ⟨_, rfl⟩
  rw [← hline] at hff hp hlt
  obtain ⟨a, ha⟩ : ∃ a, a = g.logStart + metaDataSize := ⟨_, rfl⟩
  have hpos : 0 < line.length := by
    rw [hline, csvLine_eq, List.length_append, List.length_singleton]
    omega
  have hbyte : ∀ k (hk : k < line.length), s.mem (a + k) = (line)[k] := fun k hk => ha ▸ hp.getElem hk
  have hnul : (0 : UInt8) ∉ line := hline ▸ not_mem_csvLine (fun f hf => (hk f hf).nul) (by decide) (by decide)
  have hne0 : ∀ k, k < line.length → s.mem (a + k) ≠ 0 := fun k hk h0 =>
    hnul (List.mem_iff_getElem.mpr ⟨k, hk, (hbyte k hk).symm.trans h0⟩)
  have hneff : ∀ k, k < line.length → s.mem (a + k) ≠ 0xFF := fun k hk h0 =>
    hff (List.mem_iff_getElem.mpr ⟨k, hk, (hbyte k hk).symm.trans h0⟩)
  rw [← ha] at hlt
  have hlast : s.mem (a + line.length) = blank := hp.rest _ (by omega) (by omega)
  have hshift : ∀ j, a + 1 + j = a + (j + 1) := fun j => by omega
  -- the first byte is the first one of the line
  obtain ⟨c, hscan, hc⟩ := scan_spec hg (· != 0) 0 s a 0 addressSpace h (by omega)
    (fun j hj => absurd hj (Nat.not_lt_zero j)) (bne_iff_ne.mpr (hne0 0 hpos)) (lt_addressSpace (by decide))
  rw [Nat.add_zero] at hscan
  have hmem : c.flash.mem = s.mem := by rw [hc.1]
  -- and the first erased one is that behind it
  obtain ⟨c', hscan', hc'⟩ := scan_spec hg (· == 0xFF) (line.length - 1) { s with cache := c } (a + 1) (s.mem a)
    addressSpace hc.2 (by omega)
    (fun j hj => by
      rw [LogState.mem, hmem, hshift]
      exact beq_eq_false_iff_ne.mpr (hneff (j + 1) (by omega)))
    (by rw [LogState.mem, hmem, hshift, Nat.sub_add_cancel hpos, hlast]; decide) (lt_addressSpace (by omega))
  rw [hshift, Nat.sub_add_cancel hpos] at hscan'
  have hend : ({ s with cache := c } : Log g).headingEnd a (s.mem a) = .ok (a + line.length, { s with cache := c' }) := by
    unfold headingEnd
    rw [if_neg (show s.mem a ≠ 0xFF from hneff 0 hpos), u32_of_lt (by omega), hscan']
    rfl
  have hmem' : c'.flash.mem = s.mem := by rw [hc'.1, hmem]
  obtain ⟨bytes, c'', hread, -, hbytes⟩ := cacheRead_spec hg
    (s := { s with cache := c', headingLength := line.length }) hc'.2 a (List.replicate line.length 0)
  have hbytes : bytes = line := by
    rw [hbytes (by rw [List.length_replicate]; omega), List.length_replicate, LogState.mem, hmem', ha]
    exact hp.bytes
  have hscan₀ : s.scan (· != 0) (s.startAddress + metaDataSize) 0 addressSpace =
      .ok (a, s.mem a, { s with cache := c }) := by
    have ha' : s.startAddress + metaDataSize = a := by rw [hs, ha]
    rw [ha']
    exact hscan
  refine ⟨_, loadHeadings_eq hscan₀ hend, ?_⟩
  rw [u32sub_of_le (by omega), Nat.add_sub_cancel_left]
  unfold parseHeadings
  dsimp only
  rw [if_pos hpos, hread, hbytes]
  change ((parseKeys (terminated line) (line.countP isSeparator)).map fun key => ({ key } : ColumnEntry)).map _ = keys
  rw [List.map_map, hline, parseKeys_csvLine hk hne]
  exact List.map_id keys

/-- A later start of a log whose metadata is there finds the log, and loads the stored headings. -/
theorem init_keys (hg : g.Fits) {s : Log g} (hm : MetaOk g s.mem) {keys : List ManagedString}
    (hk : ∀ key ∈ keys, IsCell key) (hff : blank ∉ csvLine keys)
    (hp : Place g s.mem (if keys = [] then [] else csvLine keys)) :
    ∃ t, s.reboot.init = .ok t ∧ t.rowData.map (·.key) = keys := by
  have hf : s.reboot.cache.Faithful := faithful_of_empty fun _ => rfl
  have hinit : s.reboot.init = s.reboot.found.load := by
    unfold init
    rw [if_neg (show ¬s.reboot.initialized = true from Bool.false_ne_true),
      @isPresent_of_metaOk _ hg s.reboot rfl hm]
  obtain ⟨s₁, hs₁⟩ : ∃ s₁, s₁ = s.reboot.found.note (.loading s.reboot.found.toLogState) := ⟨_, rfl⟩
  have hf₁ : s₁.cache.Faithful := by rw [hs₁]; exact hf
  have hl : s₁.LaidOut := hs₁ ▸ ⟨rfl, rfl, rfl, rfl⟩
  obtain ⟨c, pages, head, -, e, hend, hc, -⟩ := loadDataEnd_spec hg hf₁ hl (Q := fun _ => True) trivial fun _ _ => trivial
  obtain ⟨s₂, hs₂⟩ : ∃ s₂, s₂ = s₁.loadDataEnd := ⟨_, rfl⟩
  have hmem : s₂.mem = s.mem := by
    rw [hs₂, hend, LogState.mem]
    dsimp only
    rw [hc.1, hs₁]
    rfl
  have hstart : s₂.startAddress = g.logStart := by
    rw [hs₂, hend, hs₁]
    rfl
  have hf₂ : s₂.cache.Faithful := by
    rw [hs₂, hend]
    exact hc.2
  have hrow : s₂.rowData = [] := by
    rw [hs₂, hend, hs₁]
    rfl
  have hload : ∀ {t : Log g}, s₂.loadHeadings = .ok t → s.reboot.init = .ok { t with initialized := true } := by
    intro t ht
    rw [hinit]
    unfold load
    rw [← hs₁, ← hs₂, ht]
    rfl
  rw [← hmem] at hp
  by_cases hne : keys = []
  · rw [if_pos hne] at hp
    obtain ⟨t, ht, htrow⟩ := loadHeadings_nil hg hf₂ hstart hp
    refine ⟨_, hload ht, ?_⟩
    rw [hne, htrow, hrow]
    rfl
  · rw [if_neg hne] at hp
    obtain ⟨t, ht, htrow⟩ := loadHeadings_csvLine hg hf₂ hstart hk hne hff hp
    exact ⟨_, hload ht, htrow⟩

end Log

end CodalMicrobit

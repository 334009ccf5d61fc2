import CodalMicrobit.Lemmas.Volume
import CodalMicrobit.Lib.Ring

/-!
# The pages of a file system

A page of the flash holds sixteen blocks. `getFreePage` goes around the pages, from the one after the last block that was
allocated, and takes the first without a live block; on its way it notes the first page that has a deleted block in front
of its first live one.
-/

namespace CodalMicrobit

open Nor Outcome

/-- A file system that fits its place: whole pages, a table with an entry for every block, block numbers below the marks of the
table, and a scratch page outside. -/
structure Layout.Sound (L : Layout) : Prop where
  aligned : L.fileSystemTable % MICROBIT_CODEPAGESIZE = 0
  whole : L.fileSystemSize % blocksPerPage = 0
  size_le : L.fileSystemSize ≤ MBFS_EOF
  holds : 2 * L.fileSystemSize ≤ L.fileSystemTableSize * MBFS_BLOCK_SIZE
  table_lt : L.fileSystemTableSize < L.fileSystemSize
  root : L.rootDirectory = L.getBlock L.fileSystemTableSize
  top : L.getBlock L.fileSystemSize ≤ 2 ^ 32
  scratch : L.MICROBIT_DEFAULT_SCRATCH_PAGE % MICROBIT_CODEPAGESIZE = 0
  scratch_ne : L.MICROBIT_DEFAULT_SCRATCH_PAGE ≠ 0
  outside : L.MICROBIT_DEFAULT_SCRATCH_PAGE + MICROBIT_CODEPAGESIZE ≤ L.fileSystemTable ∨
    L.getBlock L.fileSystemSize ≤ L.MICROBIT_DEFAULT_SCRATCH_PAGE

/-- Sixteen blocks to a page. -/
theorem blocksPerPage_eq : blocksPerPage = 16 := rfl

namespace Layout

variable {L : Layout}

/-- The pages of the file system. -/
def pages (L : Layout) : Nat := L.fileSystemSize / blocksPerPage

/-- The file system is made of whole pages. -/
theorem Sound.size_eq (h : L.Sound) : L.fileSystemSize = 16 * L.pages := by
  have := h.whole
  unfold pages
  rw [blocksPerPage_eq] at *
  omega

/-- The file system has a page. -/
theorem Sound.pages_pos (h : L.Sound) : 0 < L.pages := by
  have := h.size_eq
  have := h.table_lt
  omega

/-- Block numbers fit in 16 bits. -/
theorem Sound.size_lt (h : L.Sound) : L.fileSystemSize < 2 ^ 16 := h.size_le.trans_lt (by decide)

/-- The table has an entry for every block. -/
theorem Sound.entry_lt (h : L.Sound) {b : Nat} (hb : b < L.fileSystemSize) : b < 128 * L.fileSystemTableSize := by
  have := h.holds
  unfold MBFS_BLOCK_SIZE at this
  omega

/-- The page of a block starts with a block. -/
theorem Sound.getPage_eq (h : L.Sound) (b : Nat) : L.getPage b = L.getBlock (16 * (b / 16)) := by
  have := h.aligned
  unfold getPage getBlock MBFS_BLOCK_SIZE MICROBIT_CODEPAGESIZE at *
  omega

/-- The first block of the page of a block is on the same page. -/
theorem Sound.getPage_first (h : L.Sound) (b : Nat) : L.getPage (16 * (b / 16)) = L.getPage b := by
  rw [h.getPage_eq, h.getPage_eq, Nat.mul_div_cancel_left _ (by decide)]

/-- The number of a block's address is the block. -/
theorem Sound.getBlockNumber_getBlock (h : L.Sound) {b : Nat} (hb : b < L.fileSystemSize) :
    L.getBlockNumber (L.getBlock b) = b :=
  L.getBlockNumber_getBlock (hb.trans h.size_lt)

/-- The block at the start of the page of a block, as `getFreePage` and `recycleBlock` compute it. -/
theorem Sound.pageNumber (h : L.Sound) {b : Nat} (hb : b < L.fileSystemSize) :
    L.getBlockNumber (L.getPage b) = 16 * (b / 16) := by
  rw [h.getPage_eq]
  exact h.getBlockNumber_getBlock (by omega)

end Layout

/-- `init` makes such a file system where it finds none, if it is given a place for it. -/
theorem FSConfig.layout_sound (c : FSConfig) {m : Memory} {flashStart flashPages : Nat}
    (hnew : isFileSystem m flashStart = false) (haligned : flashStart % MICROBIT_CODEPAGESIZE = 0) (hpos : 0 < flashPages)
    (hsize : flashPages * blocksPerPage ≤ MBFS_EOF) (htop : flashStart + flashPages * MICROBIT_CODEPAGESIZE ≤ 2 ^ 32)
    (hscratch : c.MICROBIT_DEFAULT_SCRATCH_PAGE % MICROBIT_CODEPAGESIZE = 0) (hne : c.MICROBIT_DEFAULT_SCRATCH_PAGE ≠ 0)
    (hout : c.MICROBIT_DEFAULT_SCRATCH_PAGE + MICROBIT_CODEPAGESIZE ≤ flashStart ∨
      flashStart + flashPages * MICROBIT_CODEPAGESIZE ≤ c.MICROBIT_DEFAULT_SCRATCH_PAGE) :
    (c.layout m flashStart flashPages).Sound := by
  have htable : 2 * (flashPages * blocksPerPage) ≤ calculateFileTableSize (flashPages * blocksPerPage) * MBFS_BLOCK_SIZE ∧
      calculateFileTableSize (flashPages * blocksPerPage) < flashPages * blocksPerPage := by
    unfold calculateFileTableSize MBFS_BLOCK_SIZE MBFS_EOF at *
    rw [blocksPerPage_eq] at *
    split <;> omega
  have hend : flashStart + flashPages * blocksPerPage * MBFS_BLOCK_SIZE = flashStart + flashPages * MICROBIT_CODEPAGESIZE := by
    rw [Nat.mul_assoc]
    rfl
  unfold FSConfig.layout
  rw [hnew]
  exact
    { aligned := haligned
      whole := Nat.mul_mod_left _ _
      size_le := hsize
      holds := htable.1
      table_lt := htable.2
      root := rfl
      top := by
        change flashStart + flashPages * blocksPerPage * MBFS_BLOCK_SIZE ≤ 2 ^ 32
        rwa [hend]
      scratch := hscratch
      scratch_ne := hne
      outside := by
        change _ ∨ flashStart + flashPages * blocksPerPage * MBFS_BLOCK_SIZE ≤ _
        rwa [hend] }

namespace Volume

variable {L : Layout}

/-- Two blocks have two addresses. -/
theorem getBlock_inj {a b : Nat} (h : L.getBlock a = L.getBlock b) : a = b := by
  unfold Layout.getBlock MBFS_BLOCK_SIZE at h
  omega

/-- The default scratch page is not one of the file system. -/
theorem scratch_ne_getBlock (hL : L.Sound) {b : Nat} (hb : b < L.fileSystemSize) :
    L.MICROBIT_DEFAULT_SCRATCH_PAGE ≠ L.getBlock b := by
  have := hL.outside
  unfold Layout.getBlock MBFS_BLOCK_SIZE MICROBIT_CODEPAGESIZE at *
  omega

/-- The block is in use. -/
def Live (v : Volume L) (b : Nat) : Prop := ¬L.Reusable v.flash b

/-- No block of the page that starts with block `page` is in use. -/
def Empty (v : Volume L) (page : Nat) : Prop := ∀ i < blocksPerPage, ¬v.Live (page + i)

/-- The page has a deleted block in front of its first block in use. -/
def Recyclable (v : Volume L) (page : Nat) : Prop :=
  ∃ i < blocksPerPage, v.table (page + i) = MBFS_DELETED ∧ ∀ j < i, ¬v.Live (page + j)

/-- The chains of the directory entries are apart from each other and from the table, and no other block is in use. `entries`
are the valid entries of all directories. -/
structure TableInvariant (v : Volume L) (entries : List Nat) : Prop where
  table : ∀ b < L.fileSystemTableSize, v.table b = L.fileSystemTableSize
  root : L.rootDirectory ∈ entries
  valid : ∀ d ∈ entries, isValid v.flash d = true
  apart : (entries.flatMap fun d => L.chain v.flash (firstBlockAt v.flash d) L.fileSystemSize).Nodup
  inside : ∀ b ∈ entries.flatMap fun d => L.chain v.flash (firstBlockAt v.flash d) L.fileSystemSize,
    L.fileSystemTableSize ≤ b ∧ b < L.fileSystemSize
  live : ∀ b < L.fileSystemSize, v.Live b → b < L.fileSystemTableSize ∨
    b ∈ entries.flatMap fun d => L.chain v.flash (firstBlockAt v.flash d) L.fileSystemSize

instance (m : Memory) (b : Nat) : Decidable (L.Reusable m b) := inferInstanceAs (Decidable (_ ∨ _))

instance (v : Volume L) (b : Nat) : Decidable (v.Live b) := inferInstanceAs (Decidable (¬L.Reusable v.flash b))

instance (v : Volume L) (page : Nat) : Decidable (v.Empty page) :=
  inferInstanceAs (Decidable (∀ i < blocksPerPage, ¬v.Live (page + i)))

instance (v : Volume L) (page : Nat) : Decidable (v.Recyclable page) :=
  inferInstanceAs (Decidable (∃ i < blocksPerPage, v.table (page + i) = MBFS_DELETED ∧ ∀ j < i, ¬v.Live (page + j)))

/-- A block is in use when its entry is neither deleted nor unused. -/
theorem live_iff (v : Volume L) (b : Nat) : v.Live b ↔ v.table b ≠ MBFS_DELETED ∧ v.table b ≠ MBFS_UNUSED := by
  unfold Live Layout.Reusable table
  rw [not_or]
  exact and_comm

/-- The places of a range up to the first where a test fails. -/
theorem takeWhile_range (p : Nat → Bool) (n : Nat) :
    ∃ k ≤ n, (List.range n).takeWhile p = List.range k ∧ (∀ i < k, p i = true) ∧ (k = n ∨ p k = false) := by
  induction n with
  | zero => exact ⟨0, Nat.le_refl 0, rfl, nofun, Or.inl rfl⟩
  | succ n ih =>
    obtain ⟨k, hk, htake, hall, hend⟩ := ih
    rw [List.range_succ, List.takeWhile_append, htake, List.length_range, List.length_range]
    by_cases hkn : k = n
    · subst hkn
      rw [if_pos rfl]
      by_cases hp : p k = true
      · refine ⟨k + 1, Nat.le_refl _, ?_, fun i hi => ?_, Or.inl rfl⟩
        · rw [List.takeWhile_cons_of_pos hp, List.takeWhile_nil, List.range_succ]
        · rcases Nat.lt_succ_iff_lt_or_eq.mp hi with hi | rfl
          · exact hall i hi
          · exact hp
      · refine ⟨k, Nat.le_succ k, ?_, hall, Or.inr (by simpa using hp)⟩
        rw [List.takeWhile_cons_of_neg hp, List.append_nil]
    · rw [if_neg hkn]
      exact ⟨k, Nat.le_succ_of_le hk, rfl, hall, Or.inr (hend.resolve_left hkn)⟩

/-- What the scan of a page finds. -/
theorem scanPage_spec (v : Volume L) (page : Nat) :
    ((v.scanPage page).1 = true ↔ v.Recyclable page) ∧ ((v.scanPage page).2 = true ↔ v.Empty page) := by
  obtain ⟨k, hk, htake, hall, hend⟩ := takeWhile_range
    (fun i => decide ¬(v.table (page + i) ≠ MBFS_DELETED ∧ v.table (page + i) ≠ MBFS_UNUSED)) blocksPerPage
  have hall' : ∀ i < k, ¬v.Live (page + i) := fun i hi hl => by
    have := hall i hi
    rw [decide_eq_true_eq] at this
    exact this ((live_iff _ _).mp hl)
  have hend' : k = blocksPerPage ∨ v.Live (page + k) := hend.imp_right fun h => by
    rw [decide_eq_false_iff_not, not_not] at h
    exact (live_iff _ _).mpr h
  unfold scanPage
  dsimp only
  rw [htake, List.length_range]
  refine ⟨?_, ?_⟩
  · simp only [List.any_eq_true, List.mem_range, decide_eq_true_eq]
    refine ⟨?_, ?_⟩
    · rintro ⟨i, hi, hd⟩
      exact ⟨i, by omega, hd, fun j hj => hall' j (by omega)⟩
    · rintro ⟨i, hi, hd, hj⟩
      refine ⟨i, ?_, hd⟩
      by_contra hki
      rcases hend' with h | h
      · omega
      · rcases Nat.lt_or_eq_of_le (Nat.le_of_not_lt hki) with hlt | heq
        · exact hj k hlt h
        · rw [heq] at h
          exact h (Or.inr hd)
  · rw [decide_eq_true_eq]
    refine ⟨fun h i hi => hall' i (by omega), fun h => ?_⟩
    rcases hend' with h' | h'
    · exact h'
    · rcases Nat.lt_or_eq_of_le hk with hlt | heq
      · exact absurd h' (h k hlt)
      · exact heq

/-- The first blocks of `r` pages from the one with number `k` on, going around. -/
def around (L : Layout) (k r : Nat) : List Nat := (List.range r).map fun j => 16 * ((k + j) % L.pages)

theorem around_succ {k : Nat} (hk : k < L.pages) (r : Nat) :
    around L k (r + 1) = 16 * k :: around L ((k + 1) % L.pages) r := by
  unfold around
  rw [List.range_succ_eq_map, List.map_cons, List.map_map, Nat.add_zero, Nat.mod_eq_of_lt hk]
  congr 1
  refine List.map_congr_left fun j _ => ?_
  rw [Function.comp_apply, Nat.mod_add_mod, Nat.succ_eq_add_one, Nat.add_right_comm, Nat.add_assoc]

/-- The pages of a round, by their distance from the first. -/
theorem mem_around {k r p : Nat} : p ∈ around L k r ↔ ∃ j < r, p = 16 * ((k + j) % L.pages) := by
  simp only [around, List.mem_map, List.mem_range, eq_comm]

/-- The pages that `getFreePage` comes to: all but the current one, in order. -/
def others (v : Volume L) : List Nat := around L ((v.lastBlockAllocated / 16 + 1) % L.pages) (L.pages - 1)

/-- The page without a live block that `getFreePage` takes, if there is one. -/
def emptyPage (v : Volume L) : Option Nat := v.others.find? fun p => v.Empty p

/-- The page that `getFreePage` notes. -/
def notedPage (v : Volume L) : Option Nat := v.others.find? fun p => v.Recyclable p ∧ p ≠ 0

/-- The pages looked at are all but the one of the last block allocated. -/
theorem mem_others {v : Volume L} (hL : L.Sound) (hlast : v.lastBlockAllocated < L.fileSystemSize) {p : Nat} :
    p ∈ v.others ↔ ∃ k < L.pages, k ≠ v.lastBlockAllocated / 16 ∧ p = 16 * k := by
  have hsize := hL.size_eq
  unfold others
  rw [mem_around]
  generalize hc : v.lastBlockAllocated / 16 = c
  have hcp : c < L.pages := by omega
  refine ⟨?_, ?_⟩
  · rintro ⟨j, hj, rfl⟩
    refine ⟨_, Nat.mod_lt _ hL.pages_pos, ?_, rfl⟩
    rw [Nat.mod_add_mod, Ring.mod_eq (by omega)]
    split <;> omega
  · rintro ⟨k, hk, hne, rfl⟩
    rcases Nat.lt_or_ge c k with h | h
    · refine ⟨k - (c + 1), by omega, ?_⟩
      rw [Nat.mod_add_mod, show c + 1 + (k - (c + 1)) = k by omega, Nat.mod_eq_of_lt hk]
    · refine ⟨k + L.pages - (c + 1), by omega, ?_⟩
      rw [Nat.mod_add_mod, show c + 1 + (k + L.pages - (c + 1)) = k + L.pages by omega, Nat.add_mod_right,
        Nat.mod_eq_of_lt hk]

/-- The empty page found is empty and not that of the last block allocated. -/
theorem of_emptyPage {v : Volume L} (hL : L.Sound) (hlast : v.lastBlockAllocated < L.fileSystemSize) {p : Nat}
    (h : v.emptyPage = some p) : ∃ k < L.pages, k ≠ v.lastBlockAllocated / 16 ∧ p = 16 * k ∧ v.Empty (16 * k) := by
  obtain ⟨k, hk, hne, rfl⟩ := (mem_others hL hlast).mp (List.mem_of_find?_eq_some h)
  exact ⟨k, hk, hne, rfl, by simpa using List.find?_some h⟩

/-- No empty page is found exactly when no other page is empty. -/
theorem emptyPage_eq_none {v : Volume L} (hL : L.Sound) (hlast : v.lastBlockAllocated < L.fileSystemSize) :
    v.emptyPage = none ↔ ∀ k < L.pages, k ≠ v.lastBlockAllocated / 16 → ¬v.Empty (16 * k) := by
  unfold emptyPage
  rw [List.find?_eq_none]
  refine ⟨fun h k hk hne => ?_, fun h p hp => ?_⟩
  · simpa using h _ ((mem_others hL hlast).mpr ⟨k, hk, hne, rfl⟩)
  · obtain ⟨k, hk, hne, rfl⟩ := (mem_others hL hlast).mp hp
    simpa using h k hk hne

/-- The page noted can be recycled and is neither the table's nor that of the last block allocated. -/
theorem of_notedPage {v : Volume L} (hL : L.Sound) (hlast : v.lastBlockAllocated < L.fileSystemSize) {p : Nat}
    (h : v.notedPage = some p) :
    ∃ k < L.pages, k ≠ v.lastBlockAllocated / 16 ∧ k ≠ 0 ∧ p = 16 * k ∧ v.Recyclable (16 * k) := by
  obtain ⟨k, hk, hne, rfl⟩ := (mem_others hL hlast).mp (List.mem_of_find?_eq_some h)
  obtain ⟨hr, h0⟩ : v.Recyclable (16 * k) ∧ 16 * k ≠ 0 := by simpa using List.find?_some h
  exact ⟨k, hk, hne, by omega, rfl, hr⟩

/-- No page is noted exactly when no such page can be recycled. -/
theorem notedPage_eq_none {v : Volume L} (hL : L.Sound) (hlast : v.lastBlockAllocated < L.fileSystemSize) :
    v.notedPage = none ↔ ∀ k < L.pages, k ≠ v.lastBlockAllocated / 16 → k ≠ 0 → ¬v.Recyclable (16 * k) := by
  unfold notedPage
  rw [List.find?_eq_none]
  refine ⟨fun h k hk hne h0 hr => ?_, fun h p hp => ?_⟩
  · have := h _ ((mem_others hL hlast).mpr ⟨k, hk, hne, rfl⟩)
    exact this (decide_eq_true ⟨hr, by omega⟩)
  · obtain ⟨k, hk, hne, rfl⟩ := (mem_others hL hlast).mp hp
    intro hr
    obtain ⟨hr, h0⟩ : v.Recyclable (16 * k) ∧ 16 * k ≠ 0 := by simpa using hr
    exact h k hk hne (by omega) hr

/-- A step of `getFreePage` to the next page. -/
theorem next_page (hL : L.Sound) (k : Nat) :
    (16 * k + blocksPerPage) % L.fileSystemSize % 2 ^ 16 = 16 * ((k + 1) % L.pages) := by
  have hlt := hL.size_lt
  have hsize := hL.size_eq
  have hmod := Nat.mod_lt (k + 1) hL.pages_pos
  rw [blocksPerPage_eq, hsize, show 16 * k + 16 = 16 * (k + 1) from rfl, Nat.mul_mod_mul_left]
  exact Nat.mod_eq_of_lt (by omega)

/-- What `getFreePage` finds in the `r` pages from number `k` on, up to the current one. -/
theorem findPage_spec (hL : L.Sound) (v : Volume L) {c : Nat} (fuel : Nat) : ∀ (r k recyclable : Nat),
    k < L.pages → (k + r) % L.pages = c → (∀ j < r, (k + j) % L.pages ≠ c) → r < fuel →
      ∃ noted, v.findPage (16 * c) (16 * k) recyclable fuel = .ok ((around L k r).find? fun p => v.Empty p, noted) ∧
        (((around L k r).find? fun p => v.Empty p) = none →
          noted = if recyclable ≠ 0 then recyclable
            else ((around L k r).find? fun p => v.Recyclable p ∧ p ≠ 0).getD 0) := by
  induction fuel with
  | zero => exact fun r k recyclable _ _ _ h => absurd h (Nat.not_lt_zero r)
  | succ fuel ih =>
    intro r k recyclable hk hr hne hfuel
    obtain ⟨hrec, hempty⟩ := scanPage_spec v (16 * k)
    cases r with
    | zero =>
      rw [Nat.add_zero, Nat.mod_eq_of_lt hk] at hr
      refine ⟨recyclable, by rw [findPage, if_pos (by rw [hr])]; rfl, fun _ => ?_⟩
      split
      · rfl
      · rename_i h0
        exact not_not.mp h0
    | succ r =>
      have hkc : k ≠ c := by
        have := hne 0 (Nat.succ_pos r)
        rwa [Nat.add_zero, Nat.mod_eq_of_lt hk] at this
      rw [findPage, if_neg (by omega), around_succ hk]
      dsimp only
      by_cases he : v.Empty (16 * k)
      · rw [if_pos (hempty.mpr he), List.find?_cons_of_pos (by simpa using he)]
        exact ⟨recyclable, rfl, nofun⟩
      · rw [if_neg (fun h => he (hempty.mp h)), next_page hL k, List.find?_cons_of_neg (by simpa using he)]
        obtain ⟨noted, hrun, hnote⟩ := ih r ((k + 1) % L.pages)
          (if (v.scanPage (16 * k)).1 = true ∧ recyclable = 0 then 16 * k else recyclable)
          (Nat.mod_lt _ hL.pages_pos) (by rw [Nat.mod_add_mod, Nat.add_right_comm]; exact hr)
          (fun j hj => by
            rw [Nat.mod_add_mod, Nat.add_right_comm]
            exact hne (j + 1) (by omega)) (by omega)
        refine ⟨noted, hrun, fun hf => ?_⟩
        rw [hnote hf]
        by_cases h0 : recyclable = 0
        · subst h0
          rw [if_neg (not_not.mpr rfl)]
          by_cases hd : v.Recyclable (16 * k) ∧ 16 * k ≠ 0
          · -- this page is noted
            have hcarry : (if (v.scanPage (16 * k)).1 = true ∧ 0 = 0 then 16 * k else 0) = 16 * k :=
              if_pos ⟨hrec.mpr hd.1, rfl⟩
            rw [hcarry, if_pos hd.2, List.find?_cons_of_pos (by simpa using hd)]
            rfl
          · have hcarry : (if (v.scanPage (16 * k)).1 = true ∧ 0 = 0 then 16 * k else 0) = 0 := by
              split
              · rename_i h
                by_contra hk0
                exact hd ⟨hrec.mp h.1, hk0⟩
              · rfl
            rw [hcarry, if_neg (not_not.mpr rfl), List.find?_cons_of_neg (by simpa using hd)]
        · have hcarry : (if (v.scanPage (16 * k)).1 = true ∧ recyclable = 0 then 16 * k else recyclable) = recyclable :=
            if_neg fun h => h0 h.2
          rw [hcarry, if_pos h0, if_pos h0]

/-- What `getFreePage` gives: a page without a live block, the page it noted, or the default scratch page. The last two are
erased. -/
inductive Found (v : Volume L) : Nat → Volume L → Prop where
  | empty (p : Nat) (h : v.emptyPage = some p) :
      v.Found (L.getBlock p) { v.note (.page (L.getBlock p) v.flash) with lastBlockAllocated := p }
  | noted (p : Nat) (h : v.emptyPage = none) (hp : v.notedPage = some p) :
      v.Found (L.getBlock p) ((v.note (.page (L.getBlock p) v.flash)).erasePage (L.getBlock p))
  | none (h : v.emptyPage = none) (hp : v.notedPage = none) :
      v.Found L.MICROBIT_DEFAULT_SCRATCH_PAGE
        ((v.note (.page L.MICROBIT_DEFAULT_SCRATCH_PAGE v.flash)).erasePage L.MICROBIT_DEFAULT_SCRATCH_PAGE)

/-- `getFreePage` comes back, with one of these. -/
theorem getFreePage_found (hL : L.Sound) (v : Volume L) (hlast : v.lastBlockAllocated < L.fileSystemSize) :
    ∃ page w, v.getFreePage = .ok (page, w) ∧ v.Found page w := by
  have hsize := hL.size_eq
  have hlt := hL.size_lt
  have hc : v.lastBlockAllocated / 16 < L.pages := by omega
  obtain ⟨noted, hrun, hnote⟩ := findPage_spec hL v (c := v.lastBlockAllocated / 16) blockNumbers (L.pages - 1)
    ((v.lastBlockAllocated / 16 + 1) % L.pages) 0 (Nat.mod_lt _ hL.pages_pos)
    (by
      rw [Nat.mod_add_mod, show v.lastBlockAllocated / 16 + 1 + (L.pages - 1) = v.lastBlockAllocated / 16 + L.pages by omega,
        Nat.add_mod_right, Nat.mod_eq_of_lt hc])
    (fun j hj heq => by
      obtain ⟨k, -, hne, hk⟩ := (mem_others hL hlast).mp (mem_around.mpr ⟨j, hj, rfl⟩)
      omega)
    (by unfold blockNumbers; omega)
  unfold getFreePage
  rw [hL.pageNumber hlast]
  dsimp only
  rw [next_page hL _, hrun]
  cases he : v.emptyPage with
  | some p =>
    rw [show (around L _ _).find? _ = some p from he]
    exact ⟨_, _, rfl, .empty p he⟩
  | none =>
    rw [show (around L _ _).find? _ = Option.none from he]
    have hnoted : noted = v.notedPage.getD 0 := hnote he
    cases hp : v.notedPage with
    | none =>
      rw [hp] at hnoted
      subst hnoted
      exact ⟨_, _, rfl, .none he hp⟩
    | some p =>
      rw [hp] at hnoted
      rw [show noted = p from hnoted]
      have h0 : p ≠ 0 := (by simpa using List.find?_some hp : _ ∧ _).2
      refine ⟨L.getBlock p, _, ?_, .noted p he hp⟩
      change Except.ok (if p ≠ 0 then L.getBlock p else L.MICROBIT_DEFAULT_SCRATCH_PAGE, _) = _
      rw [if_pos h0]

end Volume

end CodalMicrobit

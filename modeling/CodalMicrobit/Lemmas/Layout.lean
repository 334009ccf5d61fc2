import CodalMicrobit.Lemmas.Cache
import CodalMicrobit.Log.Ops

/-!
# Where the parts of a log lie

The layout that `clear` gives a log on a storage that has room for it: the metadata page, the journal pages, and the
pages of the data up to the word of the FULL indicator. All of them start at page boundaries, and a page is a whole
number of cache blocks.
-/

namespace CodalMicrobit

open Nor

/-- Two multiples of a number are at least that number apart. -/
theorem add_le_of_dvd {d a b : Nat} (ha : d ∣ a) (hb : d ∣ b) (h : a < b) : a + d ≤ b := by
  rcases FSCache.block_disjoint ha hb (Nat.ne_of_lt h) with h' | h' <;> omega

namespace Geometry

variable {g : Geometry}

/-- The first address of the journal. -/
def journalStart (g : Geometry) : Nat := g.logStart + g.getPageSize

/-- The first address of the data. -/
def dataStart (g : Geometry) : Nat := g.journalStart + CONFIG_MICROBIT_LOG_JOURNAL_PAGES * g.getPageSize

/-- The address after the data: that of the word of the FULL indicator. -/
def logEnd (g : Geometry) : Nat := u32sub (u32sub g.getFlashEnd g.getPageSize) 4

/-- The storage has room for a log: its pages are whole numbers of cache blocks, and there is at least one for data. -/
structure Fits (g : Geometry) : Prop where
  pos : 0 < g.getPageSize
  block_dvd : CONFIG_MICROBIT_LOG_CACHE_BLOCK_SIZE ∣ g.getPageSize
  room : g.dataStart + g.getPageSize + 4 < g.getFlashEnd

/-- The end of the page that the address lies on. -/
def pageEnd (g : Geometry) (a : Nat) : Nat := (a / g.getPageSize + 1) * g.getPageSize

/-- The log starts at a page. -/
theorem page_dvd_logStart (g : Geometry) : g.getPageSize ∣ g.logStart := by
  unfold logStart
  split
  · rename_i h
    exact Nat.dvd_of_mod_eq_zero h
  · exact Nat.dvd_mul_left _ _

/-- The journal starts at a page. -/
theorem page_dvd_journalStart (g : Geometry) : g.getPageSize ∣ g.journalStart :=
  Nat.dvd_add g.page_dvd_logStart (Nat.dvd_refl _)

/-- The data starts at a page. -/
theorem page_dvd_dataStart (g : Geometry) : g.getPageSize ∣ g.dataStart :=
  Nat.dvd_add g.page_dvd_journalStart (Nat.dvd_mul_left _ _)

/-- The flash ends at a page. -/
theorem page_dvd_flashEnd (g : Geometry) : g.getPageSize ∣ g.getFlashEnd := Nat.dvd_mul_right _ _

/-- The end of a page is where a page starts. -/
theorem page_dvd_pageEnd (g : Geometry) (a : Nat) : g.getPageSize ∣ g.pageEnd a := Nat.dvd_mul_left _ _

/-- The journal is one page behind the start of the log. -/
theorem journalStart_eq (g : Geometry) : g.journalStart = g.logStart + g.getPageSize := rfl

/-- The journal takes four pages. -/
theorem dataStart_eq (g : Geometry) : g.dataStart = g.journalStart + 4 * g.getPageSize := rfl

/-- The end of a page, from an address on it. -/
theorem pageEnd_eq (h : 0 < g.getPageSize) (a : Nat) :
    g.pageEnd a = a + (g.getPageSize - a % g.getPageSize) ∧ a % g.getPageSize < g.getPageSize := by
  obtain ⟨-, hsum, hlt⟩ := FSCache.block_facts (a := a) h
  refine ⟨?_, hlt⟩
  unfold pageEnd
  rw [Nat.succ_mul]
  omega

/-- The end of an address's page is behind it, by a page at most. -/
theorem pageEnd_bounds (h : 0 < g.getPageSize) (a : Nat) : a < g.pageEnd a ∧ g.pageEnd a ≤ a + g.getPageSize := by
  have := pageEnd_eq h a
  omega

/-- Two addresses with no page boundary between them are on one page. -/
theorem pageEnd_of_lt (h : 0 < g.getPageSize) {a b : Nat} (hab : a ≤ b) (hb : b < g.pageEnd a) :
    g.pageEnd b = g.pageEnd a := by
  obtain ⟨ha1, ha2⟩ := pageEnd_bounds h a
  obtain ⟨hb1, hb2⟩ := pageEnd_bounds h b
  rcases Nat.lt_trichotomy (g.pageEnd a) (g.pageEnd b) with hlt | heq | hlt
  · have := add_le_of_dvd (g.page_dvd_pageEnd a) (g.page_dvd_pageEnd b) hlt
    omega
  · exact heq.symm
  · have := add_le_of_dvd (g.page_dvd_pageEnd b) (g.page_dvd_pageEnd a) hlt
    omega

/-- At the start of a page, its end is one page on. -/
theorem pageEnd_of_dvd (h : 0 < g.getPageSize) {a : Nat} (hd : g.getPageSize ∣ a) :
    g.pageEnd a = a + g.getPageSize := by
  have := pageEnd_eq h a
  rw [Nat.mod_eq_zero_of_dvd hd] at this
  omega

namespace Fits

variable (hg : g.Fits)
include hg

/-- A page starts at a block of the cache. -/
theorem block_dvd_of_page {a : Nat} (h : g.getPageSize ∣ a) : CONFIG_MICROBIT_LOG_CACHE_BLOCK_SIZE ∣ a :=
  hg.block_dvd.trans h

/-- The flash ends at a block of the cache. -/
theorem block_dvd_flashEnd : CONFIG_MICROBIT_LOG_CACHE_BLOCK_SIZE ∣ g.getFlashEnd :=
  hg.block_dvd_of_page g.page_dvd_flashEnd

/-- The data starts at a block of the cache. -/
theorem block_dvd_dataStart : CONFIG_MICROBIT_LOG_CACHE_BLOCK_SIZE ∣ g.dataStart :=
  hg.block_dvd_of_page g.page_dvd_dataStart

/-- The journal starts at a block of the cache. -/
theorem block_dvd_journalStart : CONFIG_MICROBIT_LOG_CACHE_BLOCK_SIZE ∣ g.journalStart :=
  hg.block_dvd_of_page g.page_dvd_journalStart

/-- The log starts at a block of the cache. -/
theorem block_dvd_logStart : CONFIG_MICROBIT_LOG_CACHE_BLOCK_SIZE ∣ g.logStart :=
  hg.block_dvd_of_page g.page_dvd_logStart

/-- A block of the cache is no larger than a page. -/
theorem block_le_page : CONFIG_MICROBIT_LOG_CACHE_BLOCK_SIZE ≤ g.getPageSize := Nat.le_of_dvd hg.pos hg.block_dvd

/-- The word of the FULL indicator is the last one of a page, and one page of the storage follows it. -/
theorem logEnd_add : g.logEnd + 4 + g.getPageSize = g.getFlashEnd := by
  have := hg.room
  have hp : u32sub g.getFlashEnd g.getPageSize = g.getFlashEnd - g.getPageSize := u32sub_of_le (by omega)
  unfold logEnd
  rw [hp, u32sub_of_le (by omega)]
  omega

/-- The marker at the end of the log takes the last word of a page. -/
theorem page_dvd_logEnd : g.getPageSize ∣ g.logEnd + 4 := by
  have h := g.page_dvd_flashEnd
  rw [← hg.logEnd_add] at h
  exact (Nat.dvd_add_left (Nat.dvd_refl _)).mp h

/-- Data, the FULL indicator and the end of the storage, in this order. -/
theorem order : g.dataStart < g.logEnd ∧ g.logEnd + 4 + 256 ≤ g.getFlashEnd ∧ g.getFlashEnd < 2 ^ 24 ∧
    4 ∣ g.logEnd := by
  have h1 := hg.logEnd_add
  have h2 := hg.room
  have h3 : 256 ≤ g.getPageSize := hg.block_le_page
  have h4 : (256 : Nat) ∣ g.logEnd + 4 := hg.block_dvd_of_page hg.page_dvd_logEnd
  refine ⟨by omega, by omega, g.getFlashEnd_lt, by omega⟩

/-- The header fits in front of the log. -/
theorem headerSize_le : headerSize ≤ g.logStart := by
  have hp := hg.pos
  unfold logStart
  split
  · exact Nat.le_refl _
  · obtain ⟨-, hsum, hlt⟩ := FSCache.block_facts (a := headerSize) hp
    rw [Nat.add_comm, Nat.succ_mul]
    omega

/-- A page that starts before the end of the data ends with the word of the FULL indicator at the latest. -/
theorem page_le {b : Nat} (hd : g.getPageSize ∣ b) (hb : b < g.logEnd) : b + g.getPageSize ≤ g.logEnd + 4 :=
  add_le_of_dvd hd hg.page_dvd_logEnd (by omega)

end Fits

end Geometry

/-- A storage of sixteen pages of 256 bytes. -/
def sixteenPages : Geometry := ⟨256, 16, by decide, by decide⟩

/-- Sixteen pages are enough for a log. -/
theorem sixteenPages_fits : sixteenPages.Fits := ⟨by decide, by decide, by decide⟩

/-- A storage of nineteen pages of 256 bytes. -/
def nineteenPages : Geometry := ⟨256, 19, by decide, by decide⟩

/-- Nineteen pages are enough for a log. -/
theorem nineteenPages_fits : nineteenPages.Fits := ⟨by decide, by decide, by decide⟩

/-- An erased storage. -/
def blankFlash (g : Geometry) : Flash g := ⟨fun _ => blank, []⟩

end CodalMicrobit

import CodalMicrobit.Theorems.Overwrite

/-!
# An open file

The blocks of an open file, and those of the directory that its entry is in. A write changes the blocks of the file, and
`flush` an entry of the directory; whatever they do, the file stays in its place.
-/

namespace CodalMicrobit

open Nor

namespace Volume

variable {L : Layout} {v w : Volume L} {file : FileDescriptor} {own dirs : List Nat}

/-- A chain of blocks has no more blocks than the file system. -/
theorem Chained.length_le {blocks : List Nat} (h : v.Chained blocks) : blocks.length ≤ L.fileSystemSize := by
  have hsub : blocks ⊆ List.range L.fileSystemSize := fun b hb => List.mem_range.mpr (h.inside b hb).2
  have := (List.subperm_of_subset h.nodup hsub).length_le
  rwa [List.length_range] at this

/-- The open file is stored in the blocks `own`, and its directory in the blocks `dirs`. -/
structure Filed (v : Volume L) (file : FileDescriptor) (own dirs : List Nat) : Prop where
  stored : v.Stored file.dirent file.length own
  seek : file.seek ≤ file.length
  directory : v.Chained dirs
  first : dirs.head? = some (firstBlockAt v.flash file.directory)
  apart : ∀ b ∈ dirs, b ∉ own
  listed : file.dirent ∈ dirs.flatMap L.entries
  home : ∃ c < L.fileSystemSize, L.fileSystemTableSize ≤ c ∧ ¬L.Reusable v.flash c ∧ c ∉ own ∧ file.directory ∈ L.entries c
  valid : isValid v.flash file.directory = true
  used : isFree v.flash file.directory = false
  ne : file.directory ≠ file.dirent

/-- The entry of the file is in none of its own blocks. -/
theorem Filed.entry_apart (h : v.Filed file own dirs) : file.dirent ∉ own.flatMap L.entries := by
  intro hm
  obtain ⟨c, hc, hd⟩ := List.mem_flatMap.mp h.listed
  obtain ⟨c', hc', hd'⟩ := List.mem_flatMap.mp hm
  exact h.apart c hc (entries_inj hd hd' ▸ hc')

/-- Whether an entry is free depends on its own bytes only. -/
theorem isFree_congr {m m' : Memory} {a : Nat} (h : ∀ k < 24, m (a + k) = m' (a + k)) : isFree m a = isFree m' a := by
  unfold isFree
  rw [flagsAt_congr h]

/-- The file is where it was if the entries of the table for blocks in use are as they were, and the entry of the directory,
and the file has its first block still. -/
theorem Filed.congr (h : v.Filed file own dirs) (hL : L.Sound) (hlast : w.lastBlockAllocated < L.fileSystemSize)
    (hnext : ∀ b < L.fileSystemSize, ¬L.Reusable v.flash b →
      L.getNextFileBlock w.flash b = L.getNextFileBlock v.flash b)
    (hdirectory : ∀ k < 24, w.flash (file.directory + k) = v.flash (file.directory + k))
    (hfirst : firstBlockAt w.flash file.dirent = firstBlockAt v.flash file.dirent) : w.Filed file own dirs := by
  have hlive : ∀ b < L.fileSystemSize, ¬L.Reusable v.flash b → ¬L.Reusable w.flash b := fun b hb hl => by
    unfold Layout.Reusable
    rw [hnext b hb hl]
    exact hl
  have htabled : Tabled L w.flash := fun b hb => hlive b (hb.trans hL.table_lt) (h.directory.tabled b hb)
  have hchain : ∀ blocks, v.Chained blocks → w.Chained blocks := fun blocks hc =>
    hc.congr hlast htabled fun b hb => hnext b (hc.inside b hb).2 (hc.live hL b hb)
  obtain ⟨c, hc, htc, hl, hown, hd⟩ := h.home
  obtain ⟨hf, hchained, hroom, c', hc', htc', hl', hd'⟩ := h.stored
  exact ⟨⟨by rw [hfirst, hf], hchain own hchained, hroom, c', hc', htc', hlive c' hc' hl', hd'⟩, h.seek, hchain dirs h.directory,
    by rw [firstBlockAt_congr hdirectory, h.first], h.apart, h.listed, ⟨c, hc, htc, hlive c hc hl, hown, hd⟩,
    by rw [isValid_congr hdirectory, h.valid], by rw [isFree_congr hdirectory, h.used], h.ne⟩

/-! ## Writing -/

/-- The file is stored in other blocks when something was written to it, and its directory is where it was. -/
theorem Filed.written (h : v.Filed file own dirs) (hL : L.Sound) {buffer : List UInt8} {k length seek : Nat} {moved : Bool}
    {blocks : List Nat} (hwrote : Wrote v own file.length moved file.seek buffer k w blocks)
    (hstored : w.Stored file.dirent length blocks) (hseek : seek ≤ length) (cache : List UInt8) :
    w.Filed { file with length, seek, cache } blocks dirs := by
  have hleaves := hwrote.leaves
  have hapart : ∀ b < L.fileSystemSize, ¬L.Reusable v.flash b → b ∉ own → b ∉ blocks := fun b _ hl hown hm =>
    (hwrote.within b hm).elim hown hl
  have hdirs := fun b hb => hleaves b (h.directory.inside b hb).2 (h.apart b hb) (h.directory.live hL b hb)
  obtain ⟨c, hc, htc, hl, hown, hd⟩ := h.home
  obtain ⟨hbytes, hnext⟩ := hleaves c hc hown hl
  have hdirectory : ∀ k < 24, w.flash (file.directory + k) = v.flash (file.directory + k) := by
    obtain ⟨i, hi, heq⟩ := mem_entries.mp hd
    intro k hk
    rw [heq, Nat.add_assoc]
    exact hbytes htc _ (by omega)
  refine ⟨hstored, hseek, h.directory.congr hwrote.chained.last hwrote.chained.tabled fun b hb => (hdirs b hb).2, ?_,
    fun b hb => hapart b (h.directory.inside b hb).2 (h.directory.live hL b hb) (h.apart b hb), h.listed,
    ⟨c, hc, htc, ?_, hapart c hc hl hown, hd⟩, ?_, ?_, h.ne⟩
  · rw [firstBlockAt_congr hdirectory, h.first]
  · unfold Layout.Reusable
    rw [hnext]
    exact hl
  · rw [isValid_congr hdirectory, h.valid]
  · rw [isFree_congr hdirectory, h.used]

/-! ## The entry of the file -/

/-- The entries of the file's directory are slots. -/
theorem Filed.slot (h : v.Filed file own dirs) {e : Nat} (he : e ∈ dirs.flatMap L.entries) : L.Slot e := by
  obtain ⟨c, hc, he⟩ := List.mem_flatMap.mp he
  exact entries_slot (h.directory.inside c hc).1 (h.directory.inside c hc).2 he

/-- The entry of the file's directory is a slot. -/
theorem Filed.directory_slot (h : v.Filed file own dirs) : L.Slot file.directory := by
  obtain ⟨c, hc, htc, -, -, hd⟩ := h.home
  exact entries_slot htc hc hd

/-- A write inside an entry of the directory leaves the blocks that are not of the directory alone. -/
theorem Filed.flashWrite_apart (h : v.Filed file own dirs) (hL : L.Sound) (u : Volume L) {d : Nat} (o : Nat) {bytes : List UInt8}
    (hd : d ∈ dirs.flatMap L.entries) (ho : o + bytes.length ≤ 24) : ∀ b < L.fileSystemSize, b ∉ dirs → ∀ k < 256,
      (u.flashWrite (d + o) bytes).flash (L.getBlock b + k) = u.flash (L.getBlock b + k) := by
  intro b hlt hb k hk
  rw [flashWrite_inside hL u (h.slot hd) o ho hlt hk, put_of_not_mem]
  obtain ⟨c, hc, hd⟩ := List.mem_flatMap.mp hd
  obtain ⟨i, hi, rfl⟩ := mem_entries.mp hd
  have hne : c ≠ b := fun heq => hb (heq ▸ hc)
  unfold Layout.getBlock MBFS_BLOCK_SIZE
  omega

/-- The entry of the directory that `flush` writes for the file has been found. Up to then, the file is where it was, its old
entry may be marked as deleted, and entries that were deleted may be blank. -/
structure Prepared (v : Volume L) (file : FileDescriptor) (own dirs : List Nat) (d : Nat) (u : Volume L) : Prop where
  last : u.lastBlockAllocated < L.fileSystemSize
  next : ∀ b < L.fileSystemSize, ¬L.Reusable v.flash b → L.getNextFileBlock u.flash b = L.getNextFileBlock v.flash b
  bytes : ∀ b < L.fileSystemSize, L.fileSystemTableSize ≤ b → b ∉ dirs → ¬L.Reusable v.flash b →
    ∀ k < 256, u.flash (L.getBlock b + k) = v.flash (L.getBlock b + k)
  directory : ∀ k < 24, u.flash (file.directory + k) = v.flash (file.directory + k)
  listed : d ∈ dirs.flatMap L.entries
  ne : d ≠ file.directory
  spare : d ≠ file.dirent → isFree v.flash d = true ∨ isValid v.flash d = false
  first : d ≠ file.dirent → firstBlockAt u.flash file.dirent = firstBlockAt v.flash file.dirent
  old : d ≠ file.dirent → isValid u.flash file.dirent = false
  others : ∀ e ∈ dirs.flatMap L.entries, e ≠ d → e ≠ file.dirent → (∀ k < 24, u.flash (e + k) = v.flash (e + k)) ∨
    isValid v.flash e = false ∧ ∀ k < 24, u.flash (e + k) = blank

/-- The entry of the file was written to the directory, with the length that the file has now. -/
structure Relisted (v : Volume L) (file : FileDescriptor) (dirs : List Nat) (d flags : Nat) (w : Volume L) : Prop where
  listed : d ∈ dirs.flatMap L.entries
  spare : d ≠ file.dirent → isFree v.flash d = true ∨ isValid v.flash d = false
  holds : Holds w.flash d { directoryEntryAt v.flash file.dirent with length := file.length, flags }
  first : firstBlockAt w.flash file.dirent = firstBlockAt v.flash file.dirent
  old : d ≠ file.dirent → isValid w.flash file.dirent = false
  others : ∀ e ∈ dirs.flatMap L.entries, e ≠ d → e ≠ file.dirent → (∀ k < 24, w.flash (e + k) = v.flash (e + k)) ∨
    isValid v.flash e = false ∧ ∀ k < 24, w.flash (e + k) = blank

/-- What `flush` does to the entry of the file: nothing, or it writes the entry where it is, or it writes another one. -/
inductive Flushed (v : Volume L) (file : FileDescriptor) (dirs : List Nat) (w : Volume L) : Prop where
  | same (hlength : lengthAt v.flash file.dirent = file.length) (h : w = v)
  | created (hnew : flagsAt v.flash file.dirent = MBFS_DIRECTORY_ENTRY_NEW)
      (h : v.Relisted file dirs file.dirent MBFS_DIRECTORY_ENTRY_VALID w)
  | moved (d : Nat) (hnew : flagsAt v.flash file.dirent ≠ MBFS_DIRECTORY_ENTRY_NEW)
      (h : v.Relisted file dirs d (flagsAt v.flash file.dirent) w)

/-- Two bytes give a number below `2 ^ 16`. -/
theorem readU16_lt (m : Memory) (a : Nat) : readU16 m a < 2 ^ 16 := by
  have h0 := (m a).toNat_lt
  have h1 := (m (a + 1)).toNat_lt
  unfold readU16
  omega

/-- Once its place is found, writing the entry files the file under it. -/
theorem Prepared.write (h : v.Filed file own dirs) (hL : L.Sound) {d : Nat} {u : Volume L}
    (hu : v.Prepared file own dirs d u) (flags : Nat) {entry : DirectoryEntry}
    (hentry : entry = { directoryEntryAt v.flash file.dirent with length := file.length, flags }) :
    (u.flashWrite d entry.bytes).Filed file own dirs ∧
      Leaves L dirs v.flash (u.flashWrite d entry.bytes).flash ∧ v.Relisted file dirs d flags (u.flashWrite d entry.bytes) := by
  have hname : entry.fileName.length = 16 := by
    rw [hentry]
    exact slice_length _ _ _
  have hlen := bytes_length hname
  have hslot := h.slot hu.listed
  have hother : ∀ {e : Nat}, L.Slot e → e ≠ d → ∀ k < 24, (u.flashWrite d entry.bytes).flash (e + k) = u.flash (e + k) :=
    fun he hne k hk => flashWrite_slot_other hL u hslot hlen he hne hk
  have hholds : Holds (u.flashWrite d entry.bytes).flash d entry :=
    ⟨hname, fun k hk => flashWrite_slot_self hL u hslot hlen hk⟩
  have hnext : ∀ b < L.fileSystemSize, ¬L.Reusable v.flash b →
      L.getNextFileBlock (u.flashWrite d entry.bytes).flash b = L.getNextFileBlock v.flash b := fun b hb hl =>
    (flashWrite_slot_table hL u hslot hlen hb).trans (hu.next b hb hl)
  have hleaves : Leaves L dirs v.flash (u.flashWrite d entry.bytes).flash := fun b hb hne hl =>
    ⟨fun htb k hk => (h.flashWrite_apart hL u 0 hu.listed (by omega) b hb hne k hk).trans (hu.bytes b hb htb hne hl k hk),
      hnext b hb hl⟩
  have hfirst : firstBlockAt (u.flashWrite d entry.bytes).flash file.dirent = firstBlockAt v.flash file.dirent := by
    by_cases hd : d = file.dirent
    · subst hd
      rw [hholds.firstBlock, hentry]
      exact Nat.mod_eq_of_lt (readU16_lt _ _)
    · rw [← hu.first hd, firstBlockAt_congr (hother (h.slot h.listed) (Ne.symm hd))]
  refine ⟨h.congr hL hu.last hnext (fun k hk => ?_) hfirst, hleaves, hu.listed, hu.spare, hentry ▸ hholds, hfirst,
    fun hd => ?_, fun e he hne hself => ?_⟩
  · rw [hother h.directory_slot hu.ne.symm k hk, hu.directory k hk]
  · rw [isValid_congr (hother (h.slot h.listed) (Ne.symm hd)), hu.old hd]
  · have hsame := hother (h.slot he) hne
    exact (hu.others e he hne hself).imp (fun hold k hk => (hsame k hk).trans (hold k hk))
      fun ⟨hinvalid, hblank⟩ => ⟨hinvalid, fun k hk => (hsame k hk).trans (hblank k hk)⟩

/-- The entry of the file is marked as deleted. -/
def marked (v : Volume L) (file : FileDescriptor) : Volume L := v.flashWrite (file.dirent + 18) (u16Bytes MBFS_DELETED)

section

variable (hL : L.Sound) (v : Volume L) (hslot : L.Slot file.dirent)
include hL hslot

/-- The entry that was marked has no flag left. -/
theorem marked_flags : flagsAt (v.marked file).flash file.dirent = 0 := by
  have hbyte : ∀ j < 2, (v.marked file).flash (file.dirent + 18 + j) = 0 := by
    obtain ⟨c, i, hc, hc', hi, heq⟩ := id hslot
    intro j hj
    have hput := flashWrite_inside hL v hslot 18 (show 18 + (u16Bytes MBFS_DELETED).length ≤ 24 by decide) hc'
      (show 24 * i + 18 + j < 256 by omega)
    rw [show L.getBlock c + (24 * i + 18 + j) = file.dirent + 18 + j by omega] at hput
    refine hput.trans ((put_add _ _ _ _ hj).trans ?_)
    have : j = 0 ∨ j = 1 := by omega
    rcases this with rfl | rfl <;> rfl
  have h0 := hbyte 0 (by decide)
  rw [Nat.add_zero] at h0
  unfold flagsAt readU16
  rw [h0, hbyte 1 (by decide)]
  rfl

/-- The entry is neither free nor valid when it is marked as deleted. -/
theorem marked_entry : isFree (v.marked file).flash file.dirent = false ∧
    isValid (v.marked file).flash file.dirent = false := by
  unfold isFree isValid
  rw [marked_flags hL v hslot]
  exact ⟨rfl, rfl⟩

/-- Marking an entry leaves the other entries alone. -/
theorem marked_other {e : Nat} (he : L.Slot e) (hne : e ≠ file.dirent) : ∀ k < 24,
    (v.marked file).flash (e + k) = v.flash (e + k) := fun _ hk =>
  flashWrite_inside_other hL v hslot 18 (by decide) he hne hk

end

/-- There is an entry for the file in its directory. Where it is one that was deleted, its block can be recycled, which takes
the old entry of the file with it unless that is in another block. -/
inductive Lists (v : Volume L) (file : FileDescriptor) : Prop where
  | free (h : ∃ d ∈ L.directoryEntries v.flash file.directory, isFree v.flash d = true)
  | deleted (d c : Nat)
      (hd : (L.directoryEntries v.flash file.directory).find? (fun d => !isValid v.flash d) = some d) (hc : d ∈ L.entries c)
      (h : v.Refreshable c .DIRECTORY) (hself : file.dirent ∈ L.entries c → d = file.dirent)

/-- `flush` can do what it is meant to do: the length of the file is in its entry, or the entry was never written since the
file was created, or there is an entry for the file when this one is marked as deleted. -/
def Settles (v : Volume L) (file : FileDescriptor) : Prop :=
  lengthAt v.flash file.dirent = file.length ∨ flagsAt v.flash file.dirent = MBFS_DIRECTORY_ENTRY_NEW ∨
    (v.marked file).Lists file

section

variable (h : v.Filed file own dirs)
include h

theorem Filed.prepared_self : v.Prepared file own dirs file.dirent v where
  last := h.directory.last
  next _ _ _ := rfl
  bytes _ _ _ _ _ _ _ := rfl
  directory _ _ := rfl
  listed := h.listed
  ne := h.ne.symm
  spare hne := absurd rfl hne
  first hne := absurd rfl hne
  old hne := absurd rfl hne
  others _ _ _ _ := Or.inl fun _ _ => rfl

variable (hL : L.Sound)
include hL

/-- The entry that was marked is neither free nor valid. -/
theorem Filed.marked_entry : isFree (v.marked file).flash file.dirent = false ∧
    isValid (v.marked file).flash file.dirent = false :=
  Volume.marked_entry hL v (h.slot h.listed)

/-- Marking the file's entry leaves the other entries alone. -/
theorem Filed.marked_other {e : Nat} (he : L.Slot e) (hne : e ≠ file.dirent) : ∀ k < 24,
    (v.marked file).flash (e + k) = v.flash (e + k) := Volume.marked_other hL v (h.slot h.listed) he hne

/-- It has its first block still. -/
theorem Filed.marked_first : firstBlockAt (v.marked file).flash file.dirent = firstBlockAt v.flash file.dirent := by
  obtain ⟨c, hc, hd⟩ := List.mem_flatMap.mp h.listed
  obtain ⟨i, hi, heq⟩ := mem_entries.mp hd
  refine readU16_congr fun j hj => ?_
  have hput := flashWrite_inside hL v (h.slot h.listed) 18 (show 18 + (u16Bytes MBFS_DELETED).length ≤ 24 by decide)
    (h.directory.inside c hc).2 (show 24 * i + 16 + j < 256 by omega)
  rw [show L.getBlock c + (24 * i + 16 + j) = file.dirent + 16 + j by omega] at hput
  exact hput.trans (put_of_lt _ _ (by omega))

/-- When the old entry is marked, another one can be written. -/
theorem Filed.prepared_marked {d : Nat} (hd : d ∈ dirs.flatMap L.entries) (hne : d ≠ file.directory)
    (hspare : d ≠ file.dirent → isFree (v.marked file).flash d = true ∨ isValid (v.marked file).flash d = false) :
    v.Prepared file own dirs d (v.marked file) where
  last := h.directory.last
  next b hb _ := flashWrite_inside_table hL v (h.slot h.listed) 18 (by decide) hb
  bytes b hb _ hne _ := h.flashWrite_apart hL v 18 h.listed (by decide) b hb hne
  directory := h.marked_other hL h.directory_slot h.ne
  listed := hd
  ne := hne
  spare hself := by
    have hsame := h.marked_other hL (h.slot hd) hself
    rw [← isFree_congr hsame, ← isValid_congr hsame]
    exact hspare hself
  first _ := h.marked_first hL
  old _ := (h.marked_entry hL).2
  others _ he _ hself := Or.inl (h.marked_other hL (h.slot he) hself)

/-- The file is where it was after its entry was marked. -/
theorem Filed.marked : (v.marked file).Filed file own dirs :=
  h.congr hL h.directory.last (fun _ hb _ => flashWrite_inside_table hL v (h.slot h.listed) 18 (by decide) hb)
    (h.marked_other hL h.directory_slot h.ne) (h.marked_first hL)

/-! ## Finding an entry for it -/

/-- The blocks of the directory start with its first block and are few enough. -/
theorem Filed.blocks : ∃ bs, dirs = firstBlockAt v.flash file.directory :: bs ∧ bs.length < blockNumbers := by
  have hfirst := h.first
  have hlen := h.directory.length_le
  cases dirs with
  | nil => nomatch hfirst
  | cons b bs =>
    cases hfirst
    refine ⟨bs, rfl, ?_⟩
    have hsize := hL.size_lt
    rw [List.length_cons] at hlen
    unfold blockNumbers
    omega

/-- The entries of the directory are those of its blocks. -/
theorem Filed.directoryEntries_eq : L.directoryEntries v.flash file.directory = dirs.flatMap L.entries := by
  obtain ⟨bs, rfl, hshort⟩ := h.blocks hL
  unfold Layout.directoryEntries
  rw [chain_of_isChain bs _ blockNumbers h.directory.chain hshort]

/-- What the scan of the directory finds. -/
theorem Filed.scan : ∃ invalid, v.scanDirectory (firstBlockAt v.flash file.directory) none blockNumbers =
      .ok ((dirs.flatMap L.entries).find? (isFree v.flash), invalid) ∧
    ((∀ d ∈ dirs.flatMap L.entries, isFree v.flash d = false) →
      invalid = (dirs.flatMap L.entries).find? fun d => !isValid v.flash d) := by
  obtain ⟨bs, rfl, hshort⟩ := h.blocks hL
  obtain ⟨invalid, hscan, hinvalid⟩ := scanDirectory_eq v bs _ blockNumbers none h.directory.chain hshort
  exact ⟨invalid, hscan, hinvalid⟩

/-- Where an entry is free, a free one is chosen and nothing is written. -/
theorem Filed.chooseEntry_free (hfree : ∃ d ∈ dirs.flatMap L.entries, isFree v.flash d = true) :
    ∃ d ∈ dirs.flatMap L.entries, isFree v.flash d = true ∧ v.chooseEntry file.directory = .ok (some d, v) := by
  obtain ⟨invalid, hscan, -⟩ := h.scan hL
  obtain ⟨d, hd⟩ := Option.isSome_iff_exists.mp (List.find?_isSome.mpr hfree)
  rw [hd] at hscan
  refine ⟨d, List.mem_of_find?_eq_some hd, List.find?_some hd, ?_⟩
  unfold chooseEntry
  rw [hscan]
  rfl

/-- Where none is free, the first deleted one is chosen and its block recycled. -/
theorem Filed.chooseEntry_deleted (hnone : ∀ d ∈ dirs.flatMap L.entries, isFree v.flash d = false) {d c : Nat}
    (hd : (dirs.flatMap L.entries).find? (fun d => !isValid v.flash d) = some d) (hc : d ∈ L.entries c)
    (hrun : v.recycleBlock c .DIRECTORY = .ok w) : v.chooseEntry file.directory = .ok (some d, w) := by
  obtain ⟨c', hc', hd'⟩ := List.mem_flatMap.mp (List.mem_of_find?_eq_some hd)
  have hlt := (h.directory.inside c' hc').2
  rw [entries_inj hd' hc] at hlt
  obtain ⟨invalid, hscan, hinvalid⟩ := h.scan hL
  rw [hinvalid hnone, hd, List.find?_eq_none.mpr fun d hd => Bool.eq_false_iff.mp (hnone d hd)] at hscan
  rw [← getBlockNumber_entry hL hlt hc] at hrun
  exact Outcome.bind_eq_ok.mpr ⟨_, hscan, Outcome.bind_eq_ok.mpr ⟨w, hrun, rfl⟩⟩

/-- When the old entry is marked and the block of a deleted one was recycled, that one can be written. -/
theorem Filed.prepared_recycled {d c : Nat}
    (hd : (dirs.flatMap L.entries).find? (fun d => !isValid (v.marked file).flash d) = some d) (hc : d ∈ L.entries c)
    (hself : file.dirent ∈ L.entries c → d = file.dirent) (hlast : w.lastBlockAllocated < L.fileSystemSize)
    (hk : Kept L (some c) (v.marked file).flash w.flash) : v.Prepared file own dirs d w := by
  have hx := h.marked hL
  have hmem := List.mem_of_find?_eq_some hd
  have hp := h.prepared_marked hL hmem (fun heq => ?_) fun _ => Or.inr (by simpa using List.find?_some hd)
  · have hlive : ∀ b < L.fileSystemSize, ¬L.Reusable v.flash b → ¬L.Reusable (v.marked file).flash b := fun b hb hl => by
      unfold Layout.Reusable
      rw [hp.next b hb hl]
      exact hl
    obtain ⟨c', hc', hd'⟩ := List.mem_flatMap.mp hmem
    obtain rfl := entries_inj hc hd'
    have hin := fun b hb => hx.directory.inside b hb
    have hl := hx.directory.live hL
    have hold : d ≠ file.dirent → ∀ k < 24, w.flash (file.dirent + k) = (v.marked file).flash (file.dirent + k) := fun hne => by
      obtain ⟨r, hr, hdr⟩ := List.mem_flatMap.mp h.listed
      rcases hk.slot (hin r hr).2 (hin r hr).1 (hl r hr) hdr with hsame | ⟨hcr, -, -⟩
      · exact hsame
      · obtain rfl := Option.some.inj hcr
        exact absurd (hself hdr) hne
    refine ⟨hlast, fun b hb hlb => ?_, fun b hb htb hne hlb k hk256 => ?_, fun k hk24 => ?_, hmem, hp.ne, hp.spare,
      fun hne => (firstBlockAt_congr (hold hne)).trans (hp.first hne), fun hne => (isValid_congr (hold hne)).trans (hp.old hne),
      fun e he hne hself => ?_⟩
    · rw [← hp.next b hb hlb]
      rcases hk.entries b (hL.entry_lt hb) with he | ⟨he, -⟩
      · exact he
      · exact absurd (Or.inr he) (hlive b hb hlb)
    · rw [← hp.bytes b hb htb hne hlb k hk256]
      exact hk.content b hb htb (hlive b hb hlb) (fun heq => hne (Option.some.inj heq ▸ hc')) k hk256
    · rw [← hp.directory k hk24]
      obtain ⟨r, hr, htr, hlr, -, hdr⟩ := hx.home
      rcases hk.slot hr htr hlr hdr with hsame | ⟨-, hinvalid, -⟩
      · exact hsame k hk24
      · rw [hx.valid] at hinvalid
        nomatch hinvalid
    · obtain ⟨r, hr, hdr⟩ := List.mem_flatMap.mp he
      have hmarked := h.marked_other hL (h.slot he) hself
      rcases hk.slot (hin r hr).2 (hin r hr).1 (hl r hr) hdr with hsame | ⟨-, hinvalid, hblank⟩
      · exact Or.inl fun k hk24 => (hsame k hk24).trans (hmarked k hk24)
      · exact Or.inr ⟨(isValid_congr hmarked).symm.trans hinvalid, hblank⟩
  · have hinvalid := List.find?_some hd
    rw [heq, hx.valid] at hinvalid
    nomatch hinvalid

/-- An entry for the file is found, and prepared. -/
theorem Filed.lists (hs : (v.marked file).Lists file) : ∃ d u, (v.marked file).createDirectoryEntry file.directory = .ok (some d, u) ∧
    v.Prepared file own dirs d u := by
  have hx := h.marked hL
  have hnoted : ∀ {d u} (e : FSEvent), v.Prepared file own dirs d u → v.Prepared file own dirs d (u.note e) :=
    fun _ hu => ⟨hu.last, hu.next, hu.bytes, hu.directory, hu.listed, hu.ne, hu.spare, hu.first, hu.old, hu.others⟩
  have hrun : ∀ {d u}, (v.marked file).chooseEntry file.directory = .ok (some d, u) → v.Prepared file own dirs d u →
      ∃ d u, (v.marked file).createDirectoryEntry file.directory = .ok (some d, u) ∧ v.Prepared file own dirs d u :=
    fun hchoose hu => ⟨_, _, Outcome.bind_eq_ok.mpr ⟨_, hchoose, rfl⟩, hnoted _ hu⟩
  by_cases hfree : ∃ d ∈ dirs.flatMap L.entries, isFree (v.marked file).flash d = true
  · obtain ⟨d, hd, hdf, hchoose⟩ := hx.chooseEntry_free hL hfree
    refine hrun hchoose (h.prepared_marked hL hd (fun heq => ?_) fun _ => Or.inl hdf)
    rw [heq, hx.used] at hdf
    nomatch hdf
  · cases hs with
    | free hs =>
      rw [hx.directoryEntries_eq hL] at hs
      exact absurd hs hfree
    | deleted d c hd hc href hself =>
      rw [hx.directoryEntries_eq hL] at hd
      obtain ⟨c', hc', hd'⟩ := List.mem_flatMap.mp (List.mem_of_find?_eq_some hd)
      obtain rfl := entries_inj hc hd'
      obtain ⟨htc, hlt⟩ := hx.directory.inside c hc'
      obtain ⟨w, hrecycle, hk⟩ := (recycleBlock_kept_iff hL hx.directory.last hx.directory.tabled hlt fun _ => htc).mpr href
      obtain ⟨scratch, u, w', -, hrecycle', -, hlast, -⟩ := recycleBlock_run hL hx.directory.last hlt .DIRECTORY
      rw [hrecycle] at hrecycle'
      cases hrecycle'
      have hnone : ∀ d ∈ dirs.flatMap L.entries, isFree (v.marked file).flash d = false := fun d hd =>
        Bool.eq_false_iff.mpr fun hf => hfree ⟨d, hd, hf⟩
      exact hrun (hx.chooseEntry_deleted hL hnone hd hc hrecycle) (h.prepared_recycled hL hd hc hself hlast hk)

/-- `flush` of a file that has nothing in its cache. -/
theorem Filed.flush (hcache : file.cache = []) (hs : v.Settles file) : ∃ w, v.flush file = .ok (file, w) ∧
    w.Filed file own dirs ∧ Leaves L dirs v.flash w.flash ∧ v.Flushed file dirs w := by
  have hback : v.writeBack file = .ok (file, v) := by
    unfold writeBack
    rw [if_pos hcache]
  unfold Volume.flush
  rw [hback]
  change ∃ w, (if lengthAt v.flash file.dirent ≠ file.length then
    if flagsAt v.flash file.dirent = MBFS_DIRECTORY_ENTRY_NEW then _ else _ else _) = _ ∧ _
  by_cases hlen : lengthAt v.flash file.dirent = file.length
  · rw [if_neg (not_not.mpr hlen)]
    exact ⟨v, rfl, h, .refl dirs _, .same hlen rfl⟩
  · rw [if_pos hlen]
    by_cases hnew : flagsAt v.flash file.dirent = MBFS_DIRECTORY_ENTRY_NEW
    · rw [if_pos hnew]
      obtain ⟨hfiled, hleaves, hre⟩ := h.prepared_self.write h hL MBFS_DIRECTORY_ENTRY_VALID rfl
      exact ⟨_, rfl, hfiled, hleaves, .created hnew hre⟩
    · rw [if_neg hnew]
      obtain ⟨d, u, hrun, hu⟩ := h.lists hL (hs.resolve_left hlen |>.resolve_left hnew)
      obtain ⟨hfiled, hleaves, hre⟩ := hu.write h hL (flagsAt v.flash file.dirent) rfl
      refine ⟨_, ?_, hfiled, hleaves, .moved d hnew hre⟩
      exact Outcome.bind_eq_ok.mpr ⟨_, hrun, rfl⟩

end

end Volume

end CodalMicrobit

import CodalMicrobit.Lemmas.Pages

/-!
# Free pages

`getFreePage` is meant to find a page that nothing is kept on. Where each page but the current one has a live block, the page
it noted has one too: what it noted was a deleted block in front of a live one. That page is erased.
-/

namespace CodalMicrobit

open Nor

namespace Volume

variable {L : Layout} {v w : Volume L} {page : Nat}

/-- The page is the default scratch page or one without a live block, and no page with a live block was erased. -/
structure SafePage (v : Volume L) (page : Nat) (w : Volume L) : Prop where
  place : page = L.MICROBIT_DEFAULT_SCRATCH_PAGE ∨ ∃ k < L.pages, page = L.getBlock (16 * k) ∧ v.Empty (16 * k)
  spares : w.flash = v.flash ∨ ∃ p, w.flash = MicroBitFlash.erasePage v.flash p ∧
    ∀ b < L.fileSystemSize, v.Live b → L.getPage b ≠ p

/-- Nothing has to be erased for `getFreePage`, or nothing can be: a page other than the current one is without a live block,
or none has a deleted block in front of its first live one. -/
def Roomy (v : Volume L) : Prop :=
  (∃ k < L.pages, k ≠ v.lastBlockAllocated / 16 ∧ v.Empty (16 * k)) ∨
    ∀ k < L.pages, k ≠ v.lastBlockAllocated / 16 → k ≠ 0 → ¬v.Recyclable (16 * k)

/-- A page that was found is safe exactly when the file system is roomy. -/
theorem Found.safe_iff (hL : L.Sound) (hlast : v.lastBlockAllocated < L.fileSystemSize) (h : v.Found page w) :
    v.SafePage page w ↔ v.Roomy := by
  have hsize := hL.size_eq
  unfold Roomy
  cases h with
  | empty p hp =>
    obtain ⟨k, hk, hne, rfl, he⟩ := of_emptyPage hL hlast hp
    exact iff_of_true ⟨Or.inr ⟨k, hk, rfl, he⟩, Or.inl rfl⟩ (Or.inl ⟨k, hk, hne, he⟩)
  | noted p hnone hp =>
    have hall := (emptyPage_eq_none hL hlast).mp hnone
    obtain ⟨k, hk, hne, h0, rfl, hr⟩ := of_notedPage hL hlast hp
    refine iff_of_false (fun hs => ?_) (fun hs => ?_)
    · -- the page that was noted has a live block, as each page has
      rcases hs.place with hp | ⟨j, hj, hp, he⟩
      · exact scratch_ne_getBlock hL (by omega) hp.symm
      · rw [← getBlock_inj hp] at he
        exact hall k hk hne he
    · rcases hs with ⟨j, hj, hjne, he⟩ | hs
      · exact hall j hj hjne he
      · exact hs k hk hne h0 hr
  | none _ hp =>
    refine iff_of_true ⟨Or.inl rfl, Or.inr ⟨_, rfl, fun b hb _ => ?_⟩⟩ (Or.inr ((notedPage_eq_none hL hlast).mp hp))
    rw [hL.getPage_eq]
    exact (scratch_ne_getBlock hL (by omega)).symm

/-- `getFreePage` comes back. The page it gives is safe to use exactly if there is room for it. -/
theorem getFreePage_safe_iff (hL : L.Sound) (v : Volume L) (hlast : v.lastBlockAllocated < L.fileSystemSize) :
    (∃ page w, v.getFreePage = .ok (page, w) ∧ v.SafePage page w) ↔ v.Roomy := by
  obtain ⟨page, w, hrun, hf⟩ := getFreePage_found hL v hlast
  rw [← hf.safe_iff hL hlast]
  refine ⟨?_, fun hs => ⟨page, w, hrun, hs⟩⟩
  rintro ⟨page', w', hrun', hs⟩
  rw [hrun] at hrun'
  cases hrun'
  exact hs

/-! ## A file system with three pages -/

/-- Three pages: a block for the table, one for the root directory, and 46 for files. -/
def threePages : Layout :=
  { fileSystemSize := 48, fileSystemTable := 0x10000, fileSystemTableSize := 1, rootDirectory := 0x10100 }

/-- The layout of three pages is sound. -/
theorem threePages_sound : threePages.Sound := by
  refine ⟨?_, ?_, ?_, ?_, ?_, ?_, ?_, ?_, ?_, ?_⟩ <;> decide

/-- A flash with the given table, and with a file in the root directory that starts at block 2. -/
def withTable (entries : List Nat) : Memory :=
  put (put (fun _ => 0xFF) 0x10000 (entries.flatMap u16Bytes)) 0x10100
    (DirectoryEntry.bytes ⟨MBFS_MAGIC ++ [0], 1, MBFS_DIRECTORY_ENTRY_VALID, 48⟩ ++
      DirectoryEntry.bytes ⟨'a'.toUInt8 :: List.replicate 15 0, 2, MBFS_DIRECTORY_ENTRY_VALID, 4096⟩)

/-- The file has block 2 only. -/
def oneFile : Volume threePages where
  flash := withTable ([1, MBFS_EOF, MBFS_EOF] ++ List.replicate 45 MBFS_UNUSED)

/-- The free page of a file system with one file. -/
theorem getFreePage_safe_iff_one_file :
    ∃ page w, oneFile.getFreePage = .ok (page, w) ∧ oneFile.SafePage page w :=
  (getFreePage_safe_iff threePages_sound oneFile (by decide)).mpr (Or.inl (by decide +kernel))

/-- The file has the blocks from 2 to 15, block 17, which starts with an x, and block 32. Block 16 is deleted. -/
def spread : Volume threePages where
  flash := put (withTable ([1, MBFS_EOF] ++ List.range' 3 13 ++ [17, MBFS_DELETED, 32] ++ List.replicate 14 MBFS_UNUSED ++
    [MBFS_EOF] ++ List.replicate 15 MBFS_UNUSED)) 0x11100 ['x'.toUInt8]
  lastBlockAllocated := 32

/-- The example's table keeps the invariant. -/
theorem spread_invariant : spread.TableInvariant [0x10100, 0x10118] := by
  refine ⟨?_, ?_, ?_, ?_, ?_, ?_⟩ <;> decide +kernel

/-- The example is not roomy. -/
theorem spread_not_roomy : ¬spread.Roomy := by
  unfold Roomy
  decide +kernel

/-- The page of block 17 is erased to be used as a scratch page. -/
theorem getFreePage_not_safe :
    spread.TableInvariant [0x10100, 0x10118] ∧ ∃ page w, spread.getFreePage = .ok (page, w) ∧ ¬spread.SafePage page w := by
  obtain ⟨page, w, hrun, hf⟩ := getFreePage_found threePages_sound spread (by decide)
  exact ⟨spread_invariant, page, w, hrun, (hf.safe_iff threePages_sound (by decide)).not.mpr spread_not_roomy⟩

end Volume

end CodalMicrobit

import CodalMicrobit.Theorems.Removal

/-!
# Finding a file system again

`init` makes a file system only where it does not find one. It finds the one that it made, and it still finds it when files were
written there: after a power cycle the texts that were flushed are read from the flash.
-/

namespace CodalMicrobit

open Nor

/-- What `load` looks for: a table whose first entries are the number of its blocks, and behind it a directory with the name and
the size of the file system. -/
structure Layout.Mountable (L : Layout) (m : Memory) : Prop where
  table : ∀ b < L.fileSystemTableSize, L.getNextFileBlock m b = L.fileSystemTableSize
  root : ¬L.Reusable m L.fileSystemTableSize
  name : nameIs m L.rootDirectory MBFS_MAGIC = true
  length : lengthAt m L.rootDirectory = L.fileSystemSize
  valid : isValid m L.rootDirectory = true
  used : isFree m L.rootDirectory = false

variable {L : Layout} {m m' : Memory}

/-- The entry of the root directory is a slot. -/
theorem Layout.Sound.root_slot (hL : L.Sound) : L.Slot L.rootDirectory :=
  ⟨L.fileSystemTableSize, 0, Nat.le_refl _, hL.table_lt, by decide, hL.root⟩

/-- Only the table and the first entry of the root directory matter. -/
theorem Layout.Mountable.congr (h : L.Mountable m)
    (htable : ∀ b < L.fileSystemTableSize, L.getNextFileBlock m' b = L.getNextFileBlock m b)
    (hroot : ¬L.Reusable m' L.fileSystemTableSize) (hentry : ∀ k < 24, m' (L.rootDirectory + k) = m (L.rootDirectory + k)) :
    L.Mountable m' where
  table b hb := (htable b hb).trans (h.table b hb)
  root := hroot
  name := (Volume.nameIs_congr (by decide) hentry).trans h.name
  length := (Volume.lengthAt_congr hentry).trans h.length
  valid := (Volume.isValid_congr hentry).trans h.valid
  used := (Volume.isFree_congr hentry).trans h.used

/-- What can be mounted is recognised as a file system. -/
theorem Layout.Mountable.isFileSystem (h : L.Mountable m) (hL : L.Sound) : isFileSystem m L.fileSystemTable = true := by
  have hpos := hL.entry_lt hL.table_lt
  have hsize := hL.size_le
  have hlt := hL.table_lt
  have hfirst : readU16 m L.fileSystemTable = L.fileSystemTableSize := h.table 0 (by omega)
  have hroot : L.fileSystemTable + L.fileSystemTableSize * MBFS_BLOCK_SIZE = L.rootDirectory := hL.root.symm
  unfold CodalMicrobit.isFileSystem
  dsimp only
  rw [hfirst, hroot, h.name, Bool.and_true, List.all_eq_true]
  intro b hb
  have hentry : readU16 m (L.fileSystemTable + 2 * b) = L.fileSystemTableSize := h.table b (List.mem_range.mp hb)
  rw [hentry, bne_self_eq_false, Bool.or_false, decide_eq_false (by omega)]
  rfl

/-- The members are those that they were. -/
theorem Layout.Mountable.layout (h : L.Mountable m) (hL : L.Sound)
    (hsize : L.fileSystemTableSize = calculateFileTableSize L.fileSystemSize) (flashPages : Nat) :
    L.toFSConfig.layout m L.fileSystemTable flashPages = L := by
  have hpos := hL.entry_lt hL.table_lt
  have hfirst : readU16 m L.fileSystemTable = L.fileSystemTableSize := h.table 0 (by omega)
  have hroot : L.fileSystemTable + L.fileSystemTableSize * MBFS_BLOCK_SIZE = L.rootDirectory := hL.root.symm
  unfold FSConfig.layout
  dsimp only
  rw [if_pos (h.isFileSystem hL), hfirst, hroot, h.length, ← hsize]

/-- A file system that was mounted: it has no open files. -/
def FileSystem.mounted (m : Memory) : FileSystem L := { toVolume := { flash := m } }

/-- `init` finds the file system, and leaves the flash as it is. -/
theorem Layout.Mountable.init (h : L.Mountable m) (hL : L.Sound)
    (hsize : L.fileSystemTableSize = calculateFileTableSize L.fileSystemSize) {flashStart : Nat}
    (hstart : L.toFSConfig.flashStart flashStart = L.fileSystemTable) (flashPages : Nat) :
    (⟨_, FileSystem.init L.toFSConfig m flashStart flashPages⟩ : Σ L : Layout, FileSystem L) = ⟨L, .mounted m⟩ := by
  have hfound : CodalMicrobit.isFileSystem m (L.toFSConfig.flashStart flashStart) = true := by
    rw [hstart]
    exact h.isFileSystem hL
  have hlayout : L.toFSConfig.layout m (L.toFSConfig.flashStart flashStart)
      (L.toFSConfig.flashPages (L.toFSConfig.flashStart flashStart) flashPages) = L := by
    rw [hstart]
    exact h.layout hL hsize _
  have hinit : FileSystem.init L.toFSConfig m flashStart flashPages = .mounted m := by
    unfold FileSystem.init FileSystem.mounted
    dsimp only
    rw [if_pos hfound]
  rw [hinit]
  exact congrArg (fun L => (⟨L, .mounted m⟩ : Σ L : Layout, FileSystem L)) hlayout

/-! ## A new file system -/

namespace Volume

variable {v w : Volume L} {file file' : FileDescriptor} {own dirs : List Nat}

/-- The entry of the root directory that `format` writes. -/
def rootEntry (L : Layout) : DirectoryEntry :=
  { fileName := MBFS_MAGIC ++ [0]
    firstBlock := L.fileSystemTableSize
    flags := MBFS_DIRECTORY_ENTRY_VALID
    length := L.fileSystemSize }

/-- The loop of `format` over the blocks of the table. -/
theorem format_loop (hL : L.Sound) (v : Volume L) (n : Nat) (hn : n ≤ L.fileSystemTableSize) : ∀ b < L.fileSystemSize,
    ((List.range n).foldl (fun v block => v.fileTableWrite block L.fileSystemTableSize) v).table b =
      if b < n then L.fileSystemTableSize else v.table b := by
  have hlt := hL.table_lt
  have hsize := hL.size_lt
  induction n with
  | zero => exact fun b _ => (if_neg (Nat.not_lt_zero b)).symm
  | succ n ih =>
    intro b hb
    rw [List.range_succ, List.foldl_append, List.foldl_cons, List.foldl_nil,
      fileTableWrite_table hL _ (by omega) hb (by omega), ih (by omega) b hb]
    by_cases hbn : b = n
    · rw [if_pos hbn, if_pos (by omega)]
    · rw [if_neg hbn]
      exact if_congr (by omega) rfl rfl

/-- What `format` writes: the entries of the table for its own blocks and for the root directory, and the first entry of that. -/
theorem format_spec (hL : L.Sound) (v : Volume L) :
    (∀ b < L.fileSystemSize, v.format.table b = if b < L.fileSystemTableSize then L.fileSystemTableSize
      else if b = L.fileSystemTableSize then MBFS_EOF else v.table b) ∧
      Holds v.format.flash L.rootDirectory (rootEntry L) := by
  have hlen : (rootEntry L).bytes.length = 24 := bytes_length rfl
  refine ⟨fun b hb => ?_, ⟨rfl, fun k hk => flashWrite_slot_self hL _ hL.root_slot hlen hk⟩⟩
  refine (flashWrite_slot_table hL _ hL.root_slot hlen hb).trans ?_
  rw [fileTableWrite_table hL _ hL.table_lt hb (by decide), format_loop hL v _ (Nat.le_refl _) b hb]
  by_cases hbt : b = L.fileSystemTableSize
  · rw [if_pos hbt, if_neg (by omega), if_pos hbt]
  · rw [if_neg hbt, if_neg hbt]

/-- What was formatted can be mounted. -/
theorem format_mountable (hL : L.Sound) (v : Volume L) : L.Mountable v.format.flash := by
  obtain ⟨htable, hholds⟩ := format_spec hL v
  have hlt := hL.table_lt
  have hsize := hL.size_lt
  have hend : L.getNextFileBlock v.format.flash L.fileSystemTableSize = MBFS_EOF :=
    (htable _ hlt).trans (by rw [if_neg (Nat.lt_irrefl _), if_pos rfl])
  have hflags : flagsAt v.format.flash L.rootDirectory = MBFS_DIRECTORY_ENTRY_VALID := hholds.flags
  refine ⟨fun b hb => (htable b (hb.trans hlt)).trans (if_pos hb), ?_, hholds.nameIs_of_prefix (List.prefix_refl _), ?_, ?_, ?_⟩
  · unfold Layout.Reusable
    rw [hend]
    decide
  · exact hholds.length_eq.trans (Nat.mod_eq_of_lt (show L.fileSystemSize < 2 ^ 32 by omega))
  · unfold isValid
    rw [hflags]
    rfl
  · unfold isFree
    rw [hflags]
    rfl

/-- On erased flash, the blocks in use are those of the table and that of the root directory. -/
theorem format_invariant (hL : L.Sound) (v : Volume L) (hblank : ∀ b < L.fileSystemSize, v.table b = MBFS_UNUSED) :
    v.format.TableInvariant [L.rootDirectory] := by
  obtain ⟨htable, hholds⟩ := format_spec hL v
  have hm := format_mountable hL v
  have hlt := hL.table_lt
  have hsize := hL.size_lt
  have hend : L.getNextFileBlock v.format.flash L.fileSystemTableSize = MBFS_EOF :=
    (htable _ hlt).trans (by rw [if_neg (Nat.lt_irrefl _), if_pos rfl])
  have hfirst : firstBlockAt v.format.flash L.rootDirectory = L.fileSystemTableSize :=
    hholds.firstBlock.trans (Nat.mod_eq_of_lt (show L.fileSystemTableSize < 2 ^ 16 by omega))
  have hchain : [L.rootDirectory].flatMap (fun d => L.chain v.format.flash (firstBlockAt v.format.flash d) L.fileSystemSize) =
      [L.fileSystemTableSize] := by
    rw [List.flatMap_singleton, hfirst]
    exact chain_of_isChain [] _ _ hend (show 0 < L.fileSystemSize by omega)
  refine ⟨hm.table, List.mem_singleton_self _, fun d hd => ?_, ?_, ?_, fun b hb hl => ?_⟩
  · rw [List.mem_singleton.mp hd]
    exact hm.valid
  · rw [hchain]
    exact List.nodup_singleton _
  · rw [hchain]
    intro b hb
    rw [List.mem_singleton.mp hb]
    exact ⟨Nat.le_refl _, hlt⟩
  · rw [hchain, List.mem_singleton]
    by_contra hne
    rw [not_or] at hne
    rw [live_iff, htable b hb, if_neg hne.1, if_neg hne.2, hblank b hb] at hl
    exact hl.2 rfl

end Volume

/-! ## A file system in use -/

namespace Volume

variable {v w : Volume L} {file file' : FileDescriptor} {own dirs : List Nat}

/-- The open file is neither the root directory nor stored in its first block. -/
structure Clear (v : Volume L) (file : FileDescriptor) (dirs : List Nat) : Prop where
  mountable : L.Mountable v.flash
  filed : ∃ own, v.Filed file own dirs ∧ L.fileSystemTableSize ∉ own
  ne : file.dirent ≠ L.rootDirectory

/-- A call for an open file leaves what `load` looks for. -/
theorem Updated.clear (hu : v.Updated file dirs file' w) (h : v.Clear file dirs) (hL : L.Sound) : w.Clear file' dirs := by
  obtain ⟨hm, ⟨own, hfiled, hown⟩, hne⟩ := h
  obtain ⟨own', hfiled', hleaves, hwithin⟩ := hu.spares own hfiled
  have hapart : ∀ b < L.fileSystemTableSize, b ∉ own ++ dirs := fun b hb hmem => by
    rcases List.mem_append.mp hmem with hmem | hmem
    · exact (Nat.not_le.mpr hb) (hfiled.stored.chained.inside b hmem).1
    · exact (Nat.not_le.mpr hb) (hfiled.directory.inside b hmem).1
  have hentry : L.rootDirectory ∈ L.entries L.fileSystemTableSize := mem_entries.mpr ⟨0, by decide, hL.root⟩
  refine ⟨hm.congr (fun b hb => ?_) ?_ ?_, ⟨own', hfiled', fun hmem => (hwithin _ hmem).elim hown hm.root⟩, hu.same.dirent ▸ hne⟩
  · exact (hleaves b (hb.trans hL.table_lt) (hapart b hb) (hfiled.directory.tabled b hb)).2
  · by_cases hdirs : L.fileSystemTableSize ∈ dirs
    · exact hfiled'.directory.live hL _ hdirs
    · have hsame := (hleaves _ hL.table_lt (fun hmem => (List.mem_append.mp hmem).elim hown hdirs) hm.root).2
      unfold Layout.Reusable
      rw [hsame]
      exact hm.root
  · by_cases hdirs : L.fileSystemTableSize ∈ dirs
    · exact hu.keeps _ (List.mem_flatMap.mpr ⟨_, hdirs, hentry⟩) hne.symm hm.valid hm.used
    · have hsame := (hleaves _ hL.table_lt (fun hmem => (List.mem_append.mp hmem).elim hown hdirs) hm.root).1 (Nat.le_refl _)
      intro k hk
      rw [hL.root]
      exact hsame k (by omega)

end Volume

namespace FileSystem

open Volume

variable {fd : Int} {file : FileDescriptor} {own dirs : List Nat} {filename : List UInt8}

/-- There is no file system on erased flash. -/
theorem isFileSystem_blank {start pages : Nat} (hblank : Blank m start (start + pages * MICROBIT_CODEPAGESIZE)) (hpos : 0 < pages) :
    isFileSystem m start = false := by
  have hlen : start + 2 ≤ start + pages * MICROBIT_CODEPAGESIZE := by
    unfold MICROBIT_CODEPAGESIZE
    omega
  have hfirst : readU16 m start = 0xFFFF := by
    unfold readU16
    rw [hblank start (Nat.le_refl _) (by omega), hblank (start + 1) (by omega) (by omega)]
    rfl
  unfold isFileSystem
  dsimp only
  rw [hfirst]
  refine Bool.and_eq_false_imp.mpr fun hall => ?_
  have hzero := List.all_eq_true.mp hall 0 (List.mem_range.mpr (by decide))
  rw [Nat.mul_zero, Nat.add_zero, hfirst] at hzero
  exact absurd hzero (by decide)

/-- `init` makes a file system on erased flash, with the root directory as its only entry, and finds it from then on. -/
theorem init_finds_new (c : FSConfig) {m : Memory} {flashStart flashPages start pages : Nat} (hstart : c.flashStart flashStart = start)
    (hpages : c.flashPages start flashPages = pages) (haligned : start % MICROBIT_CODEPAGESIZE = 0) (hpos : 0 < pages)
    (hsize : pages * blocksPerPage ≤ MBFS_EOF) (htop : start + pages * MICROBIT_CODEPAGESIZE ≤ 2 ^ 32)
    (hscratch : c.MICROBIT_DEFAULT_SCRATCH_PAGE % MICROBIT_CODEPAGESIZE = 0) (hne : c.MICROBIT_DEFAULT_SCRATCH_PAGE ≠ 0)
    (hout : c.MICROBIT_DEFAULT_SCRATCH_PAGE + MICROBIT_CODEPAGESIZE ≤ start ∨
      start + pages * MICROBIT_CODEPAGESIZE ≤ c.MICROBIT_DEFAULT_SCRATCH_PAGE)
    (hblank : Blank m start (start + pages * MICROBIT_CODEPAGESIZE)) :
    ∃ L : Layout, L.Sound ∧ L.fileSystemSize = pages * blocksPerPage ∧ L.fileSystemTable = start ∧
      ∃ v : Volume L, v.TableInvariant [L.rootDirectory] ∧
        (⟨_, FileSystem.init c m flashStart flashPages⟩ : Σ L : Layout, FileSystem L) = ⟨L, { toVolume := v }⟩ ∧
        ∀ flashPages', (⟨_, FileSystem.init c v.flash flashStart flashPages'⟩ : Σ L : Layout, FileSystem L) =
          ⟨L, .mounted v.flash⟩ := by
  subst hstart hpages
  have hnew := isFileSystem_blank hblank hpos
  have hL := c.layout_sound hnew haligned hpos hsize htop hscratch hne hout
  have hmade : c.layout m (c.flashStart flashStart) (c.flashPages (c.flashStart flashStart) flashPages) = _ :=
    if_neg (Bool.eq_false_iff.mp hnew)
  let L := c.layout m (c.flashStart flashStart) (c.flashPages (c.flashStart flashStart) flashPages)
  have hmembers : L.toFSConfig = c ∧ L.fileSystemTable = c.flashStart flashStart ∧
      L.fileSystemSize = c.flashPages (c.flashStart flashStart) flashPages * blocksPerPage ∧
      L.fileSystemTableSize = calculateFileTableSize L.fileSystemSize := by
    change L = _ at hmade
    rw [hmade]
    exact ⟨rfl, rfl, rfl, rfl⟩
  obtain ⟨hc, htable, hblocks, htablesize⟩ := hmembers
  let v : Volume L := { flash := m }
  have hunused : ∀ b < L.fileSystemSize, v.table b = MBFS_UNUSED := fun b hb => by
    have hend : c.flashPages (c.flashStart flashStart) flashPages * MICROBIT_CODEPAGESIZE = 256 * L.fileSystemSize := by
      rw [hblocks, blocksPerPage_eq]
      unfold MICROBIT_CODEPAGESIZE
      omega
    have hbyte : ∀ j < 2, m (L.fileSystemTable + 2 * b + j) = blank := fun j hj => by
      rw [htable]
      exact hblank _ (by omega) (by omega)
    change readU16 m (L.fileSystemTable + 2 * b) = _
    have h0 := hbyte 0 (by decide)
    rw [Nat.add_zero] at h0
    unfold readU16
    rw [h0, hbyte 1 (by decide)]
    rfl
  refine ⟨L, hL, hblocks, htable, v.format, format_invariant hL v hunused, ?_, fun flashPages' => ?_⟩
  · have hinit : FileSystem.init c m flashStart flashPages = { toVolume := v.format } := by
      unfold FileSystem.init
      dsimp only
      rw [if_neg (Bool.eq_false_iff.mp hnew)]
    rw [hinit]
  · have hfound := (format_mountable hL v).init hL htablesize
      (show L.toFSConfig.flashStart flashStart = L.fileSystemTable by rw [hc, htable]) flashPages'
    rw [hc] at hfound
    exact hfound

/-- A new file system of three pages. -/
theorem init_finds_new_three_pages : ∃ L : Layout, L.Sound ∧ L.fileSystemSize = 48 ∧ L.fileSystemTable = 0x10000 ∧
    ∃ v : Volume L, v.TableInvariant [L.rootDirectory] ∧
      (⟨_, FileSystem.init {} (fun _ => blank) 0x10000 3⟩ : Σ L : Layout, FileSystem L) = ⟨L, { toVolume := v }⟩ ∧
      ∀ flashPages', (⟨_, FileSystem.init {} v.flash 0x10000 flashPages'⟩ : Σ L : Layout, FileSystem L) =
        ⟨L, .mounted v.flash⟩ :=
  init_finds_new {} (show FSConfig.flashStart {} 0x10000 = 0x10000 from rfl) (show FSConfig.flashPages {} 0x10000 3 = 3 from rfl)
    (by decide) (by decide) (by decide) (by decide) (by decide) (by decide) (by decide) fun _ _ _ => rfl

/-! ## After a power cycle -/

/-- What is read depends on the flash only. -/
theorem content_mounted (v : Volume L) (dirent length : Nat) :
    (mounted v.flash : FileSystem L).content dirent length = v.content dirent length := by
  suffices h : ∀ fuel block offset size, (mounted v.flash : FileSystem L).readLoop block offset size fuel =
      v.readLoop block offset size fuel from h _ _ _ _
  intro fuel
  induction fuel with
  | zero => exact fun _ _ _ => rfl
  | succ fuel ih =>
    intro block offset size
    rw [readLoop, readLoop]
    dsimp only
    rw [ih, ih]
    rfl

/-- The file is found on the flash, and has this text. -/
def Reopens (L : Layout) (m : Memory) (directory : Nat) (filename bytes : List UInt8) : Prop :=
  (mounted m : FileSystem L).getDirectoryOf filename = .ok (some directory) → ∀ flags, ∃ id t file,
    (mounted m : FileSystem L).open filename flags = .ok (.ok id, t) ∧ t.Opened id file ∧ t.toVolume.contents file = bytes

/-- A file that is settled, with its length in the entry, is opened after a power cycle. -/
theorem Settled.reopens {s t : FileSystem L} {f : ByteFile} {file' : FileDescriptor} {e : Nat}
    (h : s.Settled fd filename file dirs f file' e t) (hL : L.Sound) (hvalid : isValidFilename filename = true)
    (hlength : lengthAt t.flash e = f.bytes.length) : Reopens L t.flash file.directory filename f.bytes := by
  intro hpath flags
  obtain ⟨hbytes, -, hlen⟩ := h.shows.stored h.cache
  obtain ⟨⟨own, hfiled⟩, -, -⟩ := h.shows
  have hmounted : (mounted t.flash : FileSystem L).toVolume.Filed file' own dirs :=
    hfiled.congr hL (show 0 < L.fileSystemSize by have := hL.table_lt; omega) (fun _ _ _ => rfl) (fun _ _ => rfl) rfl
  have hfound := hmounted.getDirectoryEntry hL h.indexed.only
  rw [h.same.directory] at hfound
  obtain ⟨id, hopen⟩ := open_closed rfl hvalid hpath hfound (List.forall_mem_nil _) flags
  have hnew : flagsAt (mounted t.flash : FileSystem L).flash e ≠ MBFS_DIRECTORY_ENTRY_NEW := fun hnew => by
    have hused := h.used
    unfold isFree at hused
    rw [show flagsAt t.flash e = _ from hnew] at hused
    exact absurd hused (by decide)
  unfold addFile at hopen
  rw [if_neg hnew] at hopen
  refine ⟨_, _, _, hopen, ⟨rfl, 0, getFileDescriptor_head rfl, rfl⟩, ?_⟩
  have hfirst : firstBlockAt t.flash e = firstBlockAt t.flash file'.dirent := h.indexed.first.trans h.indexed.start.symm
  unfold contents
  rw [List.splice_nil, hbytes, ← hlen, ← hlength]
  refine (content_mounted t.toVolume e _).trans ?_
  unfold content
  rw [hfirst]
  rfl

/-- After the calls, `flush` or `close` returns `MICROBIT_OK`. When the power is cycled then, `init` finds the file system, the file
has the text that the calls left, and every other file has its text. -/
def RebootFinds (s : FileSystem L) (fd : Int) (file : FileDescriptor) (own dirs : List Nat) (filename : List UInt8)
    (ops : List FileOp) (op : FSOp) (flashStart flashPages : Nat) : Prop :=
  ∃ rs t u, s.run (ops.map (FileOp.on fd)) = .ok (rs, t) ∧ t.perform op = .ok (.number 0, u) ∧
    (⟨_, FileSystem.init L.toFSConfig u.flash flashStart flashPages⟩ : Σ L : Layout, FileSystem L) = ⟨L, .mounted u.flash⟩ ∧
    Reopens L u.flash file.directory filename
      (ByteFile.run ⟨s.toVolume.contents file, file.seek + file.cache.length⟩ ops).2.bytes ∧
    ∀ dirent length blocks, s.toVolume.Bystander file own dirs dirent length blocks →
      (mounted u.flash : FileSystem L).content dirent length = s.content dirent length

/-- A file that was flushed or closed is found again by its name. -/
theorem reboot_finds_texts (hL : L.Sound) (s : FileSystem L) (hm : L.Mountable s.flash)
    (hsize : L.fileSystemTableSize = calculateFileTableSize L.fileSystemSize) {flashStart : Nat}
    (hstart : L.toFSConfig.flashStart flashStart = L.fileSystemTable) (ho : s.Opened fd file) (h : s.toVolume.Filed file own dirs)
    (hroot : L.fileSystemTableSize ∉ own) (hne : file.dirent ≠ L.rootDirectory) (hvalid : isValidFilename filename = true)
    (hname : (baseName filename).length ≤ 15)
    (hone : Only s.flash (L.directoryEntries s.flash file.directory) (baseName filename) file.dirent)
    (hnew : isFree s.flash file.dirent = true → flagsAt s.flash file.dirent = MBFS_DIRECTORY_ENTRY_NEW ∧
      lengthAt s.flash file.dirent = 0xFFFFFFFF) (ops : List FileOp)
    (hserves : s.Always (fun s op => s.Serves fd op) (ops.map (FileOp.on fd)))
    (hlast : ∀ rs t, s.run (ops.map (FileOp.on fd)) = .ok (rs, t) → t.Serves fd (.flush fd) ∧ t.Current fd filename)
    {op : FSOp} (hop : op = .flush fd ∨ op = .close fd) (flashPages : Nat) :
    s.RebootFinds fd file own dirs filename ops op flashStart flashPages := by
  obtain ⟨rs, t, u, file', e, hrun, hu, hsettled, ⟨hclear, hsame, hspares, hkeeps⟩, hiff⟩ := ho.settle hL h hname hone hnew
    (fun v file' => v.Clear file' dirs ∧ file.Same file' ∧ s.toVolume.Spares file dirs file' v ∧
      KeepsEntries L dirs file.dirent s.flash v.flash)
    ⟨⟨hm, ⟨own, h, hroot⟩, hne⟩, .refl file, .same fun _ hfiled => hfiled, (SameEntries.refl L dirs _).keeps _⟩
    (fun ⟨hclear, hsame, hspares, hkeeps⟩ hu =>
      ⟨hu.clear hclear hL, hsame.trans hu.same, hspares.trans hu.spares, hkeeps.trans (hsame.dirent ▸ hu.keeps)⟩)
    ops hserves (fun rs t hrun => (hlast rs t hrun).1) hop
  refine ⟨rs, t, u, hrun, hu, hclear.mountable.init hL hsize hstart flashPages,
    hsettled.reopens hL hvalid (hiff.mpr (hlast rs t hrun).2), fun dirent length blocks hb => ?_⟩
  obtain ⟨own', hfiled', hleaves, -⟩ := hspares own h
  exact (content_mounted u.toVolume dirent length).trans
    (hb.content hleaves hkeeps hfiled'.directory.last hfiled'.directory.tabled hL)

/-- A write of three bytes, a `close` and a reboot. -/
theorem reboot_finds_texts_one_write :
    withCreated.RebootFinds 0 createdFile [2] [1] ['a'.toUInt8] [.write [1, 2, 3]] (.close 0) 0x10000 0 :=
  reboot_finds_texts Volume.threePages_sound withCreated
    ⟨by decide +kernel, by decide +kernel, by decide +kernel, by decide +kernel, by decide +kernel, by decide +kernel⟩
    (by decide) rfl withCreated_opened withCreated_filed (by decide) (by decide) (by decide) (by decide) withCreated_only
    (fun _ => by decide +kernel) [.write [1, 2, 3]] withCreated_serves withCreated_written (Or.inr rfl) 0

end FileSystem

end CodalMicrobit

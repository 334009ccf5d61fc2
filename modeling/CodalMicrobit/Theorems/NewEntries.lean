import CodalMicrobit.Theorems.EntryPlaces
import CodalMicrobit.Theorems.OpenFiles

/-!
# New entries

The name of a new file or directory is copied to a member of sixteen bytes without a look at its length, and so are the names of
the directories on the path to a buffer of seventeen. Names of up to fifteen bytes are found again. Longer ones are not refused
for it.
-/

namespace CodalMicrobit

open Nor

/-- Some part of the name without a slash has no room in the member `file_name` with the end of the text. -/
def LongName (name : List UInt8) : Prop :=
  ∃ part, part <:+: name ∧ '/'.toUInt8 ∉ part ∧ MBFS_FILENAME_LENGTH < part.length + 1

/-- The base name is such a part. -/
theorem baseName_length {name : List UInt8} (h : ¬LongName name) : (Volume.baseName name).length ≤ 15 := by
  by_contra hlen
  refine h ⟨Volume.baseName name, ?_, fun hm => ?_, ?_⟩
  · have hsuffix := List.reverse_suffix.mpr (List.takeWhile_prefix (l := name.reverse) (· != '/'.toUInt8))
    rw [List.reverse_reverse] at hsuffix
    exact hsuffix.isInfix
  · have hall : (name.reverse.takeWhile (· != '/'.toUInt8)).all (· != '/'.toUInt8) = true := List.all_takeWhile
    have hne := List.all_eq_true.mp hall _ (List.mem_reverse.mp hm)
    rw [bne_self_eq_false] at hne
    nomatch hne
  · unfold MBFS_FILENAME_LENGTH
    omega

namespace Volume

variable {L : Layout}

/-- The path of a name breaks off, from a directory on: it comes to an empty part, or to one that is not there, before it comes
to one that is too long for the buffer. -/
inductive BreaksOff (v : Volume L) : Nat → List UInt8 → Prop where
  | empty (directory : Nat) (rest : List UInt8) : BreaksOff v directory ('/'.toUInt8 :: rest)
  | missing (directory : Nat) (part rest : List UInt8) (hpart : '/'.toUInt8 ∉ part)
      (hlen : part.length ≤ MBFS_FILENAME_LENGTH) (h : v.getDirectoryEntry part directory = .ok none) :
      BreaksOff v directory (part ++ '/'.toUInt8 :: rest)
  | next (directory directory' : Nat) (part rest : List UInt8) (hpart : '/'.toUInt8 ∉ part) (hne : part ≠ [])
      (hlen : part.length ≤ MBFS_FILENAME_LENGTH) (h : v.getDirectoryEntry part directory = .ok (some directory'))
      (hrest : BreaksOff v directory' rest) : BreaksOff v directory (part ++ '/'.toUInt8 :: rest)

/-- The walk reads a part of the name. -/
theorem walkPath_part (v : Volume L) (directory : Nat) (rest part : List UInt8) : ∀ s : List UInt8, '/'.toUInt8 ∉ part →
    (s ++ part).length ≤ MBFS_FILENAME_LENGTH →
      v.walkPath directory s (part ++ rest) = v.walkPath directory (s ++ part) rest := by
  induction part with
  | nil =>
    intro s _ _
    rw [List.append_nil, List.nil_append]
  | cons c part ih =>
    intro s hs hlen
    rw [List.mem_cons, not_or] at hs
    have hcons : s ++ c :: part = s ++ [c] ++ part := by rw [List.append_assoc, List.singleton_append]
    have hc : ¬c = '/'.toUInt8 := fun h => hs.1 h.symm
    have hfit : ¬s.length ≥ MBFS_FILENAME_LENGTH + 1 := by
      rw [List.length_append] at hlen
      omega
    rw [List.cons_append, walkPath, if_neg hfit, if_neg hc, hcons]
    exact ih (s ++ [c]) hs.2 (hcons ▸ hlen)

/-- `getDirectoryOf` finds no directory exactly if the path breaks off. -/
theorem walkPath_none_iff (v : Volume L) (directory : Nat) (name : List UInt8) :
    v.walkPath directory [] name = .ok none ↔ v.BreaksOff directory name := by
  refine ⟨fun h => ?_, fun h => ?_⟩
  · -- `s` is what was read of the part that is being read
    suffices hgen : ∀ (name : List UInt8) (directory : Nat) (s : List UInt8), '/'.toUInt8 ∉ s →
        v.walkPath directory s name = .ok none → v.BreaksOff directory (s ++ name) from
      hgen name directory [] List.not_mem_nil h
    intro name
    induction name with
    | nil => exact fun directory s _ h => nomatch h
    | cons c name ih =>
      intro directory s hs h
      rw [walkPath] at h
      split at h
      · nomatch h
      · rename_i hfit
        have hlen : s.length ≤ MBFS_FILENAME_LENGTH := Nat.le_of_not_lt fun hlt => hfit hlt
        split at h
        · rename_i hc
          subst hc
          by_cases hnil : s = []
          · subst hnil
            exact .empty directory name
          · rw [if_neg (by rw [List.length_eq_zero_iff, not_or]; exact ⟨hnil, by omega⟩)] at h
            obtain ⟨r, hr, h⟩ := Outcome.bind_eq_ok.mp h
            cases r with
            | none => exact .missing directory s name hs hlen hr
            | some directory' =>
              exact .next directory directory' s name hs hnil hlen hr (ih directory' [] List.not_mem_nil h)
        · rename_i hc
          have hs' : '/'.toUInt8 ∉ s ++ [c] := by
            rw [List.mem_append, List.mem_singleton, not_or]
            exact ⟨hs, fun h => hc h.symm⟩
          have := ih directory (s ++ [c]) hs' h
          rwa [List.append_assoc, List.singleton_append] at this
  · induction h with
    | empty directory rest => rfl
    | missing directory part rest hpart hlen h =>
      rw [walkPath_part v directory _ part [] hpart hlen, List.nil_append, walkPath, if_neg (by omega), if_pos rfl]
      split
      · rfl
      · rw [h]
        rfl
    | next directory directory' part rest hpart hne hlen h _ ih =>
      have hnil : ¬(part.length = 0 ∨ part.length > MBFS_FILENAME_LENGTH + 1) := by
        rw [List.length_eq_zero_iff, not_or]
        exact ⟨hne, by omega⟩
      rw [walkPath_part v directory _ part [] hpart hlen, List.nil_append, walkPath, if_neg (by omega), if_pos rfl,
        if_neg hnil, h]
      exact ih

/-- When a file that was created is closed, its entry is written again, with its length. -/
theorem flush_entered (hL : L.Sound) {v : Volume L} {directory : Nat} {name : List UInt8} (hname : name.length ≤ 15)
    {file : FileDescriptor} {entry : DirectoryEntry} (h : v.Entered directory file.dirent name entry)
    (hflags : entry.flags = MBFS_DIRECTORY_ENTRY_NEW) (hlength : entry.length = 0xFFFFFFFF) (hcache : file.cache = [])
    (hzero : file.length = 0) :
    ∃ w entry', v.flush file = .ok (file, w) ∧ w.Entered directory file.dirent name entry' ∧
      entry'.flags = MBFS_DIRECTORY_ENTRY_VALID := by
  obtain ⟨b, bs, before, after, hp⟩ := h.place
  have hback : v.writeBack file = .ok (file, v) := by
    unfold writeBack
    rw [if_pos hcache]
  have hlen : lengthAt v.flash file.dirent ≠ file.length := by
    rw [h.holds.length_eq, hlength, hzero]
    decide
  have hnew : flagsAt v.flash file.dirent = MBFS_DIRECTORY_ENTRY_NEW := by
    rw [h.holds.flags, hflags]
    decide
  have hslice : (directoryEntryAt v.flash file.dirent).fileName = entry.fileName := h.holds.slice_eq
  let entry' : DirectoryEntry :=
    { directoryEntryAt v.flash file.dirent with length := file.length, flags := MBFS_DIRECTORY_ENTRY_VALID }
  have hrun : v.flush file = .ok (file, v.flashWrite file.dirent entry'.bytes) := by
    unfold flush
    rw [hback]
    change (if lengthAt v.flash file.dirent ≠ file.length then
      if flagsAt v.flash file.dirent = MBFS_DIRECTORY_ENTRY_NEW then _ else _ else _) = _
    rw [if_pos hlen, if_pos hnew]
  exact ⟨_, entry', hrun, hp.entered hL hname entry' (slice_length _ _ _) (hslice ▸ h.named), rfl⟩

end Volume

namespace FileSystem

variable {L : Layout}

/-! ## Names -/

/-- What the calls that make entries are meant to do with a name: a file that was created is found under its name when it is
closed, a directory is at once, and a name that is too long is refused. -/
structure StoresName (s : FileSystem L) (name : List UInt8) : Prop where
  file : ∀ directory id t, s.getDirectoryOf name = .ok (some directory) → s.getDirectoryEntry name directory = .ok none →
    s.open name (MB_CREAT ||| MB_WRITE) = .ok (.ok id, t) →
      ∃ file u, t.openFiles = file :: s.openFiles ∧ file.id = id ∧ t.close id = .ok (.ok (), u) ∧
        u.getDirectoryEntry name directory = .ok (some file.dirent)
  directory : ∀ directory t, s.getDirectoryOf name = .ok (some directory) → s.getDirectoryEntry name directory = .ok none →
    s.createDirectory name = .ok (.DEVICE_OK, t) →
      ∃ dirent, s.createFile name directory true = .ok (some dirent, t.toVolume) ∧
        t.getDirectoryEntry name directory = .ok (some dirent)
  refused : LongName name → s.open name (MB_CREAT ||| MB_WRITE) = .ok (.error .DEVICE_INVALID_PARAMETER, s) ∧
    s.createDirectory name = .ok (.DEVICE_INVALID_PARAMETER, s)

/-- The calls succeed. -/
def Accepts (s : FileSystem L) (name : List UInt8) : Prop :=
  (∃ id t, s.open name (MB_CREAT ||| MB_WRITE) = .ok (.ok id, t)) ∧ ∃ t, s.createDirectory name = .ok (.DEVICE_OK, t)

variable {s : FileSystem L} {name : List UInt8} {directory : Nat}

/-- A name has no directory exactly when its path breaks off. -/
theorem getDirectoryOf_none_iff (hvalid : isValidFilename name = true) :
    s.getDirectoryOf name = .ok none ↔ s.BreaksOff L.rootDirectory name := by
  have hne : name ≠ [] := by
    rintro rfl
    nomatch hvalid
  unfold Volume.getDirectoryOf
  rw [if_neg hne]
  exact Volume.walkPath_none_iff s.toVolume L.rootDirectory name

section

variable (hs : s.initialised = true) (hvalid : isValidFilename name = true)
include hs hvalid

/-- A name is refused as it is only where its path breaks off. -/
theorem open_refused_iff (flags : Nat) (hflags : flags &&& MB_CREAT ≠ 0) :
    s.open name flags = .ok (.error .DEVICE_INVALID_PARAMETER, s) ↔ s.getDirectoryOf name = .ok none := by
  unfold FileSystem.open
  rw [hs, hvalid]
  refine ⟨fun h => ?_, fun h => ?_⟩
  · obtain ⟨r, hr, h⟩ := Outcome.bind_eq_ok.mp h
    rcases r with _ | directory
    · exact hr
    · obtain ⟨r, -, h⟩ := Outcome.bind_eq_ok.mp h
      rcases r with _ | dirent
      · dsimp only at h
        rw [if_neg hflags] at h
        obtain ⟨⟨r, v⟩, -, h⟩ := Outcome.bind_eq_ok.mp h
        rcases r with _ | dirent <;> nomatch h
      · obtain ⟨r, -, h⟩ := Outcome.bind_eq_ok.mp h
        rcases r with _ | id <;> nomatch h
  · change s.getDirectoryOf name >>= _ = _
    rw [h]
    rfl

/-- `createDirectory` refuses a path that breaks off. -/
theorem createDirectory_refused (h : s.getDirectoryOf name = .ok none) :
    s.createDirectory name = .ok (.DEVICE_INVALID_PARAMETER, s) := by
  unfold createDirectory
  rw [hs, hvalid]
  change s.getDirectoryOf name >>= _ = _
  rw [h]
  rfl

variable (hd : s.getDirectoryOf name = .ok (some directory)) (he : s.getDirectoryEntry name directory = .ok none)
include hd he

/-- `open` of a name that it creates. -/
theorem open_created {dirent : Nat} {v : Volume L} (h : s.createFile name directory false = .ok (some dirent, v)) :
    s.open name (MB_CREAT ||| MB_WRITE) = .ok ((s.setVolume v).addFile dirent directory (MB_CREAT ||| MB_WRITE) 0) := by
  unfold FileSystem.open
  rw [hs, hvalid]
  change s.getDirectoryOf name >>= _ = _
  rw [hd]
  change s.getDirectoryEntry name directory >>= _ = _
  rw [he]
  change s.createFile name directory false >>= _ = _
  rw [h]
  rfl

/-- `createDirectory` of a name that it creates. -/
theorem createDirectory_created {dirent : Nat} {v : Volume L} (h : s.createFile name directory true = .ok (some dirent, v)) :
    s.createDirectory name = .ok (.DEVICE_OK, s.setVolume v) := by
  unfold createDirectory
  rw [hs, hvalid]
  change s.getDirectoryOf name >>= _ = _
  rw [hd]
  change s.getDirectoryEntry name directory >>= _ = _
  rw [he]
  change s.createFile name directory true >>= _ = _
  rw [h]
  rfl

end

/-- Closing the file that was opened last. -/
theorem close_head (hs : s.initialised = true) {file : FileDescriptor} {files : List FileDescriptor}
    (h : s.openFiles = file :: files) {v : Volume L} (hf : s.toVolume.flush file = .ok (file, v)) :
    s.close file.id = .ok (.ok (), { s.setVolume v with openFiles := files }) := by
  have hget : s.openFiles.getD 0 ⟨0, 0, 0, 0, 0, 0, []⟩ = file := by
    rw [h]
    rfl
  have hset : s.openFiles.set 0 file = file :: files := by
    rw [h]
    rfl
  have hflush : s.flush file.id = .ok (.ok (), { s.setVolume v with openFiles := file :: files }) := by
    unfold FileSystem.flush withFile
    rw [hs, getFileDescriptor_head h]
    dsimp only
    rw [hget, hf, ← hset]
    rfl
  unfold close
  rw [hflush]
  change Except.ok (Except.ok (), _) = _
  dsimp only
  rw [getFileDescriptor_head (s := { s.setVolume v with openFiles := file :: files }) rfl]
  rfl

/-- The file that `open` adds for a new entry. -/
theorem addFile_new {dirent : Nat} (h : flagsAt s.flash dirent = MBFS_DIRECTORY_ENTRY_NEW) (directory flags id : Nat) :
    ∃ file, s.addFile dirent directory flags id = (.ok file.id, { s with openFiles := file :: s.openFiles }) ∧
      file.dirent = dirent ∧ file.length = 0 ∧ file.cache = [] :=
  ⟨_, rfl, rfl, if_pos h, rfl⟩

/-- In a state with room, a name without a long part is stored. -/
theorem stores_short (hL : L.Sound) (hs : s.initialised = true) (hvalid : isValidFilename name = true) (hlen : ¬LongName name)
    (hd : s.getDirectoryOf name = .ok (some directory)) (he : s.getDirectoryEntry name directory = .ok none)
    {entries : List Nat} (hroom : s.Room entries directory) :
    (∃ file t u, s.open name (MB_CREAT ||| MB_WRITE) = .ok (.ok file.id, t) ∧ t.openFiles = file :: s.openFiles ∧
      t.close file.id = .ok (.ok (), u) ∧ u.getDirectoryEntry name directory = .ok (some file.dirent)) ∧
    ∃ dirent t, s.createDirectory name = .ok (.DEVICE_OK, t) ∧
      s.createFile name directory true = .ok (some dirent, t.toVolume) ∧
      t.getDirectoryEntry name directory = .ok (some dirent) := by
  have hbase := baseName_length hlen
  refine ⟨?_, ?_⟩
  · obtain ⟨dirent, v, entry, hrun, hentered, hflags, hlength⟩ := Volume.createFile_entered hL hroom hbase he false
    have hnew : flagsAt v.flash dirent = MBFS_DIRECTORY_ENTRY_NEW := by
      rw [hentered.holds.flags, hflags]
      rfl
    obtain ⟨file, hadd, hdirent, hzero, hcache⟩ := addFile_new (s := s.setVolume v) hnew directory (MB_CREAT ||| MB_WRITE) 0
    have hopen := open_created hs hvalid hd he hrun
    rw [hadd] at hopen
    rw [← hdirent] at hentered
    obtain ⟨w, entry', hflush, hw, hflags'⟩ := Volume.flush_entered hL hbase hentered hflags hlength hcache hzero
    have hclose := close_head (s := { s.setVolume v with openFiles := file :: s.openFiles }) hs rfl hflush
    refine ⟨file, _, _, hopen, rfl, hclose, ?_⟩
    exact hw.found (by rw [hflags']; decide)
  · obtain ⟨dirent, v, entry, hrun, hentered, hflags, -⟩ := Volume.createFile_entered hL hroom hbase he true
    refine ⟨dirent, s.setVolume v, createDirectory_created hs hvalid hd he hrun, hrun, ?_⟩
    exact hentered.found (by rw [hflags]; decide)

/-- With room for the entry, a file system stores a name exactly if it has no long part, or its path breaks off before that;
and then the calls succeed where there is a directory for it. Without room too it stores no other name. -/
theorem stores_name (hL : L.Sound) (s : FileSystem L) (hs : s.initialised = true) (name : List UInt8)
    (hvalid : isValidFilename name = true) :
    (s.StoresName name → LongName name → s.BreaksOff L.rootDirectory name) ∧
    ((∀ directory, s.getDirectoryOf name = .ok (some directory) → s.getDirectoryEntry name directory = .ok none →
        ∃ entries, s.Room entries directory) →
      (s.StoresName name ↔ (LongName name → s.BreaksOff L.rootDirectory name)) ∧
      ((LongName name → s.BreaksOff L.rootDirectory name) →
        ∀ directory, s.getDirectoryOf name = .ok (some directory) → s.getDirectoryEntry name directory = .ok none →
          s.Accepts name)) := by
  have hnone := getDirectoryOf_none_iff (s := s) hvalid
  have hnecessary : s.StoresName name → LongName name → s.BreaksOff L.rootDirectory name := fun h hlong =>
    hnone.mp ((open_refused_iff hs hvalid _ (by decide)).mp (h.refused hlong).1)
  have hshort : (LongName name → s.BreaksOff L.rootDirectory name) →
      ∀ directory, s.getDirectoryOf name = .ok (some directory) → ¬LongName name := fun hlong directory hd h => by
    rw [hnone.mpr (hlong h)] at hd
    nomatch hd
  refine ⟨hnecessary, fun hroom => ⟨⟨hnecessary, fun hlong => ⟨fun directory id t hd he hrun => ?_,
    fun directory t hd he hrun => ?_, fun h => ?_⟩⟩, fun hlong directory hd he => ?_⟩⟩
  · obtain ⟨entries, hr⟩ := hroom directory hd he
    obtain ⟨⟨file, t', u, hopen, hfiles, hclose, hfound⟩, -⟩ :=
      stores_short hL hs hvalid (hshort hlong directory hd) hd he hr
    rw [hopen] at hrun
    cases hrun
    exact ⟨file, u, hfiles, rfl, hclose, hfound⟩
  · obtain ⟨entries, hr⟩ := hroom directory hd he
    obtain ⟨-, dirent, t', hcreate, hfile, hfound⟩ :=
      stores_short hL hs hvalid (hshort hlong directory hd) hd he hr
    rw [hcreate] at hrun
    cases hrun
    exact ⟨dirent, hfile, hfound⟩
  · have hd := hnone.mpr (hlong h)
    exact ⟨(open_refused_iff hs hvalid _ (by decide)).mpr hd, createDirectory_refused hs hvalid hd⟩
  · obtain ⟨entries, hr⟩ := hroom directory hd he
    obtain ⟨⟨file, t, u, hopen, -⟩, dirent, t', hcreate, -⟩ :=
      stores_short hL hs hvalid (hshort hlong directory hd) hd he hr
    exact ⟨⟨file.id, t, hopen⟩, t', hcreate⟩

/-- The file system with one file. -/
def withOneFile : FileSystem Volume.threePages := { toVolume := Volume.oneFile }

/-- The root directory of the example has one block. -/
theorem withOneFile_root : firstBlockAt withOneFile.flash 0x10100 = 1 ∧ Volume.threePages.IsChain withOneFile.flash [1] := by
  have hend : Volume.threePages.getNextFileBlock withOneFile.flash 1 = MBFS_EOF := by decide +kernel
  exact ⟨by decide +kernel, hend⟩

/-- The root directory of the example has room. -/
theorem withOneFile_room : withOneFile.Room [0x10100, 0x10118] 0x10100 := by
  obtain ⟨hfirst, hchain⟩ := withOneFile_root
  refine ⟨?_, by decide, ⟨1, by decide, by decide, by decide +kernel, by decide⟩, by decide +kernel,
    .free ?_ (Or.inl ⟨3, ?_⟩)⟩
  · refine ⟨?_, ?_, ?_, ?_, ?_, ?_⟩ <;> decide +kernel
  · refine ⟨0x10130, ?_, by decide +kernel⟩
    unfold Layout.directoryEntries
    rw [hfirst, Volume.chain_of_isChain [] 1 blockNumbers hchain (by unfold blockNumbers; decide)]
    decide
  · decide +kernel

/-- A name of one letter is stored. -/
theorem stores_name_one_letter : withOneFile.StoresName fileB ∧ withOneFile.Accepts fileB := by
  obtain ⟨hfirst, hchain⟩ := withOneFile_root
  have hof : withOneFile.getDirectoryOf fileB = .ok (some 0x10100) := rfl
  have hentry : withOneFile.getDirectoryEntry fileB 0x10100 = .ok none := by
    unfold Volume.getDirectoryEntry
    rw [hfirst, Volume.findEntry_eq withOneFile.toVolume _ [] 1 blockNumbers hchain (by unfold blockNumbers; decide)]
    exact congrArg Except.ok (by decide +kernel)
  have hshort : LongName fileB → withOneFile.BreaksOff Volume.threePages.rootDirectory fileB := fun ⟨part, hp, _, hlen⟩ =>
    absurd (hlen.trans_le (Nat.succ_le_succ hp.length_le)) (by decide)
  obtain ⟨hstores, haccepts⟩ := (stores_name Volume.threePages_sound withOneFile rfl fileB (by decide)).2
    (fun directory hd _ => by
      rw [hof] at hd
      cases hd
      exact ⟨_, withOneFile_room⟩)
  exact ⟨hstores.mpr hshort, haccepts hshort _ hof hentry⟩

/-- A name of sixteen letters. -/
def sixteenLetters : List UInt8 := List.replicate 16 'b'.toUInt8

/-- The name fills the member `file_name`. It is not refused. -/
theorem stores_name_sixteen_letters : isValidFilename sixteenLetters = true ∧ withOneFile.Room [0x10100, 0x10118] 0x10100 ∧
    ¬withOneFile.StoresName sixteenLetters := by
  refine ⟨by decide, withOneFile_room, fun h => ?_⟩
  have hof : withOneFile.getDirectoryOf sixteenLetters = .ok (some 0x10100) := rfl
  have hrefused := (h.refused ⟨sixteenLetters, List.infix_refl _, by decide, by decide⟩).1
  rw [(open_refused_iff rfl (by decide) _ (by decide)).mp hrefused] at hof
  nomatch hof

end FileSystem

end CodalMicrobit

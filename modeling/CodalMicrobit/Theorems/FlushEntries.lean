import CodalMicrobit.Theorems.WriteCache

/-!
# The entry of a file that is flushed

`flush` and `close` bring the entry of a file in its directory up to date. Where the entry has a length already, it is marked as
deleted and another one is written, but the open file goes on pointing to the one that was deleted. When the file has grown
again, a copy of that one is written, which is not valid, and the valid entry keeps the length it had.
-/

namespace CodalMicrobit

open Nor

namespace Volume

variable {L : Layout} {v w : Volume L} {file file' : FileDescriptor} {own dirs : List Nat} {name : List UInt8}
  {first d e flags : Nat} {f : ByteFile}

/-! ## One entry of a name -/

section

variable {m m' : Memory} {entries : List Nat}

/-- The entry is the only valid one of this name. -/
structure Only (m : Memory) (entries : List Nat) (name : List UInt8) (e : Nat) : Prop where
  mem : e ∈ entries
  valid : isValid m e = true
  named : nameIs m e name = true
  unique : ∀ d ∈ entries, isValid m d = true → nameIs m d name = true → d = e

/-- Being the only entry of a name depends on the bytes of the entries. -/
theorem Only.congr (h : Only m entries name e) (hn : name.length ≤ 15)
    (hsame : ∀ d ∈ entries, ∀ k < 24, m' (d + k) = m (d + k)) : Only m' entries name e := by
  refine ⟨h.mem, ?_, ?_, fun d hd hv hnd => h.unique d hd ?_ ?_⟩
  · rw [isValid_congr (hsame e h.mem), h.valid]
  · rw [nameIs_congr hn (hsame e h.mem), h.named]
  · rwa [isValid_congr (hsame d hd)] at hv
  · rwa [nameIs_congr hn (hsame d hd)] at hnd

/-- The length in an entry depends on its own bytes only. -/
theorem lengthAt_congr (h : ∀ k < 24, m (d + k) = m' (d + k)) : lengthAt m d = lengthAt m' d := by
  have hhalf : ∀ o, o + 1 < 24 → readU16 m (d + o) = readU16 m' (d + o) := fun o ho => readU16_congr fun k hk => by
    rw [Nat.add_assoc]
    exact h (o + k) (by omega)
  unfold lengthAt readU32
  rw [hhalf 20 (by omega), Nat.add_assoc, hhalf (20 + 2) (by omega)]

/-- An entry that was never written since its block was erased has no name. -/
theorem nameIs_blank (hn : name.length ≤ 15) (h : ∀ k < 24, m (d + k) = blank) : nameIs m d name = false := by
  refine Bool.eq_false_iff.mpr fun hname => ?_
  obtain ⟨-, hbytes⟩ := (slice_eq_iff _ _ _ _).mp (beq_iff_eq.mp hname)
  have hend := hbytes name.length (by rw [List.length_append]; exact Nat.lt_succ_self _)
  rw [h name.length (by omega), List.getElem_concat_length rfl] at hend
  exact absurd hend (by decide)

end

/-! ## The entry of the open file -/

section

variable (h : v.Relisted file dirs d flags w)
include h

/-- The new entry has the name of the old one. -/
theorem Relisted.nameIs_eq (hn : name.length ≤ 15) : nameIs w.flash d name = nameIs v.flash file.dirent name := by
  have hslice : slice w.flash d 16 = slice v.flash file.dirent 16 := h.holds.slice_eq
  have hle : name.length + 1 ≤ 16 := by omega
  unfold nameIs
  rw [← slice_take _ _ hle, hslice, slice_take _ _ hle]

/-- The new entry has the first block of the old one. -/
theorem Relisted.firstBlock_eq : firstBlockAt w.flash d = firstBlockAt v.flash file.dirent :=
  h.holds.firstBlock.trans (Nat.mod_eq_of_lt (readU16_lt _ _))

/-- The new entry has the length of the open file. -/
theorem Relisted.length_eq (hlen : file.length < 2 ^ 32) : lengthAt w.flash d = file.length :=
  h.holds.length_eq.trans (Nat.mod_eq_of_lt hlen)

/-- Another valid entry of a name was there before, and is not the old one of the file. -/
theorem Relisted.other (hn : name.length ≤ 15) {x : Nat} (hx : x ∈ dirs.flatMap L.entries) (hne : x ≠ d)
    (hv : isValid w.flash x = true) (hname : nameIs w.flash x name = true) :
    x ≠ file.dirent ∧ isValid v.flash x = true ∧ nameIs v.flash x name = true := by
  have hself : x ≠ file.dirent := by
    rintro rfl
    rw [h.old (Ne.symm hne)] at hv
    exact Bool.false_ne_true hv
  rcases h.others x hx hne hself with hsame | ⟨-, hblank⟩
  · rw [isValid_congr hsame] at hv
    rw [nameIs_congr hn hsame] at hname
    exact ⟨hself, hv, hname⟩
  · rw [nameIs_blank hn hblank] at hname
    exact absurd hname Bool.false_ne_true

end

/-- The entry `e` is the one of the open file, which starts with the block `first`. The file may point to another entry, but not
to a valid one, and only an entry that was not written since the file was created is free. -/
structure Indexed (v : Volume L) (file : FileDescriptor) (dirs : List Nat) (name : List UInt8) (first e : Nat) : Prop where
  only : Only v.flash (dirs.flatMap L.entries) name e
  start : firstBlockAt v.flash file.dirent = first
  first : firstBlockAt v.flash e = first
  dirent : isValid v.flash file.dirent = true → file.dirent = e
  fresh : isFree v.flash e = true → file.dirent = e ∧ flagsAt v.flash e = MBFS_DIRECTORY_ENTRY_NEW ∧
    lengthAt v.flash e = 0xFFFFFFFF

/-- An entry marked as new is valid. -/
theorem isValid_new {m : Memory} (h : flagsAt m d = MBFS_DIRECTORY_ENTRY_NEW) : isValid m d = true := by
  unfold isValid
  rw [h]
  rfl

section

variable (hi : v.Indexed file dirs name first e) (hn : name.length ≤ 15)
include hi hn

/-- A call that leaves the directory alone leaves the file's index alone. -/
theorem Indexed.congr (hlisted : file.dirent ∈ dirs.flatMap L.entries) (hsame : file.Same file')
    (hentries : SameEntries L dirs v.flash w.flash) : w.Indexed file' dirs name first e := by
  have he := hentries e hi.only.mem
  have hd := hentries file.dirent hlisted
  refine ⟨hi.only.congr hn hentries, ?_, ?_, fun hv => ?_, fun hf => ?_⟩
  · rw [hsame.dirent, firstBlockAt_congr hd, hi.start]
  · rw [firstBlockAt_congr he, hi.first]
  · rw [hsame.dirent] at hv ⊢
    rw [isValid_congr hd] at hv
    exact hi.dirent hv
  · rw [isFree_congr he] at hf
    rw [hsame.dirent, flagsAt_congr he, lengthAt_congr he]
    exact hi.fresh hf

/-- A valid entry that is written for the file is its entry from then on. -/
theorem Indexed.renewed (hre : v.Relisted file dirs d flags w) (he : file.dirent = e) (hv : isValid w.flash d = true)
    (hf : isFree w.flash d = false) : w.Indexed file dirs name first d := by
  refine ⟨⟨hre.listed, hv, ?_, fun x hx hvx hnx => ?_⟩, hre.first.trans hi.start, hre.firstBlock_eq.trans hi.start, fun hvd => ?_,
    fun hfd => ?_⟩
  · rw [hre.nameIs_eq hn, he, hi.only.named]
  · by_contra hne
    obtain ⟨hself, hvalid, hnamed⟩ := hre.other hn hx hne hvx hnx
    exact hself ((hi.only.unique x hx hvalid hnamed).trans he.symm)
  · by_contra hne
    rw [hre.old (Ne.symm hne)] at hvd
    exact Bool.false_ne_true hvd
  · rw [hf] at hfd
    exact absurd hfd Bool.false_ne_true

/-- When the file points to a deleted entry and a copy of that is written, its entry stays as it was. -/
theorem Indexed.left (hre : v.Relisted file dirs d flags w) (hdirent : isValid v.flash file.dirent = false)
    (hd : isValid w.flash d = false) : w.Indexed file dirs name first e ∧ ∀ k < 24, w.flash (e + k) = v.flash (e + k) := by
  have hself : e ≠ file.dirent := by
    rintro rfl
    rw [hi.only.valid] at hdirent
    exact Bool.false_ne_true hdirent.symm
  have hne : e ≠ d := by
    rintro rfl
    rcases hre.spare hself with hfree | hinvalid
    · exact hself (hi.fresh hfree).1.symm
    · rw [hi.only.valid] at hinvalid
      exact Bool.false_ne_true hinvalid.symm
  have hsame : ∀ k < 24, w.flash (e + k) = v.flash (e + k) := by
    rcases hre.others e hi.only.mem hne hself with hsame | ⟨hinvalid, -⟩
    · exact hsame
    · rw [hi.only.valid] at hinvalid
      exact absurd hinvalid.symm Bool.false_ne_true
  refine ⟨⟨⟨hi.only.mem, ?_, ?_, fun x hx hvx hnx => ?_⟩, hre.first.trans hi.start, ?_, fun hv => ?_, fun hf => ?_⟩, hsame⟩
  · rw [isValid_congr hsame, hi.only.valid]
  · rw [nameIs_congr hn hsame, hi.only.named]
  · have hxd : x ≠ d := by
      rintro rfl
      rw [hd] at hvx
      exact Bool.false_ne_true hvx
    obtain ⟨-, hvalid, hnamed⟩ := hre.other hn hx hxd hvx hnx
    exact hi.only.unique x hx hvalid hnamed
  · rw [firstBlockAt_congr hsame, hi.first]
  · by_cases hdd : d = file.dirent
    · rw [← hdd, hd] at hv
      exact absurd hv Bool.false_ne_true
    · rw [hre.old hdd] at hv
      exact absurd hv Bool.false_ne_true
  · rw [isFree_congr hsame] at hf
    exact absurd (hi.fresh hf).1.symm hself

/-- What `flush` makes of the entry of the file. It has the length of the file if the file points to it, or the length was there
before. -/
theorem Indexed.flushed (hlen : file.length < 0xFFFFFFFF) (hf : v.Flushed file dirs w) :
    ∃ e', w.Indexed file dirs name first e' ∧ isFree w.flash e' = false ∧
      (lengthAt w.flash e' = file.length ↔ isValid v.flash file.dirent = true ∨ lengthAt v.flash e = file.length) := by
  cases hf with
  | same hlength h =>
    subst h
    refine ⟨e, hi, Bool.eq_false_iff.mpr fun hfree => ?_, Or.inr, fun hor => hor.elim (fun hv => ?_) id⟩
    · obtain ⟨he, -, hmax⟩ := hi.fresh hfree
      rw [← he, hlength] at hmax
      omega
    · rw [← hi.dirent hv, hlength]
  | created hnew h =>
    have hv := isValid_new hnew
    have hflags : flagsAt w.flash file.dirent = MBFS_DIRECTORY_ENTRY_VALID :=
      h.holds.flags.trans (Nat.mod_eq_of_lt (show MBFS_DIRECTORY_ENTRY_VALID < 2 ^ 16 by decide))
    have hvalid : isValid w.flash file.dirent = true := by
      unfold isValid
      rw [hflags]
      rfl
    have hfree : isFree w.flash file.dirent = false := by
      unfold isFree
      rw [hflags]
      rfl
    exact ⟨_, hi.renewed hn h (hi.dirent hv) hvalid hfree, hfree, fun _ => Or.inl hv, fun _ => h.length_eq (by omega)⟩
  | moved d hnew h =>
    have hflags : flagsAt w.flash d = flagsAt v.flash file.dirent :=
      h.holds.flags.trans (Nat.mod_eq_of_lt (readU16_lt _ _))
    have hvalid : isValid w.flash d = isValid v.flash file.dirent := by
      unfold isValid
      rw [hflags]
    have hfree : isFree w.flash d = isFree v.flash file.dirent := by
      unfold isFree
      rw [hflags]
    by_cases hv : isValid v.flash file.dirent = true
    · have he := hi.dirent hv
      have hused : isFree w.flash d = false := by
        rw [hfree, he]
        refine Bool.eq_false_iff.mpr fun hf => hnew ?_
        rw [he]
        exact (hi.fresh hf).2.1
      exact ⟨d, hi.renewed hn h he (hvalid.trans hv) hused, hused, fun _ => Or.inl hv, fun _ => h.length_eq (by omega)⟩
    · have hv' := Bool.eq_false_iff.mpr hv
      obtain ⟨hw, hsame⟩ := hi.left hn h hv' (hvalid.trans hv')
      refine ⟨e, hw, Bool.eq_false_iff.mpr fun hf => ?_, ?_⟩
      · rw [isFree_congr hsame] at hf
        obtain ⟨he, -⟩ := hi.fresh hf
        exact hv (he ▸ hi.only.valid)
      · rw [lengthAt_congr hsame]
        exact ⟨Or.inr, fun hor => hor.resolve_left hv⟩

end

/-! ## Finding it again -/

/-- A stored file is shorter than the mark of an unwritten length. -/
theorem Filed.length_lt (h : v.Filed file own dirs) (hL : L.Sound) : file.length < 0xFFFFFFFF := by
  have hroom := h.stored.room
  have hown := h.stored.chained.length_le
  have hsize := hL.size_lt
  omega

/-- A call leaves the file with an entry. -/
theorem Indexed.updated (hi : v.Indexed file dirs name first e) (hL : L.Sound) (hn : name.length ≤ 15)
    (hlisted : file.dirent ∈ dirs.flatMap L.entries) (hu : v.Updated file dirs file' w) :
    file.Same file' ∧ ∃ e', w.Indexed file' dirs name first e' := by
  cases hu with
  | kept hs => exact ⟨hs.same, e, hi.congr hn hlisted hs.same hs.entries⟩
  | flushed u hs hf _ =>
    obtain ⟨own, hfiled⟩ := hs.shows.filed
    obtain ⟨e', hw, -, -⟩ := (hi.congr hn hlisted hs.same hs.entries).flushed hn (hfiled.length_lt hL) hf
    exact ⟨hs.same, e', hw⟩

/-- The only valid entry of a name is found. -/
theorem Filed.getDirectoryEntry (h : v.Filed file own dirs) (hL : L.Sound) {filename : List UInt8}
    (ho : Only v.flash (dirs.flatMap L.entries) (baseName filename) e) :
    v.getDirectoryEntry filename file.directory = .ok (some e) := by
  obtain ⟨bs, rfl, hshort⟩ := h.blocks hL
  unfold Volume.getDirectoryEntry
  rw [findEntry_eq v _ bs _ blockNumbers h.directory.chain hshort]
  have hfound : ∃ d ∈ (firstBlockAt v.flash file.directory :: bs).flatMap L.entries,
      (isValid v.flash d && nameIs v.flash d (baseName filename)) = true :=
    ⟨e, ho.mem, by rw [ho.valid, ho.named]; rfl⟩
  obtain ⟨d, hd⟩ := Option.isSome_iff_exists.mp (List.find?_isSome.mpr hfound)
  have hboth := List.find?_some hd
  obtain ⟨hv, hn⟩ := Bool.and_eq_true_iff.mp hboth
  rw [hd, ho.unique d (List.mem_of_find?_eq_some hd) hv hn]

end Volume

namespace FileSystem

variable {L : Layout} {s t : FileSystem L} {fd : Int} {file : FileDescriptor} {own dirs : List Nat} {filename : List UInt8}
  {directory first e : Nat} {f : ByteFile}

open Volume

/-- The directory has one valid entry of this name, with this first block and the length of this text, and when the file is
opened again its text is this one. -/
def Durable (s : FileSystem L) (directory : Nat) (filename : List UInt8) (first : Nat) (bytes : List UInt8) : Prop :=
  ∃ d, Only s.flash (L.directoryEntries s.flash directory) (baseName filename) d ∧ firstBlockAt s.flash d = first ∧
    lengthAt s.flash d = bytes.length ∧ ∀ flags id t, s.getDirectoryOf filename = .ok (some directory) →
      s.open filename flags = .ok (.ok id, t) → ∃ file, t.Opened id file ∧ file.dirent = d ∧ t.toVolume.contents file = bytes

/-- The open file points to its entry in the directory, or the length that it has is in the entry already. -/
def Current (s : FileSystem L) (fd : Int) (filename : List UInt8) : Prop :=
  ∀ file, s.Opened fd file → isValid s.flash file.dirent = true ∨
    ∃ e, Only s.flash (L.directoryEntries s.flash file.directory) (baseName filename) e ∧
      lengthAt s.flash e = (s.toVolume.contents file).length

/-- An entry is current exactly when it is valid or has the length of what the user sees. -/
theorem current_iff (ho : s.Opened fd file) (hL : L.Sound) (h : s.toVolume.Shows file dirs f)
    (hi : s.toVolume.Indexed file dirs (baseName filename) first e) :
    s.Current fd filename ↔ isValid s.flash file.dirent = true ∨ lengthAt s.flash e = f.bytes.length := by
  obtain ⟨⟨own, hfiled⟩, hbytes, -⟩ := h
  have hentries := hfiled.directoryEntries_eq hL
  rw [hbytes]
  refine ⟨fun hc => (hc file ho).imp_right ?_, fun hor file' ho' => ?_⟩
  · rintro ⟨d, hd, hlength⟩
    rw [hentries] at hd
    rwa [hi.only.unique d hd.mem hd.valid hd.named] at hlength
  · obtain rfl := ho.unique ho'
    exact hor.imp_right fun hlength => ⟨e, hentries ▸ hi.only, hlength⟩

/-- A file that is found is opened with its entry. -/
theorem open_found {flags id : Nat} {dirent : Nat} (hd : s.getDirectoryOf filename = .ok (some directory))
    (he : s.getDirectoryEntry filename directory = .ok (some dirent)) (h : s.open filename flags = .ok (.ok id, t)) :
    s.initialised = true ∧ ∃ i, s.addFile dirent directory flags i = (.ok id, t) := by
  unfold FileSystem.open at h
  cases hinit : s.initialised with
  | false =>
    rw [hinit] at h
    cases h
  | true =>
    refine ⟨rfl, ?_⟩
    cases hvalid : isValidFilename filename with
    | false =>
      rw [hinit, hvalid] at h
      cases h
    | true =>
      rw [hinit, hvalid] at h
      obtain ⟨r, hr, h⟩ := Outcome.bind_eq_ok.mp h
      rw [hd] at hr
      cases hr
      obtain ⟨r, hr, h⟩ := Outcome.bind_eq_ok.mp h
      rw [he] at hr
      cases hr
      obtain ⟨r, -, h⟩ := Outcome.bind_eq_ok.mp h
      cases r with
      | none => cases h
      | some i => exact ⟨i, Except.ok.inj h⟩

/-- With nothing cached, the text is durable exactly when the entry has its length. -/
theorem durable_iff (hL : L.Sound) (h : s.toVolume.Shows file dirs f) (hcache : file.cache = [])
    (hi : s.toVolume.Indexed file dirs (baseName filename) first e) (hused : isFree s.flash e = false) :
    s.Durable file.directory filename first f.bytes ↔ lengthAt s.flash e = f.bytes.length := by
  obtain ⟨hbytes, -, hlen⟩ := h.stored hcache
  obtain ⟨⟨own, hfiled⟩, -, -⟩ := h
  have hentries := hfiled.directoryEntries_eq hL
  refine ⟨?_, fun hlength => ?_⟩
  · rintro ⟨d, hd, -, hlength, -⟩
    rw [hentries] at hd
    rwa [hi.only.unique d hd.mem hd.valid hd.named] at hlength
  · refine ⟨e, hentries ▸ hi.only, hi.first, hlength, fun flags id t hpath hopen => ?_⟩
    obtain ⟨hinit, i, hadd⟩ := open_found hpath (hfiled.getDirectoryEntry hL hi.only) hopen
    have hnew : flagsAt s.flash e ≠ MBFS_DIRECTORY_ENTRY_NEW := fun hnew => by
      unfold isFree at hused
      rw [hnew] at hused
      exact absurd hused (by decide)
    unfold addFile at hadd
    rw [if_neg hnew] at hadd
    cases hadd
    refine ⟨_, ⟨hinit, 0, getFileDescriptor_head rfl, rfl⟩, rfl, ?_⟩
    have hcontent : s.toVolume.content e (lengthAt s.flash e) = s.toVolume.content file.dirent file.length := by
      unfold content
      rw [hi.first, hi.start, hlength, hlen]
    unfold contents
    rw [List.splice_nil, hbytes]
    exact hcontent

/-- `flush` and `close` both flush the file that the identifier names. -/
theorem Opened.flush_or_close (ho : s.Opened fd file) {file' : FileDescriptor} {v : Volume L}
    (hrun : s.toVolume.flush file = .ok (file', v)) (hid : file'.id = file.id) {op : FSOp} (hop : op = .flush fd ∨ op = .close fd) :
    ∃ t, s.perform op = .ok (.number 0, t) ∧ t.toVolume = v := by
  obtain ⟨t, hflush, ht, -⟩ : ∃ t, s.flush fd = .ok (.ok (), t) ∧ t.toVolume = v ∧ t.Opened fd file' :=
    ho.withFile _ (Outcome.bind_eq_ok.mpr ⟨_, hrun, rfl⟩) hid
  rcases hop with rfl | rfl
  · exact ⟨t, Outcome.bind_eq_ok.mpr ⟨_, hflush, rfl⟩, ht⟩
  · have hclose : s.close fd =
        .ok (.ok (), { t with openFiles := t.openFiles.eraseIdx ((t.getFileDescriptor fd).getD 0) }) :=
      Outcome.bind_eq_ok.mpr ⟨_, hflush, rfl⟩
    exact ⟨_, Outcome.bind_eq_ok.mpr ⟨_, hclose, rfl⟩, ht⟩

/-- The file is stored as the text that the calls leave, and has an entry in the directory. The length is in it exactly if it is
current. -/
structure Settled (s : FileSystem L) (fd : Int) (filename : List UInt8) (file : FileDescriptor) (dirs : List Nat) (f : ByteFile)
    (file' : FileDescriptor) (e : Nat) (t : FileSystem L) : Prop where
  same : file.Same file'
  shows : t.toVolume.Shows file' dirs f
  cache : file'.cache = []
  indexed : t.toVolume.Indexed file' dirs (baseName filename) (firstBlockAt s.flash file.dirent) e
  used : isFree t.flash e = false

/-- After the calls, `flush` or `close` returns `MICROBIT_OK` and settles the file. What each call keeps still holds then. -/
theorem Opened.settle (ho : s.Opened fd file) (hL : L.Sound) (h : s.toVolume.Filed file own dirs)
    (hname : (baseName filename).length ≤ 15)
    (hone : Only s.flash (L.directoryEntries s.flash file.directory) (baseName filename) file.dirent)
    (hnew : isFree s.flash file.dirent = true → flagsAt s.flash file.dirent = MBFS_DIRECTORY_ENTRY_NEW ∧
      lengthAt s.flash file.dirent = 0xFFFFFFFF) (I : Volume L → FileDescriptor → Prop) (hstart : I s.toVolume file)
    (hI : ∀ {v w : Volume L} {file file' : FileDescriptor}, I v file → v.Updated file dirs file' w → I w file')
    (ops : List FileOp) (hserves : s.Always (fun s op => s.Serves fd op) (ops.map (FileOp.on fd)))
    (hlast : ∀ rs t, s.run (ops.map (FileOp.on fd)) = .ok (rs, t) → t.Serves fd (.flush fd))
    {op : FSOp} (hop : op = .flush fd ∨ op = .close fd) :
    ∃ rs t u file' e, s.run (ops.map (FileOp.on fd)) = .ok (rs, t) ∧ t.perform op = .ok (.number 0, u) ∧
      s.Settled fd filename file dirs
        (ByteFile.run ⟨s.toVolume.contents file, file.seek + file.cache.length⟩ ops).2 file' e u ∧
      I u.toVolume file' ∧ (lengthAt u.flash e =
        (ByteFile.run ⟨s.toVolume.contents file, file.seek + file.cache.length⟩ ops).2.bytes.length ↔ t.Current fd filename) := by
  rw [h.directoryEntries_eq hL] at hone
  have hindexed : s.toVolume.Indexed file dirs (baseName filename) (firstBlockAt s.flash file.dirent) file.dirent :=
    ⟨hone, rfl, rfl, fun _ => rfl, fun hf => ⟨rfl, hnew hf⟩⟩
  have hshown : s.toVolume.Shows file dirs ⟨s.toVolume.contents file, file.seek + file.cache.length⟩ := ⟨⟨own, h⟩, rfl, rfl⟩
  -- the file has an entry when the calls are over
  obtain ⟨t, file', hrun, ht, hshows, hkept, hsame, e, hi⟩ := run_shows hL
    (fun v file' => I v file' ∧ file.Same file' ∧
      ∃ e, v.Indexed file' dirs (baseName filename) (firstBlockAt s.flash file.dirent) e)
    (fun ⟨hkept, hsame, _, hi⟩ hu => by
      obtain ⟨hsame', hi'⟩ := hi.updated hL hname (hsame.dirent ▸ h.listed) hu
      exact ⟨hI hkept hu, hsame.trans hsame', hi'⟩)
    ops ho hshown ⟨hstart, .refl file, _, hindexed⟩ hserves
  have hlisted : file'.dirent ∈ dirs.flatMap L.entries := hsame.dirent ▸ h.listed
  -- what is in the cache is written, and then the entry
  obtain ⟨file'', u, x, -, hserved, hcache, hflush, hx, hflushed, hspares⟩ := hshows.flush_spec hL
    (hlast _ t hrun file' .flush ht rfl)
  obtain ⟨z, hz, rfl⟩ := ht.flush_or_close hflush hserved.same.id hop
  obtain ⟨own', hfiled⟩ := hserved.shows.filed
  obtain ⟨e', hi', hused, hiff⟩ := (hi.congr hname hlisted hserved.same hserved.entries).flushed hname (hfiled.length_lt hL) hflushed
  obtain ⟨-, -, hlen⟩ := hserved.shows.stored hcache
  rw [hserved.same.dirent, isValid_congr (hserved.entries _ hlisted), lengthAt_congr (hserved.entries e hi.only.mem), ← hlen,
    ← current_iff ht hL hshows hi] at hiff
  exact ⟨_, t, z, file'', e', hrun, hz, ⟨hsame.trans hserved.same, hx, hcache, hi', hused⟩,
    hI hkept (.flushed u hserved hflushed hspares), hiff⟩

/-- After the calls, `flush` or `close` returns `MICROBIT_OK`, and the directory has the file as it is then. -/
def FlushDurable (s : FileSystem L) (fd : Int) (file : FileDescriptor) (filename : List UInt8) (ops : List FileOp)
    (op : FSOp) : Prop :=
  ∃ rs t u, s.run (ops.map (FileOp.on fd)) = .ok (rs, t) ∧ t.perform op = .ok (.number 0, u) ∧
    u.Durable file.directory filename (firstBlockAt s.flash file.dirent)
      (ByteFile.run ⟨s.toVolume.contents file, file.seek + file.cache.length⟩ ops).2.bytes

/-- `flush` and `close` are durable exactly when the open file points to a valid entry, or has not grown since it was flushed. -/
theorem flush_durable_iff (hL : L.Sound) (s : FileSystem L) (ho : s.Opened fd file) (h : s.toVolume.Filed file own dirs)
    (hname : (baseName filename).length ≤ 15)
    (hone : Only s.flash (L.directoryEntries s.flash file.directory) (baseName filename) file.dirent)
    (hnew : isFree s.flash file.dirent = true → flagsAt s.flash file.dirent = MBFS_DIRECTORY_ENTRY_NEW ∧
      lengthAt s.flash file.dirent = 0xFFFFFFFF) (ops : List FileOp)
    (hserves : s.Always (fun s op => s.Serves fd op) (ops.map (FileOp.on fd)))
    (hlast : ∀ rs t, s.run (ops.map (FileOp.on fd)) = .ok (rs, t) → t.Serves fd (.flush fd))
    {op : FSOp} (hop : op = .flush fd ∨ op = .close fd) :
    s.FlushDurable fd file filename ops op ↔
      ∀ rs t, s.run (ops.map (FileOp.on fd)) = .ok (rs, t) → t.Current fd filename := by
  obtain ⟨rs, t, u, file', e, hrun, hu, hsettled, -, hiff⟩ := ho.settle hL h hname hone hnew (fun _ _ => True) trivial
    (fun _ _ => trivial) ops hserves hlast hop
  rw [← durable_iff hL hsettled.shows hsettled.cache hsettled.indexed hsettled.used, hsettled.same.directory] at hiff
  refine ⟨?_, fun hc => ⟨rs, t, u, hrun, hu, hiff.mpr (hc rs t hrun)⟩⟩
  rintro ⟨rs', t', u', hrun', hu', hd⟩ rs'' t'' hrun''
  rw [hrun] at hrun' hrun''
  cases hrun'
  cases hrun''
  rw [hu] at hu'
  cases hu'
  exact hiff.mp hd

/-- The created file has the only entry of its name. -/
theorem withCreated_only : Only withCreated.flash
    (Volume.threePages.directoryEntries withCreated.flash createdFile.directory) (baseName ['a'.toUInt8]) createdFile.dirent := by
  have hentries := withCreated_filed.directoryEntries_eq Volume.threePages_sound
  change Volume.threePages.directoryEntries withCreated.flash createdFile.directory = _ at hentries
  rw [hentries]
  exact ⟨by decide, by decide +kernel, by decide +kernel, by decide +kernel⟩

/-- The write can be served on the created file. -/
theorem withCreated_serves : withCreated.Always (fun s op => s.Serves 0 op) ([.write [1, 2, 3]].map (FileOp.on 0)) :=
  AlwaysBehind.serves (by decide +kernel)

/-- The file is still the one that was created, so it can be flushed. -/
theorem withCreated_written (rs : List FSReply) (u : FileSystem Volume.threePages)
    (h : withCreated.run ([.write [1, 2, 3]].map (FileOp.on 0)) = .ok (rs, u)) : u.Serves 0 (.flush 0) ∧ u.Current 0 ['a'.toUInt8] := by
  obtain ⟨w, own, hwrite, -, hentries⟩ := withCreated_filed.write_through Volume.threePages_sound rfl (Nat.zero_le _)
    (Volume.stores_at_end _ rfl (show 0 + [(1 : UInt8), 2, 3].length ≤ 256 by decide))
  obtain ⟨t, hrun, rfl, ht⟩ := withCreated_opened.write hwrite (List.cons_ne_nil _ _) rfl
  have hflags : flagsAt t.flash createdFile.dirent = MBFS_DIRECTORY_ENTRY_NEW := by
    rw [flagsAt_congr (hentries createdFile.dirent withCreated_filed.listed)]
    decide +kernel
  obtain ⟨⟨r, x⟩, hfirst, h⟩ := Outcome.bind_eq_ok.mp h
  rw [show withCreated.perform (FileOp.on 0 (.write [1, 2, 3])) = _ from hrun] at hfirst
  cases hfirst
  cases h
  have hflush : u.toVolume.Serves { createdFile with length := 3, seek := 3 } .flush := by
    refine ⟨Volume.stores_at_end _ rfl (by decide), fun file' w hback => ?_⟩
    cases hback
    exact Or.inr (Or.inl hflags)
  refine ⟨serves_of_opened ht hflush, fun file hfile => ?_⟩
  rw [ht.unique hfile]
  exact Or.inl (Volume.isValid_new hflags)

/-- A write of three bytes to a new file and a `close`. -/
theorem flush_durable_one_write : withCreated.FlushDurable 0 createdFile ['a'.toUInt8] [.write [1, 2, 3]] (.close 0) :=
  (flush_durable_iff Volume.threePages_sound withCreated withCreated_opened withCreated_filed (by decide) withCreated_only
    (fun _ => by decide +kernel) [.write [1, 2, 3]] withCreated_serves (fun rs u h => (withCreated_written rs u h).1)
    (Or.inr rfl)).mpr fun rs u h => (withCreated_written rs u h).2

end FileSystem

end CodalMicrobit

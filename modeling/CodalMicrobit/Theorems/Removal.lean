import Mathlib.Data.List.Flatten
import CodalMicrobit.Theorems.OpenFileText

/-!
# Removing a file

`remove` opens the file, marks the blocks along its chain and its entry as deleted, and drops the descriptor again. The blocks are
free then and the name is not found any more. No other file changes, and every block in use still belongs to an entry.
-/

namespace CodalMicrobit

open Nor

namespace Volume

variable {L : Layout} {u v w : Volume L} {file : FileDescriptor} {own dirs blocks entries : List Nat}

/-! ## The blocks -/

/-- The blocks are marked as deleted in the table, and nothing else is changed. -/
structure Freed (v : Volume L) (blocks : List Nat) (w : Volume L) : Prop where
  last : w.lastBlockAllocated = v.lastBlockAllocated
  table : ∀ b < L.fileSystemSize, w.table b = if b ∈ blocks then MBFS_DELETED else v.table b
  bytes : ∀ b < L.fileSystemSize, L.fileSystemTableSize ≤ b → ∀ k < 256,
    w.flash (L.getBlock b + k) = v.flash (L.getBlock b + k)

theorem Freed.trans {blocks' : List Nat} (h : v.Freed blocks w) (h' : w.Freed blocks' u) : v.Freed (blocks ++ blocks') u where
  last := h'.last.trans h.last
  table b hb := by
    rw [h'.table b hb, h.table b hb]
    by_cases hm : b ∈ blocks'
    · rw [if_pos hm, if_pos (List.mem_append_right _ hm)]
    · rw [if_neg hm]
      by_cases hm' : b ∈ blocks
      · rw [if_pos hm', if_pos (List.mem_append_left _ hm')]
      · rw [if_neg hm', if_neg fun h => (List.mem_append.mp h).elim hm' hm]
  bytes b hb htb k hk := (h'.bytes b hb htb k hk).trans (h.bytes b hb htb k hk)

/-- Marking a block's entry as deleted frees the block. -/
theorem freed_fileTableWrite (hL : L.Sound) (v : Volume L) {b : Nat} (hb : b < L.fileSystemSize) :
    v.Freed [b] (v.fileTableWrite b MBFS_DELETED) where
  last := rfl
  table c hc := by
    rw [fileTableWrite_table hL v hb hc (by decide)]
    simp only [List.mem_singleton]
  bytes c hc htc k hk := fileTableWrite_block hL v hb _ htc hc hk

/-- The loop of `remove` walks along the chain. It reads where the chain goes on before it marks a block. -/
theorem deleteChain_freed (hL : L.Sound) (bs : List Nat) : ∀ (v : Volume L) (b fuel : Nat), L.IsChain v.flash (b :: bs) →
    (b :: bs).Nodup → (∀ c ∈ b :: bs, c < L.fileSystemSize) → bs.length + 1 < fuel →
    ∃ w, v.deleteChain b fuel = .ok w ∧ v.Freed (b :: bs) w := by
  have hsize := hL.size_le
  induction bs with
  | nil =>
    intro v b fuel hchain _ hin hfuel
    obtain ⟨fuel, rfl⟩ : ∃ f, fuel = f + 2 := ⟨fuel - 2, by rw [List.length_nil] at hfuel; omega⟩
    have hb := hin b List.mem_cons_self
    have hend : v.table b = MBFS_EOF := hchain
    refine ⟨_, ?_, freed_fileTableWrite hL v hb⟩
    rw [deleteChain, if_neg (by omega), hend, deleteChain, if_pos rfl]
  | cons b' bs ih =>
    intro v b fuel hchain hnodup hin hfuel
    obtain ⟨fuel, rfl⟩ : ∃ f, fuel = f + 1 := ⟨fuel - 1, by omega⟩
    rw [List.length_cons] at hfuel
    obtain ⟨hnext, -, hrest⟩ := hchain
    obtain ⟨hb, hin⟩ := List.forall_mem_cons.mp hin
    obtain ⟨hmem, hnodup⟩ := List.nodup_cons.mp hnodup
    have hfreed := freed_fileTableWrite hL v hb
    have hchain' : L.IsChain (v.fileTableWrite b MBFS_DELETED).flash (b' :: bs) := isChain_congr bs b' hrest fun c hc => by
      have hne : c ≠ b := fun heq => hmem (heq ▸ hc)
      exact (hfreed.table c (hin c hc)).trans (if_neg (mt List.mem_singleton.mp hne))
    obtain ⟨w, hrun, hw⟩ := ih _ b' fuel hchain' hnodup hin (by omega)
    refine ⟨w, ?_, hfreed.trans hw⟩
    rw [deleteChain, if_neg (by omega), show v.table b = b' from hnext, hrun]

/-! ## The file -/

/-- The file is gone: its blocks are marked as deleted, and its entry is. -/
structure Gone (v : Volume L) (file : FileDescriptor) (own dirs : List Nat) (w : Volume L) : Prop where
  last : w.lastBlockAllocated = v.lastBlockAllocated
  table : ∀ b < L.fileSystemSize, w.table b = if b ∈ own then MBFS_DELETED else v.table b
  bytes : ∀ b < L.fileSystemSize, L.fileSystemTableSize ≤ b → b ∉ dirs → ∀ k < 256,
    w.flash (L.getBlock b + k) = v.flash (L.getBlock b + k)
  entry : isValid w.flash file.dirent = false
  entries : ∀ e, L.Slot e → e ≠ file.dirent → ∀ k < 24, w.flash (e + k) = v.flash (e + k)

/-- Freeing blocks leaves the entries of directories alone. -/
theorem Freed.slot (h : v.Freed blocks w) {e : Nat} (he : L.Slot e) : ∀ k < 24, w.flash (e + k) = v.flash (e + k) := by
  obtain ⟨b, i, hb, hb', hi, rfl⟩ := he
  intro k hk
  rw [Nat.add_assoc]
  exact h.bytes b hb' hb _ (by omega)

/-- What `remove` does with the file that it opened. -/
theorem Filed.delete (h : v.Filed file own dirs) (hL : L.Sound) :
    ∃ u, v.deleteChain (firstBlockAt v.flash file.dirent) (2 * blockNumbers) = .ok u ∧
      v.Gone file own dirs (u.marked file) := by
  obtain ⟨hhead, hchained, -, -⟩ := h.stored
  have hlen := hchained.length_le
  have hsize := hL.size_lt
  cases own with
  | nil => nomatch hhead
  | cons b bs =>
    cases hhead
    rw [List.length_cons] at hlen
    obtain ⟨u, hrun, hu⟩ := deleteChain_freed hL bs v _ (2 * blockNumbers) hchained.chain hchained.nodup
      (fun c hc => (hchained.inside c hc).2) (by unfold blockNumbers; omega)
    have hslot := h.slot h.listed
    refine ⟨u, hrun, hu.last, fun b hb => ?_, fun b hb htb hne k hk => ?_, (Volume.marked_entry hL u hslot).2, fun e he hne k hk => ?_⟩
    · exact (flashWrite_inside_table hL u hslot 18 (by decide) hb).trans (hu.table b hb)
    · exact (h.flashWrite_apart hL u 18 h.listed (by decide) b hb hne k hk).trans (hu.bytes b hb htb k hk)
    · exact (Volume.marked_other hL u hslot he hne k hk).trans (hu.slot he k hk)

section

variable (hg : v.Gone file own dirs w)
include hg

/-- What is not of the file or its directory is as it was. -/
theorem Gone.leaves : Leaves L (own ++ dirs) v.flash w.flash := fun b hb hne _ => by
  rw [List.mem_append, not_or] at hne
  exact ⟨fun htb => hg.bytes b hb htb hne.2, (hg.table b hb).trans (if_neg hne.1)⟩

variable (h : v.Filed file own dirs)
include h

/-- Removing a file keeps the entries of the others. -/
theorem Gone.keeps : KeepsEntries L dirs file.dirent v.flash w.flash := fun _ he hne _ _ => hg.entries _ (h.slot he) hne

variable (hL : L.Sound)
include hL

/-- Removing a file leaves the table's blocks marked as such. -/
theorem Gone.tabled : Tabled L w.flash := fun b hb hr => by
  have hnot : b ∉ own := fun hm => (Nat.not_le.mpr hb) (h.stored.chained.inside b hm).1
  have hsame : w.table b = v.table b := (hg.table b (hb.trans hL.table_lt)).trans (if_neg hnot)
  unfold Layout.Reusable at hr
  rw [show L.getNextFileBlock w.flash b = L.getNextFileBlock v.flash b from hsame] at hr
  exact h.directory.tabled b hb hr

/-- Removing a file leaves the chain of the directory. -/
theorem Gone.chained : w.Chained dirs :=
  h.directory.congr (hg.last ▸ h.directory.last) (hg.tabled h hL) fun b hb =>
    (hg.table b (h.directory.inside b hb).2).trans (if_neg (h.apart b hb))

/-- The name is not found any more. -/
theorem Gone.getDirectoryEntry {filename : List UInt8} (hlen : (baseName filename).length ≤ 15)
    (ho : Only v.flash (dirs.flatMap L.entries) (baseName filename) file.dirent) :
    w.getDirectoryEntry filename file.directory = .ok none := by
  obtain ⟨bs, rfl, hshort⟩ := h.blocks hL
  have hfirst := firstBlockAt_congr (hg.entries _ h.directory_slot h.ne)
  unfold Volume.getDirectoryEntry
  rw [hfirst, findEntry_eq w _ bs _ blockNumbers (hg.chained h hL).chain hshort, List.find?_eq_none.mpr]
  intro e he hfound
  obtain ⟨hv, hn⟩ := Bool.and_eq_true_iff.mp hfound
  by_cases hne : e = file.dirent
  · rw [hne, hg.entry] at hv
    exact Bool.false_ne_true hv
  · have hsame := hg.entries e (h.slot he) hne
    rw [isValid_congr hsame] at hv
    rw [nameIs_congr hlen hsame] at hn
    exact hne (ho.unique e he hv hn)

/-- The blocks in use are those of the entries that are left. -/
theorem Gone.invariant (hi : v.TableInvariant entries) (hslots : ∀ d ∈ entries, L.Slot d) (hd : file.dirent ∈ entries)
    (hroot : file.dirent ≠ L.rootDirectory) : w.TableInvariant (entries.filter (· ≠ file.dirent)) := by
  have hown : L.chain v.flash (firstBlockAt v.flash file.dirent) L.fileSystemSize = own := by
    obtain ⟨hhead, hchained, -, -⟩ := h.stored
    have hlen := hchained.length_le
    cases own with
    | nil => nomatch hhead
    | cons b bs =>
      cases hhead
      exact chain_of_isChain bs _ _ hchained.chain hlen
  -- the chain of another entry has none of the blocks, so it is as it was
  have hapart : ∀ d ∈ entries, d ≠ file.dirent →
      ∀ b ∈ L.chain v.flash (firstBlockAt v.flash d) L.fileSystemSize, b ∉ own := fun d hm hne b hb hbo => by
    have hsymm : Std.Symm (Function.onFun List.Disjoint fun d => L.chain v.flash (firstBlockAt v.flash d) L.fileSystemSize) :=
      ⟨fun _ _ hdisjoint _ hb hb' => hdisjoint hb' hb⟩
    rw [← hown] at hbo
    exact (List.nodup_flatMap.mp hi.apart).2.forall hm hd hne hb hbo
  have hchain : ∀ d ∈ entries, d ≠ file.dirent → L.chain w.flash (firstBlockAt w.flash d) L.fileSystemSize =
      L.chain v.flash (firstBlockAt v.flash d) L.fileSystemSize := fun d hm hne => by
    obtain ⟨bs, hbs, -, hin, hshort⟩ := hi.chain hL hm
    have hsame := chain_of_isChain bs _ L.fileSystemSize hbs (by omega)
    have hw : L.IsChain w.flash (firstBlockAt v.flash d :: bs) := isChain_congr bs _ hbs fun c hc =>
      (hg.table c (hin c hc).2).trans (if_neg (hapart d hm hne c (hsame ▸ hc)))
    rw [firstBlockAt_congr (hg.entries d (hslots d hm) hne), hsame, chain_of_isChain bs _ _ hw (by omega)]
  have hflat : (entries.filter (· ≠ file.dirent)).flatMap (fun d => L.chain w.flash (firstBlockAt w.flash d) L.fileSystemSize) =
      (entries.filter (· ≠ file.dirent)).flatMap fun d => L.chain v.flash (firstBlockAt v.flash d) L.fileSystemSize :=
    List.flatMap_congr fun d hm => by
      obtain ⟨hm, hne⟩ := List.mem_filter.mp hm
      exact hchain d hm (of_decide_eq_true hne)
  have hsub := List.filter_sublist (l := entries) (p := (· ≠ file.dirent))
  refine ⟨fun b hb => ?_, List.mem_filter.mpr ⟨hi.root, decide_eq_true hroot.symm⟩, fun d hm => ?_, ?_, ?_, fun b hb hl => ?_⟩
  · have hnot : b ∉ own := fun hm => (Nat.not_le.mpr hb) (h.stored.chained.inside b hm).1
    rw [hg.table b (hb.trans hL.table_lt), if_neg hnot, hi.table b hb]
  · obtain ⟨hm, hne⟩ := List.mem_filter.mp hm
    rw [isValid_congr (hg.entries d (hslots d hm) (of_decide_eq_true hne)), hi.valid d hm]
  · rw [hflat]
    exact hi.apart.sublist (hsub.flatMap _)
  · rw [hflat]
    exact fun b hb => hi.inside b ((hsub.flatMap _).subset hb)
  · rw [hflat]
    rw [live_iff, hg.table b hb] at hl
    by_cases hbo : b ∈ own
    · rw [if_pos hbo] at hl
      exact absurd rfl hl.1
    · rw [if_neg hbo] at hl
      refine (hi.live b hb ((live_iff v b).mpr hl)).imp_right fun hm => ?_
      obtain ⟨d, hm, hbd⟩ := List.mem_flatMap.mp hm
      refine List.mem_flatMap.mpr ⟨d, List.mem_filter.mpr ⟨hm, decide_eq_true fun heq => hbo ?_⟩, hbd⟩
      rw [heq, hown] at hbd
      exact hbd

end

end Volume

namespace FileSystem

variable {L : Layout} {file : FileDescriptor} {own dirs : List Nat} {filename : List UInt8}

open Volume

/-! ## The call -/

/-- The search for an identifier, on an entry that no open file has. -/
theorem walkFiles_closed {dirent : Nat} (id : Nat) {files : List FileDescriptor} (h : ∀ f ∈ files, f.dirent ≠ dirent) :
    walkFiles dirent id files = if id ∈ files.map (·.id) then .taken else .free := by
  induction files with
  | nil => rfl
  | cons file files ih =>
    obtain ⟨hfile, h⟩ := List.forall_mem_cons.mp h
    rw [walkFiles, if_neg hfile, ih h]
    by_cases hid : file.id = id
    · rw [if_pos hid, if_pos (by rw [List.map_cons, hid]; exact List.mem_cons_self)]
    · rw [if_neg hid, List.map_cons]
      refine if_congr ?_ rfl rfl
      rw [List.mem_cons]
      exact (or_iff_right (Ne.symm hid)).symm

/-- An identifier is found for a file that is not open: there are more of them than open files. -/
theorem findId_closed {dirent : Nat} {files : List FileDescriptor} (h : ∀ f ∈ files, f.dirent ≠ dirent) (fuel : Nat) : ∀ id,
    (∃ k, id ≤ k ∧ k < id + fuel ∧ k ∉ files.map (·.id)) → ∃ k, findId files dirent id fuel = .ok (some k) := by
  induction fuel with
  | zero =>
    rintro id ⟨k, hle, hlt, -⟩
    omega
  | succ fuel ih =>
    rintro id ⟨k, hle, hlt, hk⟩
    unfold findId
    rw [walkFiles_closed id h]
    by_cases hid : id ∈ files.map (·.id)
    · have hne : id ≠ k := fun heq => hk (heq ▸ hid)
      rw [if_pos hid]
      exact ih (id + 1) ⟨k, by omega, by omega, hk⟩
    · rw [if_neg hid]
      exact ⟨id, rfl⟩

/-- Some identifier is free. -/
theorem exists_id (files : List FileDescriptor) : ∃ k < files.length + 1, k ∉ files.map (·.id) := by
  by_contra hall
  have hsub : List.range (files.length + 1) ⊆ files.map (·.id) := fun k hk => by
    by_contra hne
    exact hall ⟨k, List.mem_range.mp hk, hne⟩
  have hlen := (List.subperm_of_subset List.nodup_range hsub).length_le
  rw [List.length_range, List.length_map] at hlen
  omega

/-- A file that is found and is not open is opened. -/
theorem open_closed {s : FileSystem L} (hinit : s.initialised = true) (hvalid : isValidFilename filename = true) {directory dirent : Nat}
    (hd : s.getDirectoryOf filename = .ok (some directory)) (he : s.getDirectoryEntry filename directory = .ok (some dirent))
    (hclosed : ∀ f ∈ s.openFiles, f.dirent ≠ dirent) (flags : Nat) :
    ∃ id, s.open filename flags = .ok (s.addFile dirent directory flags id) := by
  obtain ⟨k, hlt, hk⟩ := exists_id s.openFiles
  obtain ⟨id, hid⟩ := findId_closed hclosed (s.openFiles.length + 1) 0 ⟨k, Nat.zero_le k, by omega, hk⟩
  refine ⟨id, ?_⟩
  unfold FileSystem.open
  rw [hinit, hvalid, hd]
  refine Outcome.bind_eq_ok.mpr ⟨_, rfl, Outcome.bind_eq_ok.mpr ⟨_, he, Outcome.bind_eq_ok.mpr ⟨_, hid, rfl⟩⟩⟩

/-- The file is gone, and nothing else: no name leads to it, its blocks can be reused, the other files have their texts, and the
blocks in use are those of the entries that are left. -/
structure Removed (s : FileSystem L) (filename : List UInt8) (file : FileDescriptor) (own dirs : List Nat) (t : FileSystem L) :
    Prop where
  files : t.openFiles = s.openFiles
  initialised : t.initialised = true
  table : ∀ b < L.fileSystemSize, t.table b = if b ∈ own then MBFS_DELETED else s.table b
  gone : t.getDirectoryEntry filename file.directory = .ok none
  others : ∀ dirent length blocks, s.toVolume.Bystander file own dirs dirent length blocks →
    t.content dirent length = s.content dirent length
  invariant : ∀ entries, s.TableInvariant entries → (∀ d ∈ entries, L.Slot d) → file.dirent ∈ entries →
    file.dirent ≠ L.rootDirectory → t.TableInvariant (entries.filter (· ≠ file.dirent))

/-- `remove` frees the file's blocks and leaves the other files alone. -/
theorem remove_frees (hL : L.Sound) (s : FileSystem L) (hinit : s.initialised = true) (hvalid : isValidFilename filename = true)
    (hlen : (baseName filename).length ≤ 15) (h : s.toVolume.Filed file own dirs)
    (hd : s.getDirectoryOf filename = .ok (some file.directory))
    (hone : Only s.flash (L.directoryEntries s.flash file.directory) (baseName filename) file.dirent)
    (hclosed : ∀ f ∈ s.openFiles, f.dirent ≠ file.dirent) :
    ∃ t, s.remove filename = .ok (.ok (), t) ∧ s.Removed filename file own dirs t := by
  rw [h.directoryEntries_eq hL] at hone
  obtain ⟨id, hopen⟩ := open_closed hinit hvalid hd (h.getDirectoryEntry hL hone) hclosed MB_READ
  obtain ⟨u, hrun, hgone⟩ := h.delete hL
  let t : FileSystem L := { s.setVolume (u.marked file) with openFiles := s.openFiles }
  have hremove : (s.addFile file.dirent file.directory MB_READ id).2.removeFile ((id % 2 ^ 16 : Nat) : Int) = .ok t := by
    have hfd : (s.addFile file.dirent file.directory MB_READ id).2.getFileDescriptor ((id % 2 ^ 16 : Nat) : Int) = some 0 :=
      (getFileDescriptor_head (show (s.addFile file.dirent file.directory MB_READ id).2.openFiles = _ :: s.openFiles from rfl) :)
    unfold removeFile
    rw [hfd]
    exact Outcome.bind_eq_ok.mpr ⟨u, hrun, rfl⟩
  refine ⟨t, ?_, rfl, hinit, hgone.table, hgone.getDirectoryEntry h hL hlen hone, fun dirent length blocks hb => ?_,
    fun entries hi hslots hd hroot => hgone.invariant h hL hi hslots hd hroot⟩
  · unfold remove
    rw [hopen]
    exact Outcome.bind_eq_ok.mpr ⟨_, rfl, Outcome.bind_eq_ok.mpr ⟨_, hremove, rfl⟩⟩
  · exact hb.content hgone.leaves (hgone.keeps h) (hgone.last ▸ h.directory.last) (hgone.tabled h hL) hL

/-- Three bytes were written to the created file, and it was closed. -/
def withClosed : FileSystem Volume.threePages :=
  match withCreated.run [.write 0 [1, 2, 3], .close 0] with
  | .ok (_, s) => s
  | .error _ => withCreated

/-- The file as it was when it was closed. -/
def closedFile : FileDescriptor := { createdFile with seek := 3, length := 3 }

/-- Where the closed file is stored. -/
theorem withClosed_filed : withClosed.toVolume.Filed closedFile [2] [1] := by
  have htabled : Volume.Tabled Volume.threePages withClosed.flash := by
    unfold Volume.Tabled
    decide +kernel
  have hfile : Volume.threePages.getNextFileBlock withClosed.flash 2 = MBFS_EOF := by decide +kernel
  have hdirectory : Volume.threePages.getNextFileBlock withClosed.flash 1 = MBFS_EOF := by decide +kernel
  have hlast : withClosed.lastBlockAllocated < Volume.threePages.fileSystemSize := by decide +kernel
  exact ⟨⟨by decide +kernel, ⟨hlast, htabled, hfile, by decide, by decide⟩, by decide, 1, by decide +kernel⟩, by decide,
    ⟨hlast, htabled, hdirectory, by decide, by decide⟩, by decide +kernel, by decide, by decide, ⟨1, by decide +kernel⟩,
    by decide +kernel, by decide +kernel, by decide⟩

/-- The file is created, written, closed and removed. -/
theorem remove_frees_closed : ∃ t, withClosed.remove ['a'.toUInt8] = .ok (.ok (), t) ∧
    withClosed.Removed ['a'.toUInt8] closedFile [2] [1] t := by
  have hone : Only withClosed.flash (Volume.threePages.directoryEntries withClosed.flash closedFile.directory)
      (baseName ['a'.toUInt8]) closedFile.dirent := by
    have hentries := withClosed_filed.directoryEntries_eq Volume.threePages_sound
    change Volume.threePages.directoryEntries withClosed.flash closedFile.directory = _ at hentries
    rw [hentries]
    exact ⟨by decide, by decide +kernel, by decide +kernel, by decide +kernel⟩
  have hinit : withClosed.initialised = true := by decide +kernel
  have hopen : withClosed.openFiles = [] := by decide +kernel
  refine remove_frees Volume.threePages_sound withClosed hinit (by decide) (by decide) withClosed_filed rfl hone ?_
  rw [hopen]
  exact List.forall_mem_nil _

end FileSystem

end CodalMicrobit

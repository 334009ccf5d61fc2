import CodalMicrobit.Theorems.FlushEntries

/-!
# An open file is a text

The calls for an open file do what they would do with a text and a position in it. Whatever becomes of the blocks, the table and
the directory on the way, every other file keeps its text.
-/

namespace CodalMicrobit

open Nor

namespace Volume

variable {L : Layout} {v w : Volume L} {file file' : FileDescriptor} {own own' dirs : List Nat} {dirent length : Nat}
  {blocks : List Nat} {m m' m'' : Memory}

/-! ## The entries of other files -/

/-- An entry of the directory is as it was if it is valid, was written since its block was erased, and is another one than that
of the open file. -/
def KeepsEntries (L : Layout) (dirs : List Nat) (dirent : Nat) (m m' : Memory) : Prop :=
  ∀ e ∈ dirs.flatMap L.entries, e ≠ dirent → isValid m e = true → isFree m e = false → ∀ k < 24, m' (e + k) = m (e + k)

/-- A directory left alone keeps all its entries. -/
theorem SameEntries.keeps (h : SameEntries L dirs m m') (dirent : Nat) : KeepsEntries L dirs dirent m m' :=
  fun e he _ _ _ => h e he

theorem KeepsEntries.trans (h : KeepsEntries L dirs dirent m m') (h' : KeepsEntries L dirs dirent m' m'') :
    KeepsEntries L dirs dirent m m'' := by
  intro e he hne hv hf k hk
  have hsame := h e he hne hv hf
  rw [h' e he hne ((isValid_congr hsame).trans hv) ((isFree_congr hsame).trans hf) k hk, hsame k hk]

/-- The entry that `flush` writes is free, or not valid. -/
theorem Relisted.keeps {d flags : Nat} (h : v.Relisted file dirs d flags w) :
    KeepsEntries L dirs file.dirent v.flash w.flash := by
  intro e he hne hv hf
  have hd : e ≠ d := by
    rintro rfl
    rcases h.spare hne with hfree | hinvalid
    · rw [hf] at hfree
      exact Bool.false_ne_true hfree
    · rw [hv] at hinvalid
      exact Bool.false_ne_true hinvalid.symm
  rcases h.others e he hd hne with hsame | ⟨hinvalid, -⟩
  · exact hsame
  · rw [hv] at hinvalid
    exact absurd hinvalid.symm Bool.false_ne_true

/-- `flush` keeps the entries of the other files. -/
theorem Flushed.keeps (h : v.Flushed file dirs w) : KeepsEntries L dirs file.dirent v.flash w.flash := by
  cases h with
  | same _ h =>
    subst h
    exact (SameEntries.refl L dirs _).keeps _
  | created _ h => exact h.keeps
  | moved _ _ h => exact h.keeps

/-- An update leaves the file the same. -/
theorem Updated.same (h : v.Updated file dirs file' w) : file.Same file' := by
  cases h with
  | kept hs => exact hs.same
  | flushed _ hs _ _ => exact hs.same

/-- An update keeps the entries of the other files. -/
theorem Updated.keeps (h : v.Updated file dirs file' w) : KeepsEntries L dirs file.dirent v.flash w.flash := by
  cases h with
  | kept hs => exact hs.entries.keeps _
  | flushed _ hs hf _ =>
    rw [← hs.same.dirent]
    exact (hs.entries.keeps _).trans hf.keeps

/-- An update spares the other files. -/
theorem Updated.spares (h : v.Updated file dirs file' w) : v.Spares file dirs file' w := by
  cases h with
  | kept hs => exact hs.spares
  | flushed _ hs _ hspares => exact hs.spares.trans hspares

/-! ## Other files -/

/-- Another file: it is stored in other blocks, and has a valid entry of its own. -/
structure Bystander (v : Volume L) (file : FileDescriptor) (own dirs : List Nat) (dirent length : Nat) (blocks : List Nat) :
    Prop where
  stored : v.Stored dirent length blocks
  apart : ∀ b ∈ blocks, b ∉ own ++ dirs
  entry : dirent ∉ own.flatMap L.entries
  ne : dirent ≠ file.dirent
  valid : isValid v.flash dirent = true
  used : isFree v.flash dirent = false

/-- What the calls for the open file leave alone is the text of another file. -/
theorem Bystander.content (h : v.Bystander file own dirs dirent length blocks) (hleaves : Leaves L (own ++ dirs) v.flash w.flash)
    (hkeeps : KeepsEntries L dirs file.dirent v.flash w.flash) (hlast : w.lastBlockAllocated < L.fileSystemSize)
    (ht : Tabled L w.flash) (hL : L.Sound) : w.content dirent length = v.content dirent length := by
  have hsame := fun b hb => hleaves b (h.stored.chained.inside b hb).2 (h.apart b hb) (h.stored.chained.live hL b hb)
  have hchained := h.stored.chained.congr hlast ht fun b hb => (hsame b hb).2
  have hfirst : firstBlockAt w.flash dirent = firstBlockAt v.flash dirent := by
    obtain ⟨c, hc, htc, hl, hd⟩ := h.stored.home
    by_cases hdirs : c ∈ dirs
    · exact firstBlockAt_congr (hkeeps dirent (List.mem_flatMap.mpr ⟨c, hdirs, hd⟩) h.ne h.valid h.used)
    · have hown : c ∉ own := fun hm => h.entry (List.mem_flatMap.mpr ⟨c, hm, hd⟩)
      obtain ⟨hbytes, -⟩ := hleaves c hc (fun hm => (List.mem_append.mp hm).elim hown hdirs) hl
      obtain ⟨i, hi, rfl⟩ := mem_entries.mp hd
      refine firstBlockAt_congr fun k hk => ?_
      rw [Nat.add_assoc]
      exact hbytes htc _ (by omega)
  obtain ⟨hhead, hold, hroom, -⟩ := h.stored
  cases blocks with
  | nil => nomatch hhead
  | cons b bs =>
    cases hhead
    rw [content_eq w (by rw [hfirst]; exact hchained.chain) hroom, hfirst, content_eq v hold.chain hroom,
      bytesOf_congr fun b hb => (hsame b hb).1 (h.stored.chained.inside b hb).1]

end Volume

namespace FileSystem

variable {L : Layout} {fd : Int} {file : FileDescriptor} {own dirs : List Nat}

open Volume

/-- The calls return what they return for the text of the file, they leave the file with the text and the position that they
leave there, and every other file has the text it had. -/
theorem open_file_is_text (hL : L.Sound) (s : FileSystem L) (ho : s.Opened fd file) (h : s.toVolume.Filed file own dirs)
    (ops : List FileOp) (hserves : s.Always (fun s op => s.Serves fd op) (ops.map (FileOp.on fd))) :
    ∃ replies f t file', ByteFile.run ⟨s.toVolume.contents file, file.seek + file.cache.length⟩ ops = (replies, f) ∧
      s.run (ops.map (FileOp.on fd)) = .ok (replies, t) ∧ t.Opened fd file' ∧ t.toVolume.contents file' = f.bytes ∧
      file'.seek + file'.cache.length = f.seek ∧
      ∀ dirent length blocks, s.toVolume.Bystander file own dirs dirent length blocks →
        t.toVolume.content dirent length = s.toVolume.content dirent length := by
  have hstart : s.toVolume.Shows file dirs ⟨s.toVolume.contents file, file.seek + file.cache.length⟩ := ⟨⟨own, h⟩, rfl, rfl⟩
  obtain ⟨t, file', hrun, ht, hshows, hsame, hspares, hkeeps⟩ := run_shows hL
    (fun v file' => file.Same file' ∧ s.toVolume.Spares file dirs file' v ∧ KeepsEntries L dirs file.dirent s.flash v.flash)
    (fun ⟨hsame, hspares, hkeeps⟩ hu => ⟨hsame.trans hu.same, hspares.trans hu.spares, hkeeps.trans (hsame.dirent ▸ hu.keeps)⟩)
    ops ho hstart ⟨.refl file, .same fun _ hfiled => hfiled, (SameEntries.refl L dirs _).keeps _⟩ hserves
  obtain ⟨own', hfiled', hleaves, -⟩ := hspares own h
  exact ⟨_, _, t, file', rfl, hrun, ht, hshows.bytes.symm, hshows.seek.symm,
    fun dirent length blocks hb =>
      hb.content hleaves hkeeps hfiled'.directory.last hfiled'.directory.tabled hL⟩

/-- A write of three bytes to a new file. -/
theorem open_file_is_text_one_write : ∃ t file', withCreated.run [.write 0 [1, 2, 3]] = .ok ([.number 3], t) ∧
    t.Opened 0 file' ∧ t.toVolume.contents file' = [1, 2, 3] := by
  obtain ⟨replies, f, t, file', hrun, ht, hopened, hbytes, -⟩ := open_file_is_text Volume.threePages_sound withCreated
    withCreated_opened withCreated_filed [.write [1, 2, 3]] withCreated_serves
  cases hrun
  exact ⟨t, file', ht, hopened, hbytes⟩

end FileSystem

end CodalMicrobit

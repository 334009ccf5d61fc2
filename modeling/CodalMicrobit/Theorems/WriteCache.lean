import CodalMicrobit.Lemmas.ByteFile

/-!
# The write-back cache

With a write-back cache, short writes are collected in memory before they go to the flash. The calls for an open file are meant
to do the same with the cache as without. They do, as long as no write is too long for what is left of the cache: of such a
write the part that fits is written, and then all of it.
-/

namespace CodalMicrobit

open Nor

/-! ## Builds with a cache -/

/-- The layout in a build with a cache of `n` bytes. -/
def Layout.withCache (L : Layout) (n : Nat) : Layout := { L with MBFS_CACHE_SIZE := n }

/-- The flash in a build with a cache of `n` bytes. -/
def Volume.withCache {L : Layout} (v : Volume L) (n : Nat) : Volume (L.withCache n) :=
  { flash := v.flash, lastBlockAllocated := v.lastBlockAllocated, history := v.history }

/-- The file system in a build with a cache of `n` bytes. -/
def FileSystem.withCache {L : Layout} (s : FileSystem L) (n : Nat) : FileSystem (L.withCache n) :=
  { toVolume := s.toVolume.withCache n, initialised := s.initialised, openFiles := s.openFiles }

/-- The size of the cache is no part of a sound layout. -/
theorem Layout.Sound.withCache {L : Layout} (h : L.Sound) (n : Nat) : (L.withCache n).Sound :=
  ⟨h.aligned, h.whole, h.size_le, h.holds, h.table_lt, h.root, h.top, h.scratch, h.scratch_ne, h.outside⟩

namespace Volume

variable {L : Layout} {v : Volume L} {file : FileDescriptor} {own dirs : List Nat}

/-- The size of the cache does not show in the chains. -/
theorem isChain_withCache {m : Memory} (n : Nat) : ∀ blocks : List Nat, L.IsChain m blocks → (L.withCache n).IsChain m blocks
  | [], h => h
  | [_], h => h
  | _ :: b' :: bs, h => ⟨h.1, h.2.1, isChain_withCache n (b' :: bs) h.2.2⟩

/-- A file's chain is one with another cache size too. -/
theorem Chained.withCache (h : v.Chained own) (n : Nat) : (v.withCache n).Chained own :=
  ⟨h.last, h.tabled, isChain_withCache n own h.chain, h.nodup, h.inside⟩

/-- Where a file is stored does not depend on the cache size. -/
theorem Filed.withCache (h : v.Filed file own dirs) (n : Nat) : (v.withCache n).Filed file own dirs :=
  ⟨⟨h.stored.first, h.stored.chained.withCache n, h.stored.room, h.stored.home⟩, h.seek, h.directory.withCache n, h.first,
    h.apart, h.listed, h.home, h.valid, h.used, h.ne⟩

/-- What a file contains does not depend on the cache size. -/
theorem Filed.contents_withCache (h : v.Filed file own dirs) (n : Nat) : v.contents file = (v.withCache n).contents file := by
  have hcontent := (h.withCache n).stored.content.trans h.stored.content.symm
  unfold contents
  rw [hcontent]

/-- What is to be written lies behind the end of the file, unless it is nothing, and fits into the first block. -/
def Behind (file : FileDescriptor) (buffer : List UInt8) : Prop :=
  (buffer ≠ [] → file.seek = file.length) ∧ file.seek + buffer.length ≤ 256

instance (file : FileDescriptor) (buffer : List UInt8) : Decidable (Behind file buffer) :=
  inferInstanceAs (Decidable (_ ∧ _))

/-- Behind the end of a file of one block there is room for a text that fits into the block. -/
theorem stores_behind (v : Volume L) {buffer : List UInt8} (h : Behind file buffer) : v.Stores file buffer := by
  have hfit := h.2
  have hwalk : ∀ block fuel, v.seekBlock block file.seek fuel = (block, file.seek) := by
    intro block fuel
    cases fuel with
    | zero => rfl
    | succ fuel =>
      rw [seekBlock, if_neg]
      unfold MBFS_BLOCK_SIZE
      omega
  unfold Stores Writable
  rw [hwalk]
  refine ⟨.last _ _ _ _ _ _ hfit (fun hne hlt => absurd hlt ?_) (fun hcut => absurd hcut Bool.false_ne_true), .last _ _ _ _ _ hfit⟩
  rw [h.1 hne]
  exact Nat.lt_irrefl _

/-- A text fits behind the end of a file of one block. -/
theorem stores_at_end (v : Volume L) {buffer : List UInt8} (hend : file.seek = file.length)
    (hfit : file.seek + buffer.length ≤ 256) : v.Stores file buffer :=
  v.stores_behind ⟨fun _ => hend, hfit⟩

/-- The call can be served, since all that it writes lies behind the end of a file of one block. -/
def ServesBehind (v : Volume L) (file : FileDescriptor) : FileOp → Prop
  | .write buffer =>
    if buffer.length < L.MBFS_CACHE_SIZE then
      file.cache.length + buffer.length ≤ L.MBFS_CACHE_SIZE ∧
        (file.cache.length + buffer.length = L.MBFS_CACHE_SIZE → Behind file (file.cache ++ buffer))
    else Behind file file.cache ∧ ∀ file' w, v.writeBack file = .ok (file', w) → Behind file' buffer
  | .seek _ _ | .read _ => Behind file file.cache
  | .flush => Behind file file.cache ∧ ∀ file' w, v.writeBack file = .ok (file', w) →
      lengthAt w.flash file'.dirent = file'.length ∨ flagsAt w.flash file'.dirent = MBFS_DIRECTORY_ENTRY_NEW

instance (v : Volume L) (file : FileDescriptor) (op : FileOp) : Decidable (v.ServesBehind file op) :=
  match op with
  | .write buffer => inferInstanceAs (Decidable (if buffer.length < L.MBFS_CACHE_SIZE then _ ∧ (_ → Behind _ _)
      else _ ∧ ∀ file' w, v.writeBack file = .ok (file', w) → Behind file' buffer))
  | .seek _ _ | .read _ => inferInstanceAs (Decidable (Behind _ _))
  | .flush => inferInstanceAs (Decidable (_ ∧ ∀ file' w, v.writeBack file = .ok (file', w) → _ ∨ _))

/-- Such a call can be served. -/
theorem ServesBehind.serves {op : FileOp} (h : v.ServesBehind file op) : v.Serves file op := by
  cases op with
  | write buffer =>
    intro _
    simp only [ServesBehind] at h
    by_cases hlt : buffer.length < L.MBFS_CACHE_SIZE
    · rw [if_pos hlt] at h ⊢
      exact ⟨h.1, fun heq => v.stores_behind (h.2 heq)⟩
    · rw [if_neg hlt] at h ⊢
      exact ⟨v.stores_behind h.1, fun file' w hback => w.stores_behind (h.2 file' w hback)⟩
  | seek offset flags => exact v.stores_behind h
  | read size => exact fun _ => v.stores_behind h
  | flush => exact ⟨v.stores_behind h.1, fun file' w hback => (h.2 file' w hback).imp_right Or.inl⟩

/-- A write that is too long for what is left of the cache fills it up, and then all of the text is put into the cache. -/
theorem Shows.write_overfull (hL : L.Sound) {f : ByteFile} (h : v.Shows file dirs f) (buffer : List UInt8)
    (hlt : buffer.length < L.MBFS_CACHE_SIZE) (hcache : file.cache.length < L.MBFS_CACHE_SIZE)
    (hover : L.MBFS_CACHE_SIZE < file.cache.length + buffer.length)
    (hs : v.Stores file (file.cache ++ buffer.take (L.MBFS_CACHE_SIZE - file.cache.length))) :
    ∃ file' w, v.write file buffer = .ok (L.MBFS_CACHE_SIZE - file.cache.length + buffer.length, file', w) ∧
      file.Same file' := by
  -- the first turn fills the cache
  have hmin : min buffer.length (L.MBFS_CACHE_SIZE - file.cache.length) = L.MBFS_CACHE_SIZE - file.cache.length := by omega
  have htake : (buffer.take (L.MBFS_CACHE_SIZE - file.cache.length)).length = L.MBFS_CACHE_SIZE - file.cache.length :=
    List.length_take_of_le (by omega)
  have hfull : file.cache.length + (L.MBFS_CACHE_SIZE - file.cache.length) = L.MBFS_CACHE_SIZE := by omega
  obtain ⟨file', w, hback, hserved, hempty⟩ := (h.append_cache _).shows.writeBack hL hs
  -- the second turn puts the whole text there
  have hmin' : min buffer.length (L.MBFS_CACHE_SIZE - file'.cache.length) = buffer.length := by
    rw [hempty, List.length_nil]
    omega
  obtain ⟨fuel, hf⟩ : ∃ f, buffer.length = f + 2 := ⟨buffer.length - 2, by omega⟩
  refine ⟨{ file' with cache := file'.cache ++ buffer }, w, ?_, hserved.same.id, hserved.same.dirent, hserved.same.directory⟩
  unfold Volume.write
  rw [if_pos hlt, Volume.writeCached, if_pos (by omega)]
  dsimp only
  rw [hmin, List.length_append, htake, if_pos hfull, hback]
  change w.writeCached file' buffer _ buffer.length = _
  rw [hf, Volume.writeCached, if_pos (by omega)]
  dsimp only
  rw [hmin', List.take_length, if_neg (by rw [hempty, List.nil_append]; omega)]
  change w.writeCached _ buffer _ (fuel + 1) = _
  rw [Volume.writeCached, if_neg (by omega), Nat.zero_add, hf]

/-- A write that is not shorter than the cache goes to the flash. -/
theorem Filed.write_through (h : v.Filed file own dirs) (hL : L.Sound) (hcache : file.cache = []) {buffer : List UInt8}
    (hsize : L.MBFS_CACHE_SIZE ≤ buffer.length) (hs : v.Stores file buffer) :
    ∃ w blocks, v.write file buffer = .ok (buffer.length,
        { file with length := max file.length (file.seek + buffer.length), seek := file.seek + buffer.length }, w) ∧
      w.Filed { file with length := max file.length (file.seek + buffer.length), seek := file.seek + buffer.length }
        blocks dirs ∧ SameEntries L dirs v.flash w.flash := by
  obtain ⟨w, blocks, hrun, hw, -, hentries, -⟩ := h.writeBuffer hL hs
  refine ⟨w, blocks, ?_, hw file.cache, hentries⟩
  have hback : v.writeBack file = .ok (file, v) := by
    unfold Volume.writeBack
    rw [if_pos hcache]
  unfold Volume.write
  rw [if_neg (Nat.not_lt.mpr hsize), hback]
  exact hrun

end Volume

namespace FileSystem

variable {L : Layout}

/-- In a build with a cache of `n` bytes the calls return what they return in a build without one, and the file has the same
content in the end. -/
def CacheHidden (s : FileSystem L) (n : Nat) (fd : Int) (ops : List FileOp) : Prop :=
  ∃ rs t file t₀ file₀, (s.withCache n).run (ops.map (FileOp.on fd)) = .ok (rs, t) ∧
    (s.withCache 0).run (ops.map (FileOp.on fd)) = .ok (rs, t₀) ∧ t.Opened fd file ∧ t₀.Opened fd file₀ ∧
    t.toVolume.contents file = t₀.toVolume.contents file₀

/-- The cache does not show if the calls can be served with it and without. -/
theorem cache_hidden (hL : L.Sound) (s : FileSystem L) {fd : Int} {file : FileDescriptor} {own dirs : List Nat}
    (ho : s.Opened fd file) (h : s.toVolume.Filed file own dirs) (n : Nat) (ops : List FileOp)
    (hc : (s.withCache n).Always (fun s op => s.Serves fd op) (ops.map (FileOp.on fd)))
    (hd : (s.withCache 0).Always (fun s op => s.Serves fd op) (ops.map (FileOp.on fd))) : s.CacheHidden n fd ops := by
  have hrun : ∀ n, (s.withCache n).Always (fun s op => s.Serves fd op) (ops.map (FileOp.on fd)) →
      ∃ t file', (s.withCache n).run (ops.map (FileOp.on fd)) =
          .ok ((ByteFile.run ⟨s.toVolume.contents file, file.seek + file.cache.length⟩ ops).1, t) ∧ t.Opened fd file' ∧
        t.toVolume.Shows file' dirs (ByteFile.run ⟨s.toVolume.contents file, file.seek + file.cache.length⟩ ops).2 :=
    fun n ha => by
      have hshows : (s.withCache n).toVolume.Shows file dirs ⟨s.toVolume.contents file, file.seek + file.cache.length⟩ :=
        ⟨⟨own, h.withCache n⟩, h.contents_withCache n, rfl⟩
      obtain ⟨t, file', hrun, ht, hshows, -⟩ := run_shows (hL.withCache n) (fun _ _ => True) (fun _ _ => trivial) ops
        ⟨ho.initialised, ho.place⟩ hshows trivial ha
      exact ⟨t, file', hrun, ht, hshows⟩
  obtain ⟨t, file₁, hrun₁, ht, hs⟩ := hrun n hc
  obtain ⟨t₀, file₀, hrun₀, ht₀, hs₀⟩ := hrun 0 hd
  exact ⟨_, t, file₁, t₀, file₀, hrun₁, hrun₀, ht, ht₀, hs.bytes.symm.trans hs₀.bytes⟩

/-- The entry of a file that was created, as it is until the file is flushed. -/
def createdEntry : DirectoryEntry :=
  { fileName := 'a'.toUInt8 :: List.replicate 15 0
    firstBlock := 2
    flags := MBFS_DIRECTORY_ENTRY_NEW
    length := 0xFFFFFFFF }

/-- The file is open, and nothing was written to it. -/
def createdFile : FileDescriptor := ⟨MB_READ ||| MB_WRITE, 0, 0, 0, 0x10118, 0x10100, []⟩

/-- A file system in which a file was created. -/
def withCreated : FileSystem Volume.threePages where
  flash := put Volume.oneFile.flash 0x10118 createdEntry.bytes
  openFiles := [createdFile]

/-- The created file is open. -/
theorem withCreated_opened : withCreated.Opened 0 createdFile := ⟨rfl, 0, rfl, rfl⟩

/-- Where the created file is stored. -/
theorem withCreated_filed : withCreated.toVolume.Filed createdFile [2] [1] := by
  have htabled : Volume.Tabled Volume.threePages withCreated.flash := by
    unfold Volume.Tabled
    decide +kernel
  have hfile : Volume.threePages.getNextFileBlock withCreated.flash 2 = MBFS_EOF := by decide +kernel
  have hdirectory : Volume.threePages.getNextFileBlock withCreated.flash 1 = MBFS_EOF := by decide +kernel
  exact ⟨⟨by decide +kernel, ⟨by decide, htabled, hfile, by decide, by decide⟩, by decide, 1, by decide +kernel⟩, by decide,
    ⟨by decide, htabled, hdirectory, by decide, by decide⟩, by decide +kernel, by decide, by decide, ⟨1, by decide +kernel⟩,
    by decide +kernel, by decide +kernel, by decide⟩

/-- Each of the calls writes behind the end of the open file, which has one block. -/
def AlwaysBehind (s : FileSystem L) (fd : Int) : List FileOp → Prop
  | [] => True
  | op :: ops =>
    (∀ i, s.getFileDescriptor fd = some i → ∀ file, s.openFiles[i]? = some file → s.toVolume.ServesBehind file op) ∧
      ∀ r t, s.perform (op.on fd) = .ok (r, t) → t.AlwaysBehind fd ops

instance AlwaysBehind.decidable (fd : Int) : ∀ (ops : List FileOp) (s : FileSystem L), Decidable (s.AlwaysBehind fd ops)
  | [], _ => isTrue trivial
  | op :: ops, s =>
    have : ∀ t : FileSystem L, Decidable (t.AlwaysBehind fd ops) := AlwaysBehind.decidable fd ops
    inferInstanceAs (Decidable ((∀ i, _ = some i → ∀ file, _ = some file → _) ∧
      ∀ r t, s.perform (op.on fd) = .ok (r, t) → t.AlwaysBehind fd ops))

/-- Such calls can be served. -/
theorem AlwaysBehind.serves {fd : Int} {ops : List FileOp} : ∀ {s : FileSystem L}, s.AlwaysBehind fd ops →
    s.Always (fun s op => s.Serves fd op) (ops.map (FileOp.on fd)) := by
  induction ops with
  | nil => exact fun _ => trivial
  | cons op ops ih =>
    intro s h
    refine ⟨fun file o ho heq => ?_, fun r t ht => ih (h.2 r t ht)⟩
    obtain ⟨i, hi, hfile⟩ := ho.place
    obtain rfl := FileOp.on_injective fd heq
    exact (h.1 i hi file hfile).serves

/-- A write that stays in the cache, one that fills it up, a flush, and the four bytes read again. -/
def filledCache : List FileOp := [.write [1, 2, 3], .write [4], .flush, .seek 0 MB_SEEK_SET, .read 4]

/-- A cache of four bytes does not show in these calls. -/
theorem cache_hidden_filled : withCreated.CacheHidden 4 0 filledCache :=
  cache_hidden Volume.threePages_sound withCreated withCreated_opened withCreated_filed 4 filledCache
    (AlwaysBehind.serves (by decide +kernel)) (AlwaysBehind.serves (by decide +kernel))

/-- Two bytes are written where one fits. -/
theorem cache_shows : withCreated.Opened 0 createdFile ∧ withCreated.toVolume.Filed createdFile [2] [1] ∧
    ¬withCreated.CacheHidden 4 0 [.write [1, 2, 3], .write [4, 5]] := by
  refine ⟨withCreated_opened, withCreated_filed, ?_⟩
  rintro ⟨rs, t, file, t₀, file₀, hrun, hrun₀, -⟩
  have hopened : ∀ n, (withCreated.withCache n).Opened 0 createdFile := fun n => ⟨rfl, 0, rfl, rfl⟩
  have htwo : ∀ {L : Layout} {s t u : FileSystem L} {r r' : FSReply} {op op' : FSOp}, s.perform op = .ok (r, t) →
      t.perform op' = .ok (r', u) → s.run [op, op'] = .ok ([r, r'], u) := fun h h' =>
    Outcome.bind_eq_ok.mpr ⟨_, h, Outcome.bind_eq_ok.mpr ⟨_, Outcome.bind_eq_ok.mpr ⟨_, h', rfl⟩, rfl⟩⟩
  -- with the cache, the second write fills it up and then puts both bytes there
  have hcached : ∃ t, (withCreated.withCache 4).run ([.write [1, 2, 3], .write [4, 5]].map (FileOp.on 0)) =
      .ok ([.number 3, .number 3], t) := by
    have hshows : (withCreated.withCache 4).toVolume.Shows createdFile [1] ⟨_, _⟩ := ⟨⟨[2], withCreated_filed.withCache 4⟩, rfl, rfl⟩
    have hfirst : (withCreated.withCache 4).toVolume.write createdFile [1, 2, 3] =
      .ok (3, { createdFile with cache := [1, 2, 3] }, (withCreated.withCache 4).toVolume) := rfl
    obtain ⟨t, hrun, ht, ho⟩ := (hopened 4).write hfirst (List.cons_ne_nil _ _) rfl
    obtain ⟨file', w, hsecond, hsame⟩ := (hshows.append_cache [1, 2, 3]).shows.write_overfull
      (Volume.threePages_sound.withCache 4) [4, 5] (by decide) (by decide) (by decide) (Volume.stores_at_end _ rfl (by decide))
    rw [← ht] at hsecond
    obtain ⟨u, hrun', -, -⟩ := ho.write hsecond (List.cons_ne_nil _ _) hsame.id
    exact ⟨u, htwo hrun hrun'⟩
  -- without it, both writes go to the flash
  have hdirect : ∃ t, (withCreated.withCache 0).run ([.write [1, 2, 3], .write [4, 5]].map (FileOp.on 0)) =
      .ok ([.number 3, .number 2], t) := by
    have hL := Volume.threePages_sound.withCache 0
    obtain ⟨w, own, hfirst, hw, -⟩ := (withCreated_filed.withCache 0).write_through hL rfl (Nat.zero_le _)
      (Volume.stores_at_end _ rfl (show 0 + [(1 : UInt8), 2, 3].length ≤ 256 by decide))
    obtain ⟨t, hrun, rfl, ho⟩ := (hopened 0).write hfirst (List.cons_ne_nil _ _) rfl
    obtain ⟨x, -, hsecond, -⟩ := hw.write_through hL rfl (Nat.zero_le _)
      (Volume.stores_at_end _ rfl (show 3 + [(4 : UInt8), 5].length ≤ 256 by decide))
    obtain ⟨u, hrun', -, -⟩ := ho.write hsecond (List.cons_ne_nil _ _) rfl
    exact ⟨u, htwo hrun hrun'⟩
  obtain ⟨u, hcached⟩ := hcached
  obtain ⟨u₀, hdirect⟩ := hdirect
  rw [hcached] at hrun
  rw [hdirect] at hrun₀
  cases hrun
  cases hrun₀

end FileSystem

end CodalMicrobit

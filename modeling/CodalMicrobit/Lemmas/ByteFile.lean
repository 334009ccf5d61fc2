import CodalMicrobit.Lemmas.OpenFile
import CodalMicrobit.Theorems.OpenFiles

/-!
# What an open file is to its user

To its user an open file is a text and a position in it. What is in the write-back cache belongs to the text, and the blocks,
the table and the directory do not show. As long as the calls can store what they are given, they do what they would do with
the text.
-/

namespace CodalMicrobit

open Nor

/-- A call for an open file. -/
inductive FileOp where
  | write (buffer : List UInt8)
  | seek (offset : Int) (flags : Nat)
  | read (size : Nat)
  | flush

/-- The call for the open file with this identifier. -/
def FileOp.on (fd : Int) : FileOp → FSOp
  | .write buffer => .write fd buffer
  | .seek offset flags => .seek fd offset flags
  | .read size => .read fd size
  | .flush => .flush fd

/-- Different calls stay different on the same file. -/
theorem FileOp.on_injective (fd : Int) {op op' : FileOp} (h : op.on fd = op'.on fd) : op = op' := by
  cases op <;> cases op' <;> cases h <;> rfl

/-- An open file as its user sees it. -/
structure ByteFile where
  bytes : List UInt8
  seek : Nat

namespace ByteFile

/-- Where `seek` goes to. -/
def position (f : ByteFile) (offset : Int) (flags : Nat) : Int :=
  if flags = MB_SEEK_SET then offset
  else if flags = MB_SEEK_END then (f.bytes.length + offset).bmod (2 ^ 32)
  else if flags = MB_SEEK_CUR then (f.seek + offset).bmod (2 ^ 32)
  else f.seek

/-- What a call does to the file, and what it returns. -/
def perform (f : ByteFile) : FileOp → FSReply × ByteFile
  | .write buffer =>
    if buffer = [] then (.error .DEVICE_INVALID_PARAMETER, f)
    else (.number buffer.length, ⟨f.bytes.splice f.seek buffer, f.seek + buffer.length⟩)
  | .seek offset flags =>
    if f.position offset flags < 0 ∨ (f.position offset flags).toNat > f.bytes.length then
      (.error .DEVICE_INVALID_PARAMETER, f)
    else (.number (f.position offset flags).toNat, ⟨f.bytes, (f.position offset flags).toNat⟩)
  | .read size =>
    if size = 0 then (.error .DEVICE_INVALID_PARAMETER, f)
    else
      let n := min size (f.bytes.length - f.seek)
      (.bytes ((f.bytes.drop f.seek).take n), ⟨f.bytes, f.seek + n⟩)
  | .flush => (.number 0, f)

/-- What a write of some bytes does to the file its user sees. -/
theorem perform_write (f : ByteFile) {buffer : List UInt8} (h : buffer ≠ []) : f.perform (.write buffer) =
    (.number buffer.length, ⟨f.bytes.splice f.seek buffer, f.seek + buffer.length⟩) := if_neg h

/-- What a read of some bytes gives its user. -/
theorem perform_read (f : ByteFile) {size : Nat} (h : size ≠ 0) : f.perform (.read size) =
    (.bytes ((f.bytes.drop f.seek).take (min size (f.bytes.length - f.seek))),
      ⟨f.bytes, f.seek + min size (f.bytes.length - f.seek)⟩) := if_neg h

/-- What a sequence of calls does to the file, and what they return. -/
def run (f : ByteFile) : List FileOp → List FSReply × ByteFile
  | [] => ([], f)
  | op :: ops => ((f.perform op).1 :: ((f.perform op).2.run ops).1, ((f.perform op).2.run ops).2)

end ByteFile

namespace Volume

variable {L : Layout} {v w : Volume L} {file file' : FileDescriptor} {own dirs : List Nat} {f : ByteFile}

/-! ## Storing a text -/

/-- The loop of `writeBuffer` gets each block that it asks for. -/
inductive GetsBlocks (length : Nat) : Volume L → Nat → Nat → Nat → List UInt8 → Prop where
  | last (v : Volume L) (position block offset : Nat) (buffer : List UInt8) (hfit : offset + buffer.length ≤ 256) :
      GetsBlocks length v position block offset buffer
  | next (v : Volume L) (position block offset : Nat) (buffer : List UInt8) (u w : Volume L) (b : Nat)
      (hmore : 256 < offset + buffer.length)
      (hwrite : v.writeSegment (L.getBlock block + offset) (buffer.take (256 - offset)) (position < length) = .ok u)
      (hb : b ≠ 0) (hfree : u.getFreeBlock = .ok (b, w))
      (hrest : GetsBlocks length ((w.fileTableWrite b MBFS_EOF).fileTableWrite block b) (position + (256 - offset)) b 0
        (buffer.drop (256 - offset))) : GetsBlocks length v position block offset buffer

/-- `writeBuffer` can write the buffer, and all of it. -/
def Stores (v : Volume L) (file : FileDescriptor) (buffer : List UInt8) : Prop :=
  v.Writable file buffer ∧
    let (block, offset) := v.seekBlock (firstBlockAt v.flash file.dirent) file.seek file.seek
    v.GetsBlocks file.length file.seek block offset buffer

/-- With blocks for every turn, `writeBuffer`'s loop writes the whole buffer. -/
theorem GetsBlocks.count {length position block offset : Nat} {buffer : List UInt8}
    (h : v.GetsBlocks length position block offset buffer) : ∀ {fuel k : Nat} {w : Volume L}, offset ≤ 256 →
    buffer.length + offset / 256 < fuel → v.writeLoop length position block offset buffer fuel = .ok (k, w) →
    k = buffer.length := by
  induction h with
  | last v position block offset buffer hfit =>
    intro fuel k w ho hfuel hrun
    by_cases hnil : buffer = []
    · obtain ⟨fuel, rfl⟩ : ∃ f, fuel = f + 1 := ⟨fuel - 1, by omega⟩
      subst hnil
      rw [writeLoop_nil] at hrun
      cases hrun
      rfl
    · have hlen := List.length_pos_of_ne_nil hnil
      obtain ⟨fuel, rfl⟩ : ∃ f, fuel = f + 2 := ⟨fuel - 2, by omega⟩
      rw [writeLoop_end v length position block fuel hnil hfit] at hrun
      obtain ⟨u, -, hrun⟩ := Outcome.bind_eq_ok.mp hrun
      cases hrun
      rfl
  | next v position block offset buffer u w b hmore hwrite hb hfree _ ih =>
    intro fuel k x ho hfuel hrun
    obtain ⟨fuel, rfl⟩ : ∃ f, fuel = f + 1 := ⟨fuel - 1, by omega⟩
    rw [writeLoop_turn hmore ho hwrite, hfree] at hrun
    change (if b = 0 then _ else _) = _ at hrun
    rw [if_neg hb] at hrun
    obtain ⟨⟨n, y⟩, hrest, hrun⟩ := Outcome.bind_eq_ok.mp hrun
    cases hrun
    have hn := ih (Nat.zero_le _) (by rw [List.length_drop]; omega) hrest
    rw [List.length_drop] at hn
    omega

/-- The directory's entries are as they were. -/
def SameEntries (L : Layout) (dirs : List Nat) (m m' : Memory) : Prop :=
  ∀ e ∈ dirs.flatMap L.entries, ∀ k < 24, m' (e + k) = m (e + k)

theorem SameEntries.refl (L : Layout) (dirs : List Nat) (m : Memory) : SameEntries L dirs m m := fun _ _ _ _ => rfl

theorem SameEntries.trans {m m' m'' : Memory} (h : SameEntries L dirs m m') (h' : SameEntries L dirs m' m'') :
    SameEntries L dirs m m'' := fun e he k hk => (h' e he k hk).trans (h e he k hk)

/-- The blocks in use that are neither of the file nor of its directory are as they were, and no other block was in use before
that the file is stored in. -/
def Spares (v : Volume L) (file : FileDescriptor) (dirs : List Nat) (file' : FileDescriptor) (w : Volume L) : Prop :=
  ∀ own, v.Filed file own dirs → ∃ own', w.Filed file' own' dirs ∧ Leaves L (own ++ dirs) v.flash w.flash ∧
    ∀ b ∈ own', b ∈ own ∨ L.Reusable v.flash b

/-- A file that stays filed where it was has spared the others. -/
theorem Spares.same (h : ∀ own, v.Filed file own dirs → v.Filed file' own dirs) : v.Spares file dirs file' v :=
  fun own hfiled => ⟨own, h own hfiled, .refl _ _, fun _ hb => Or.inl hb⟩

theorem Spares.trans {file'' : FileDescriptor} {x : Volume L} (h : v.Spares file dirs file' w)
    (h' : w.Spares file' dirs file'' x) : v.Spares file dirs file'' x := by
  intro own hfiled
  obtain ⟨own', hfiled', hleaves, hwithin⟩ := h own hfiled
  obtain ⟨own'', hfiled'', hleaves', hwithin'⟩ := h' own' hfiled'
  refine ⟨own'', hfiled'', hleaves.trans hleaves' fun b hb => ?_, fun b hb => ?_⟩
  · rcases List.mem_append.mp hb with hb | hb
    · exact (hwithin b hb).imp_left (List.mem_append_left _)
    · exact Or.inl (List.mem_append_right _ hb)
  · rcases hwithin' b hb with hb' | hr
    · exact hwithin b hb'
    · obtain ⟨-, hlt⟩ := hfiled''.stored.chained.inside b hb
      by_cases hown : b ∈ own
      · exact Or.inl hown
      · have hdirs : b ∉ dirs := fun hm => hfiled''.apart b hm hb
        exact Or.inr (hleaves.reusable hlt (fun hm => (List.mem_append.mp hm).elim hown hdirs) hr)

/-- `writeBuffer` of a text that can be stored. -/
theorem Filed.writeBuffer (h : v.Filed file own dirs) (hL : L.Sound) {buffer : List UInt8} (hs : v.Stores file buffer) :
    ∃ w blocks, v.writeBuffer file buffer = .ok (buffer.length,
        { file with length := max file.length (file.seek + buffer.length), seek := file.seek + buffer.length }, w) ∧
      (∀ cache, w.Filed { file with
        length := max file.length (file.seek + buffer.length), seek := file.seek + buffer.length, cache } blocks dirs) ∧
      w.content file.dirent (max file.length (file.seek + buffer.length)) =
        (v.content file.dirent file.length).splice file.seek buffer ∧ SameEntries L dirs v.flash w.flash ∧
      Leaves L (own ++ dirs) v.flash w.flash ∧ ∀ b ∈ blocks, b ∈ own ∨ L.Reusable v.flash b := by
  obtain ⟨k, w, blocks, hrun, hwrote, hstored, hcontent⟩ := writeBuffer_wrote hL h.stored h.entry_apart h.seek hs.1
  have hk : k = buffer.length := by
    have hgets := hs.2
    obtain ⟨pre, block, post, -, hpre, hwalk⟩ := h.stored.walk h.seek
    rw [hwalk] at hgets
    unfold Volume.writeBuffer at hrun
    rw [hwalk] at hrun
    obtain ⟨⟨n, x⟩, hloop, hrun⟩ := Outcome.bind_eq_ok.mp hrun
    cases hrun
    exact hgets.count (by omega) (by omega) hloop
  subst hk
  rw [List.take_length] at hcontent
  refine ⟨w, blocks, hrun, h.written hL hwrote hstored (Nat.le_max_right _ _), hcontent, fun e he => ?_,
    fun b hb hne hl => hwrote.leaves b hb (fun hm => hne (List.mem_append_left _ hm)) hl, hwrote.within⟩
  obtain ⟨c, hc, he⟩ := List.mem_flatMap.mp he
  obtain ⟨i, hi, rfl⟩ := mem_entries.mp he
  obtain ⟨hbytes, -⟩ := hwrote.leaves c (h.directory.inside c hc).2 (h.apart c hc) (h.directory.live hL c hc)
  intro j hj
  rw [Nat.add_assoc]
  exact hbytes (h.directory.inside c hc).1 _ (by omega)

/-- `writeBuffer` spares the other files. -/
theorem spares_writeBuffer (hL : L.Sound) {buffer : List UInt8} (hs : v.Stores file buffer) {n : Nat}
    (hrun : v.writeBuffer file buffer = .ok (n, file', w)) (cache : List UInt8) :
    v.Spares file dirs { file' with cache } w := by
  intro own hfiled
  obtain ⟨x, blocks, hrun', hx, -, -, hleaves, hwithin⟩ := hfiled.writeBuffer hL hs
  rw [hrun] at hrun'
  cases hrun'
  exact ⟨blocks, hx cache, hleaves, hwithin⟩

/-! ## The text of a file -/

/-- The text of an open file: what is stored, with what is in the cache written over it. -/
def contents (v : Volume L) (file : FileDescriptor) : List UInt8 :=
  (v.content file.dirent file.length).splice file.seek file.cache

/-- The user sees this text of an open file, and this position. -/
structure Shows (v : Volume L) (file : FileDescriptor) (dirs : List Nat) (f : ByteFile) : Prop where
  filed : ∃ own, v.Filed file own dirs
  bytes : f.bytes = v.contents file
  seek : f.seek = file.seek + file.cache.length

/-- The content of a file is as long as its entry says. -/
theorem Stored.content_length {dirent length : Nat} (h : v.Stored dirent length own) :
    (v.content dirent length).length = length := by
  have hroom := h.room
  rw [h.content, List.length_take, bytesOf_length]
  omega

/-- Where a file is stored does not depend on its write cache. -/
theorem Filed.cached (h : v.Filed file own dirs) (cache : List UInt8) : v.Filed { file with cache } own dirs :=
  ⟨h.stored, h.seek, h.directory, h.first, h.apart, h.listed, h.home, h.valid, h.used, h.ne⟩

/-- What a call made of the file: the user sees `f`, and the entries of the directory are as they were. -/
structure Served (v : Volume L) (file : FileDescriptor) (dirs : List Nat) (f : ByteFile) (file' : FileDescriptor)
    (w : Volume L) : Prop where
  shows : w.Shows file' dirs f
  same : file.Same file'
  entries : SameEntries L dirs v.flash w.flash
  spares : v.Spares file dirs file' w

/-- Nothing was done. -/
theorem Served.refl (h : v.Shows file dirs f) : v.Served file dirs f file v :=
  ⟨h, .refl file, .refl L dirs _, .same fun _ hfiled => hfiled⟩

section

variable (h : v.Shows file dirs f)
include h

/-- The text and the position, when nothing is in the cache. -/
theorem Shows.stored (hcache : file.cache = []) : f.bytes = v.content file.dirent file.length ∧ f.seek = file.seek ∧
    f.bytes.length = file.length := by
  obtain ⟨⟨own, hfiled⟩, hbytes, hseek⟩ := h
  rw [contents, hcache, List.splice_nil] at hbytes
  rw [hcache, List.length_nil, Nat.add_zero] at hseek
  exact ⟨hbytes, hseek, by rw [hbytes, hfiled.stored.content_length]⟩

/-- The position moves in the text. -/
theorem Shows.move (hcache : file.cache = []) {seek : Nat} (hseek : seek ≤ f.bytes.length) :
    v.Served file dirs ⟨f.bytes, seek⟩ { file with seek } v := by
  obtain ⟨hbytes, -, hlen⟩ := h.stored hcache
  obtain ⟨⟨own, hfiled⟩, -, -⟩ := h
  have hmoved : ∀ own, v.Filed file own dirs → v.Filed { file with seek } own dirs := fun own hfiled =>
    ⟨hfiled.stored, hlen ▸ hseek, hfiled.directory, hfiled.first, hfiled.apart, hfiled.listed, hfiled.home, hfiled.valid,
      hfiled.used, hfiled.ne⟩
  refine ⟨⟨⟨own, hmoved own hfiled⟩, ?_, ?_⟩, ⟨rfl, rfl, rfl⟩, .refl L dirs _, .same hmoved⟩
  · change _ = (v.content file.dirent file.length).splice seek file.cache
    rw [hcache, List.splice_nil, hbytes]
  · change _ = seek + file.cache.length
    rw [hcache]
    rfl

/-- What `read` copies. -/
theorem Shows.bytes_read (hcache : file.cache = []) {n : Nat} (hn : file.seek + n ≤ file.length) :
    (let (block, offset) := v.seekBlock (firstBlockAt v.flash file.dirent) file.seek file.seek
    v.readLoop block offset n (n + 1)) = (f.bytes.drop f.seek).take n := by
  obtain ⟨hbytes, hseek, -⟩ := h.stored hcache
  obtain ⟨⟨own, hfiled⟩, -, -⟩ := h
  obtain ⟨pre, block, post, rfl, hpre, hwalk⟩ := hfiled.stored.walk hfiled.seek
  have hroom := hfiled.stored.room
  rw [List.length_append, List.length_cons] at hroom
  have hplace : 256 * pre.length + (file.seek - 256 * pre.length) = file.seek := by omega
  rw [hwalk, hbytes, hseek, hfiled.stored.content]
  change v.readLoop block (file.seek - 256 * pre.length) n (n + 1) = _
  rw [readLoop_at v hfiled.stored.chained.chain (by omega) (by omega), hplace, List.drop_take, List.take_take,
    Nat.min_eq_left (by omega)]

variable (hL : L.Sound)
include hL

/-- `writeBuffer`, when nothing is in the cache. -/
theorem Shows.writeBuffer (hcache : file.cache = []) {buffer : List UInt8} (hs : v.Stores file buffer) :
    ∃ file' w, v.writeBuffer file buffer = .ok (buffer.length, file', w) ∧
      v.Served file dirs ⟨f.bytes.splice f.seek buffer, f.seek + buffer.length⟩ file' w ∧ file'.cache = [] := by
  obtain ⟨⟨own, hfiled⟩, hbytes, hseek⟩ := h
  obtain ⟨w, blocks, hrun, hw, hcontent, hentries, -⟩ := hfiled.writeBuffer hL hs
  have hold : f.bytes = v.content file.dirent file.length := by
    rw [hbytes, contents, hcache, List.splice_nil]
  rw [hcache, List.length_nil, Nat.add_zero] at hseek
  refine ⟨_, w, hrun, ⟨⟨⟨blocks, hw file.cache⟩, ?_, ?_⟩, ⟨rfl, rfl, rfl⟩, hentries, spares_writeBuffer hL hs hrun _⟩, hcache⟩
  · change _ = (w.content file.dirent (max file.length (file.seek + buffer.length))).splice _ file.cache
    rw [hcache, List.splice_nil, hcontent, hold, hseek]
  · change _ = file.seek + buffer.length + file.cache.length
    rw [hcache, hseek]
    rfl

/-- `writeBack` moves what is in the cache to the blocks. -/
theorem Shows.writeBack (hs : v.Stores file file.cache) :
    ∃ file' w, v.writeBack file = .ok (file', w) ∧ v.Served file dirs f file' w ∧ file'.cache = [] := by
  by_cases hcache : file.cache = []
  · unfold Volume.writeBack
    rw [if_pos hcache]
    exact ⟨file, v, rfl, .refl h, hcache⟩
  · obtain ⟨⟨own, hfiled⟩, hbytes, hseek⟩ := h
    obtain ⟨w, blocks, hrun, hw, hcontent, hentries, -⟩ := hfiled.writeBuffer hL hs
    have hspares : v.Spares file dirs _ w := spares_writeBuffer hL hs hrun []
    unfold Volume.writeBack
    rw [if_neg hcache, hrun]
    refine ⟨_, w, rfl, ⟨⟨⟨blocks, hw []⟩, ?_, ?_⟩, ⟨rfl, rfl, rfl⟩, hentries, hspares⟩, rfl⟩
    · change _ = (w.content file.dirent (max file.length (file.seek + file.cache.length))).splice _ []
      rw [List.splice_nil, hcontent, hbytes]
      rfl
    · exact hseek

end

/-! ## The calls -/

/-- The call can store what it is given, and what is in the cache. A write that goes to the cache has to fit there. -/
def Serves (v : Volume L) (file : FileDescriptor) : FileOp → Prop
  | .write buffer => buffer ≠ [] →
    if buffer.length < L.MBFS_CACHE_SIZE then
      file.cache.length + buffer.length ≤ L.MBFS_CACHE_SIZE ∧
        (file.cache.length + buffer.length = L.MBFS_CACHE_SIZE → v.Stores file (file.cache ++ buffer))
    else v.Stores file file.cache ∧ ∀ file' w, v.writeBack file = .ok (file', w) → w.Stores file' buffer
  | .seek _ _ => v.Stores file file.cache
  | .read size => size ≠ 0 → v.Stores file file.cache
  | .flush => v.Stores file file.cache ∧ ∀ file' w, v.writeBack file = .ok (file', w) → w.Settles file'

theorem Served.trans {f' : ByteFile} {file'' : FileDescriptor} {x : Volume L} (h : v.Served file dirs f file' w)
    (h' : w.Served file' dirs f' file'' x) : v.Served file dirs f' file'' x :=
  ⟨h'.shows, h.same.trans h'.same, h.entries.trans h'.entries, h.spares.trans h'.spares⟩

/-- What a call does to the entries of the directory: nothing, or what `flush` does to that of the file. -/
inductive Updated (v : Volume L) (file : FileDescriptor) (dirs : List Nat) (file' : FileDescriptor) (w : Volume L) : Prop where
  | kept {f : ByteFile} (hs : v.Served file dirs f file' w)
  | flushed {f : ByteFile} (u : Volume L) (hs : v.Served file dirs f file' u) (h : u.Flushed file' dirs w)
      (hspares : u.Spares file' dirs file' w)

section

variable (h : v.Shows file dirs f)
include h

/-- What is put into the cache is a part of the text of the file. -/
theorem Shows.append_cache (buffer : List UInt8) :
    v.Served file dirs ⟨f.bytes.splice f.seek buffer, f.seek + buffer.length⟩ { file with cache := file.cache ++ buffer } v := by
  obtain ⟨⟨own, hfiled⟩, hbytes, hseek⟩ := h
  refine ⟨⟨⟨own, hfiled.cached _⟩, ?_, ?_⟩, ⟨rfl, rfl, rfl⟩, .refl L dirs _, .same fun _ hfiled => hfiled.cached _⟩
  · change _ = (v.content file.dirent file.length).splice file.seek (file.cache ++ buffer)
    have hplace : file.seek ≤ (v.content file.dirent file.length).length := by
      rw [hfiled.stored.content_length]
      exact hfiled.seek
    rw [← List.splice_splice hplace, ← hseek, hbytes]
    rfl
  · change _ = file.seek + (file.cache ++ buffer).length
    rw [hseek, List.length_append, Nat.add_assoc]

variable (hL : L.Sound)
include hL

/-- A text is put into the cache, and what is there is written back when the cache is full. -/
theorem Shows.writeCached {buffer : List UInt8} (hne : buffer ≠ [])
    (hfit : file.cache.length + buffer.length ≤ L.MBFS_CACHE_SIZE)
    (hfull : file.cache.length + buffer.length = L.MBFS_CACHE_SIZE → v.Stores file (file.cache ++ buffer)) :
    ∃ file' w, v.writeCached file buffer 0 (buffer.length + 1) = .ok (buffer.length, file', w) ∧
      v.Served file dirs ⟨f.bytes.splice f.seek buffer, f.seek + buffer.length⟩ file' w := by
  have hlen := List.length_pos_of_ne_nil hne
  have hmin : min buffer.length (L.MBFS_CACHE_SIZE - file.cache.length) = buffer.length := by omega
  have hlast : ∀ (file : FileDescriptor) (w : Volume L) (n : Nat), n = buffer.length →
      w.writeCached file buffer n buffer.length = .ok (buffer.length, file, w) := by
    rintro file w n rfl
    obtain ⟨fuel, hf⟩ : ∃ f, buffer.length = f + 1 := ⟨buffer.length - 1, by omega⟩
    rw [hf, Volume.writeCached, ← hf, if_neg (Nat.lt_irrefl _)]
  have hcached := h.append_cache buffer
  rw [Volume.writeCached, if_pos hlen]
  dsimp only
  rw [hmin, List.take_length, List.length_append]
  by_cases hf : file.cache.length + buffer.length = L.MBFS_CACHE_SIZE
  · rw [if_pos hf]
    obtain ⟨file', w, hrun, hserved, -⟩ := hcached.shows.writeBack hL (hfull hf)
    rw [hrun]
    exact ⟨file', w, hlast file' w _ (Nat.zero_add _), hcached.trans hserved⟩
  · rw [if_neg hf]
    exact ⟨_, v, hlast _ v _ (Nat.zero_add _), hcached⟩

/-- `write` does to the file what its user sees. -/
theorem Shows.write {buffer : List UInt8} (hne : buffer ≠ []) (hs : v.Serves file (.write buffer)) :
    ∃ file' w, v.write file buffer = .ok (buffer.length, file', w) ∧
      v.Served file dirs ⟨f.bytes.splice f.seek buffer, f.seek + buffer.length⟩ file' w := by
  have hs := hs hne
  unfold Volume.write
  by_cases hlt : buffer.length < L.MBFS_CACHE_SIZE
  · rw [if_pos hlt] at hs ⊢
    exact h.writeCached hL hne hs.1 hs.2
  · rw [if_neg hlt] at hs ⊢
    obtain ⟨file', w, hback, hserved, hcache⟩ := h.writeBack hL hs.1
    obtain ⟨file'', x, hrun, hserved', -⟩ := hserved.shows.writeBuffer hL hcache (hs.2 file' w hback)
    exact ⟨file'', x, Outcome.bind_eq_ok.mpr ⟨_, hback, hrun⟩, hserved.trans hserved'⟩

/-- `seek` does to the file what its user sees. -/
theorem Shows.seek_spec (hs : v.Stores file file.cache) (offset : Int) (flags : Nat) :
    ∃ r file' w, v.seek file offset flags = .ok (r, file', w) ∧
      v.Served file dirs (f.perform (.seek offset flags)).2 file' w ∧
      (f.perform (.seek offset flags)).1 = r.elim (.error .DEVICE_INVALID_PARAMETER) .number := by
  obtain ⟨file', w, hback, hserved, hcache⟩ := h.writeBack hL hs
  obtain ⟨-, hseek, hlen⟩ := hserved.shows.stored hcache
  have hposition : (if flags = MB_SEEK_SET then offset
      else if flags = MB_SEEK_END then ((file'.length : Int) + offset).bmod (2 ^ 32)
      else if flags = MB_SEEK_CUR then ((file'.seek : Int) + offset).bmod (2 ^ 32) else file'.seek) = f.position offset flags := by
    rw [ByteFile.position, hlen, hseek]
  unfold Volume.seek
  rw [hback]
  change ∃ r file'' x, (let position : Int := _; if position < 0 ∨ position.toNat > file'.length then _ else _) = _ ∧ _
  dsimp only
  rw [hposition]
  unfold ByteFile.perform
  dsimp only
  rw [hlen]
  by_cases hout : f.position offset flags < 0 ∨ (f.position offset flags).toNat > file'.length
  · rw [if_pos hout, if_pos hout]
    exact ⟨none, file', w, rfl, hserved, rfl⟩
  · rw [if_neg hout, if_neg hout]
    exact ⟨some _, _, w, rfl, hserved.trans (hserved.shows.move hcache (by omega)), rfl⟩

/-- `read` gives what its user sees. -/
theorem Shows.read_spec (hs : v.Stores file file.cache) {size : Nat} (hsize : size ≠ 0) :
    ∃ bytes file' w, v.read file size = .ok (bytes, file', w) ∧ v.Served file dirs (f.perform (.read size)).2 file' w ∧
      (f.perform (.read size)).1 = .bytes bytes := by
  obtain ⟨file', w, hback, hserved, hcache⟩ := h.writeBack hL hs
  obtain ⟨-, hseek, hlen⟩ := hserved.shows.stored hcache
  have hin : file'.seek ≤ file'.length := by
    obtain ⟨own, hfiled⟩ := hserved.shows.filed
    exact hfiled.seek
  have hread := hserved.shows.bytes_read hcache (n := min size (file'.length - file'.seek)) (by omega)
  unfold Volume.read
  rw [hback]
  refine ⟨_, _, w, rfl, ?_, ?_⟩
  · rw [f.perform_read hsize, hlen, hseek]
    exact hserved.trans (hserved.shows.move hcache (by omega))
  · rw [hseek] at hread
    rw [f.perform_read hsize, hlen, hseek]
    exact congrArg FSReply.bytes hread.symm

/-- `flush` stores what is in the cache and sees to the entry of the file. -/
theorem Shows.flush_spec (hs : v.Serves file .flush) : ∃ file' w x, v.writeBack file = .ok (file', w) ∧
    v.Served file dirs f file' w ∧ file'.cache = [] ∧ v.flush file = .ok (file', x) ∧ x.Shows file' dirs f ∧
    w.Flushed file' dirs x ∧ w.Spares file' dirs file' x := by
  obtain ⟨file', w, hback, hserved, hcache⟩ := h.writeBack hL hs.1
  obtain ⟨⟨own, hfiled⟩, hbytes, hseek⟩ := hserved.shows
  obtain ⟨x, hrun, hx, hleaves, hflushed⟩ := hfiled.flush hL hcache (hs.2 file' w hback)
  have hown := fun b hb => hleaves b (hfiled.stored.chained.inside b hb).2 (fun hd => hfiled.apart b hd hb)
    (hfiled.stored.chained.live hL b hb)
  have hflush : v.flush file = w.flush file' := by
    have hnone : w.writeBack file' = .ok (file', w) := by
      unfold Volume.writeBack
      rw [if_pos hcache]
    unfold Volume.flush
    rw [hback, hnone]
  refine ⟨file', w, x, hback, hserved, hcache, hflush.trans hrun, ⟨⟨own, hx⟩, ?_, hseek⟩, hflushed, fun own' hfiled' => ?_⟩
  · rw [hbytes, contents, contents, hx.stored.content, hfiled.stored.content, bytesOf_congr fun b hb =>
      (hown b hb).1 (hfiled.stored.chained.inside b hb).1]
  · obtain ⟨x', hrun', hx', hleaves', -⟩ := hfiled'.flush hL hcache (hs.2 file' w hback)
    rw [hrun] at hrun'
    cases hrun'
    exact ⟨own', hx', fun b hb hne hl => hleaves' b hb (fun hm => hne (List.mem_append_right _ hm)) hl,
      fun _ hb => Or.inl hb⟩

end

end Volume

namespace FileSystem

variable {L : Layout} {s t : FileSystem L} {fd : Int} {file file' : FileDescriptor} {dirs : List Nat} {f : ByteFile}

/-- The file is open under the identifier. -/
structure Opened (s : FileSystem L) (fd : Int) (file : FileDescriptor) : Prop where
  initialised : s.initialised = true
  place : ∃ i, s.getFileDescriptor fd = some i ∧ s.openFiles[i]? = some file

/-- An open file that is changed is still found under its identifier. -/
theorem getFileDescriptor_set {i : Nat} (h : s.getFileDescriptor fd = some i) (hi : s.openFiles[i]? = some file)
    (hid : file'.id = file.id) (ht : t.openFiles = s.openFiles.set i file') :
    t.getFileDescriptor fd = some i ∧ t.openFiles[i]? = some file' := by
  unfold getFileDescriptor at h ⊢
  obtain ⟨hlt, hfd, hbefore⟩ := List.findIdx?_eq_some_iff_getElem.mp h
  rw [List.getElem?_eq_getElem hlt] at hi
  cases hi
  rw [ht]
  refine ⟨List.findIdx?_eq_some_iff_getElem.mpr ⟨by rwa [List.length_set], ?_, fun j hj => ?_⟩, ?_⟩
  · rw [List.getElem_set_self, hid]
    exact hfd
  · rw [List.getElem_set_ne (by omega)]
    exact hbefore j hj
  · rw [List.getElem?_set_self hlt]

/-- A call for an open file works on its file descriptor. -/
theorem Opened.withFile (ho : s.Opened fd file) {α : Type} (f : FileDescriptor → Except FSFault (α × FileDescriptor × Volume L))
    {a : α} {v : Volume L} (hf : f file = .ok (a, file', v)) (hid : file'.id = file.id) :
    ∃ t, s.withFile fd f = .ok (.ok a, t) ∧ t.toVolume = v ∧ t.Opened fd file' := by
  obtain ⟨hinit, i, hfd, hi⟩ := ho
  refine ⟨{ s.setVolume v with openFiles := s.openFiles.set i file' }, ?_, rfl, hinit, i,
    getFileDescriptor_set hfd hi hid rfl⟩
  unfold FileSystem.withFile
  rw [hinit, hfd]
  change (f (s.openFiles.getD i _) >>= _) = _
  rw [List.getD_eq_getElem?_getD, hi]
  exact Outcome.bind_eq_ok.mpr ⟨_, hf, rfl⟩

/-- A write through the identifier is one on the file that it names. -/
theorem Opened.write (ho : s.Opened fd file) {buffer : List UInt8} {n : Nat} {v : Volume L}
    (hrun : s.toVolume.write file buffer = .ok (n, file', v)) (hne : buffer ≠ []) (hid : file'.id = file.id) :
    ∃ t, s.perform (.write fd buffer) = .ok (.number n, t) ∧ t.toVolume = v ∧ t.Opened fd file' := by
  obtain ⟨t, hwith, hv, ht⟩ := ho.withFile (fun file => s.toVolume.write file buffer) hrun hid
  have hwrite : s.write fd buffer = .ok (.ok n, t) := by
    unfold FileSystem.write
    rw [if_neg fun hb => hne hb.2, hwith]
  exact ⟨t, Outcome.bind_eq_ok.mpr ⟨_, hwrite, rfl⟩, hv, ht⟩

/-- An identifier names one open file. -/
theorem Opened.unique (h : s.Opened fd file) (h' : s.Opened fd file') : file' = file := by
  obtain ⟨-, i, hi, hfile⟩ := h
  obtain ⟨-, j, hj, hfile'⟩ := h'
  rw [hi] at hj
  cases hj
  rw [hfile] at hfile'
  cases hfile'
  rfl

/-- The call can be served, if it is one for the open file. -/
def Serves (s : FileSystem L) (fd : Int) (op : FSOp) : Prop :=
  ∀ file o, s.Opened fd file → op = FileOp.on fd o → s.toVolume.Serves file o

/-- A call that can be served on the file can be served on its identifier. -/
theorem serves_of_opened (ho : s.Opened fd file) {op : FileOp} (h : s.toVolume.Serves file op) : s.Serves fd (op.on fd) := by
  intro file' o ho' heq
  rw [ho.unique ho', ← FileOp.on_injective fd heq]
  exact h

/-- A call does what it would do with the text. Of the directory, only `flush` changes something. -/
theorem perform_shows (hL : L.Sound) (ho : s.Opened fd file) (h : s.toVolume.Shows file dirs f) (op : FileOp)
    (hs : s.toVolume.Serves file op) : ∃ t file', s.perform (op.on fd) = .ok ((f.perform op).1, t) ∧ t.Opened fd file' ∧
      t.toVolume.Shows file' dirs (f.perform op).2 ∧ s.toVolume.Updated file dirs file' t.toVolume := by
  cases op with
  | write buffer =>
    by_cases hne : buffer = []
    · subst hne
      have hwrite : s.write fd [] = .ok (.error .DEVICE_INVALID_PARAMETER, s) := by
        unfold FileSystem.write
        rw [if_pos ⟨ho.initialised, rfl⟩]
      exact ⟨s, file, Outcome.bind_eq_ok.mpr ⟨_, hwrite, rfl⟩, ho, h, .kept (.refl h)⟩
    · obtain ⟨file', w, hrun, hserved⟩ := h.write hL hne hs
      obtain ⟨t, hperform, rfl, ht⟩ := ho.write hrun hne hserved.same.id
      rw [f.perform_write hne]
      exact ⟨t, file', hperform, ht, hserved.shows, .kept hserved⟩
  | seek offset flags =>
    obtain ⟨r, file', w, hrun, hserved, hreply⟩ := h.seek_spec hL hs offset flags
    obtain ⟨t, hwith, rfl, ht⟩ := ho.withFile (fun file => s.toVolume.seek file offset flags) hrun hserved.same.id
    have hseek : s.seek fd offset flags = .ok (r.elim (.error .DEVICE_INVALID_PARAMETER) .ok, t) := by
      unfold FileSystem.seek
      rw [hwith]
      cases r <;> rfl
    refine ⟨t, file', Outcome.bind_eq_ok.mpr ⟨_, hseek, ?_⟩, ht, hserved.shows, .kept hserved⟩
    rw [hreply]
    cases r <;> rfl
  | read size =>
    by_cases hsize : size = 0
    · subst hsize
      have hread : s.read fd 0 = .ok (.error .DEVICE_INVALID_PARAMETER, s) := by
        unfold FileSystem.read
        rw [if_pos ⟨ho.initialised, rfl⟩]
      exact ⟨s, file, Outcome.bind_eq_ok.mpr ⟨_, hread, rfl⟩, ho, h, .kept (.refl h)⟩
    · obtain ⟨bytes, file', w, hrun, hserved, hreply⟩ := h.read_spec hL (hs hsize) hsize
      obtain ⟨t, hwith, rfl, ht⟩ := ho.withFile (fun file => s.toVolume.read file size) hrun hserved.same.id
      have hread : s.read fd size = .ok (.ok bytes, t) := by
        unfold FileSystem.read
        rw [if_neg fun hb => hsize hb.2, hwith]
      rw [hreply]
      exact ⟨t, file', Outcome.bind_eq_ok.mpr ⟨_, hread, rfl⟩, ht, hserved.shows, .kept hserved⟩
  | flush =>
    obtain ⟨file', w, x, -, hserved, -, hrun, hshows, hflushed, hspares⟩ := h.flush_spec hL hs
    obtain ⟨t, hflush, rfl, ht⟩ : ∃ t, s.flush fd = .ok (.ok (), t) ∧ t.toVolume = x ∧ t.Opened fd file' :=
      ho.withFile _ (Outcome.bind_eq_ok.mpr ⟨_, hrun, rfl⟩) hserved.same.id
    exact ⟨t, file', Outcome.bind_eq_ok.mpr ⟨_, hflush, rfl⟩, ht, hshows, .flushed w hserved hflushed hspares⟩

/-- A sequence of calls does what it would do with the text, and keeps what each call keeps. -/
theorem run_shows (hL : L.Sound) (I : Volume L → FileDescriptor → Prop)
    (hI : ∀ {v w : Volume L} {file file' : FileDescriptor}, I v file → v.Updated file dirs file' w → I w file')
    (ops : List FileOp) : ∀ {s : FileSystem L} {file : FileDescriptor} {f : ByteFile}, s.Opened fd file →
      s.toVolume.Shows file dirs f → I s.toVolume file → s.Always (fun s op => s.Serves fd op) (ops.map (FileOp.on fd)) →
      ∃ t file', s.run (ops.map (FileOp.on fd)) = .ok ((f.run ops).1, t) ∧ t.Opened fd file' ∧
        t.toVolume.Shows file' dirs (f.run ops).2 ∧ I t.toVolume file' := by
  induction ops with
  | nil => exact fun ho h hi _ => ⟨_, _, rfl, ho, h, hi⟩
  | cons op ops ih =>
    intro s file f ho h hi ha
    obtain ⟨hs, hrest⟩ := ha
    obtain ⟨t, file', hrun, ht, hshows, hupdated⟩ := perform_shows hL ho h op (hs file op ho rfl)
    obtain ⟨u, file'', hruns, hu, hshows', hi'⟩ := ih ht hshows (hI hi hupdated) (hrest _ t hrun)
    exact ⟨u, file'', Outcome.bind_eq_ok.mpr ⟨_, hrun, Outcome.bind_eq_ok.mpr ⟨_, hruns, rfl⟩⟩, hu, hshows', hi'⟩

end FileSystem

end CodalMicrobit

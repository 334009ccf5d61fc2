import CodalMicrobit.Lib.Splice
import CodalMicrobit.Theorems.EntryPlaces

/-!
# The contents of files

A file is what the blocks of its chain hold, one after the other. Reading goes along the chain; a write to a block of it is a
write over a part of the contents; and what is done with other blocks leaves them as they are.
-/

namespace CodalMicrobit

open Nor

/-- What the blocks hold. -/
def Layout.bytesOf (L : Layout) (m : Memory) (blocks : List Nat) : List UInt8 :=
  blocks.flatMap fun b => slice m (L.getBlock b) MBFS_BLOCK_SIZE

namespace Volume

variable {L : Layout} {v w : Volume L} {m m' m'' : Memory}

/-! ## Blocks -/

/-- 256 bytes for each block. -/
theorem bytesOf_length (m : Memory) (blocks : List Nat) : (L.bytesOf m blocks).length = 256 * blocks.length := by
  induction blocks with
  | nil => rfl
  | cons b bs ih =>
    unfold Layout.bytesOf at ih ⊢
    rw [List.flatMap_cons, List.length_append, ih, slice_length, List.length_cons]
    unfold MBFS_BLOCK_SIZE
    omega

theorem bytesOf_append (m : Memory) (blocks blocks' : List Nat) :
    L.bytesOf m (blocks ++ blocks') = L.bytesOf m blocks ++ L.bytesOf m blocks' :=
  List.flatMap_append

/-- The bytes of blocks depend on these blocks only. -/
theorem bytesOf_congr {blocks : List Nat}
    (h : ∀ b ∈ blocks, ∀ k < 256, m' (L.getBlock b + k) = m (L.getBlock b + k)) : L.bytesOf m' blocks = L.bytesOf m blocks := by
  unfold Layout.bytesOf
  refine List.flatMap_congr fun b hb => slice_congr fun x hx hx' => ?_
  unfold MBFS_BLOCK_SIZE at hx'
  have := h b hb (x - L.getBlock b) (by omega)
  rwa [Nat.add_sub_cancel' hx] at this

/-- The first bytes of a slice. -/
theorem slice_take (m : Memory) (a : Nat) {k n : Nat} (h : k ≤ n) : (slice m a n).take k = slice m a k := by
  obtain ⟨r, rfl⟩ := Nat.exists_eq_add_of_le h
  rw [slice_add, List.take_left' (slice_length m a k)]

/-- The last bytes of a slice. -/
theorem slice_drop (m : Memory) (a : Nat) {k n : Nat} (h : k ≤ n) : (slice m a n).drop k = slice m (a + k) (n - k) := by
  obtain ⟨r, rfl⟩ := Nat.exists_eq_add_of_le h
  rw [slice_add, List.drop_left' (slice_length m a k), Nat.add_sub_cancel_left]

/-- A text that was laid over a part of a stretch. -/
theorem slice_put_inside (m : Memory) (a : Nat) {o n : Nat} {t : List UInt8} (h : o + t.length ≤ n) :
    slice (put m (a + o) t) a n = (slice m a n).splice o t := by
  obtain ⟨r, rfl⟩ := Nat.exists_eq_add_of_le h
  unfold List.splice
  rw [slice_take m a (by omega), slice_drop m a (by omega), Nat.add_sub_cancel_left, slice_add, slice_add, slice_put,
    ← Nat.add_assoc]
  congr 1
  · congr 1
    exact slice_congr fun x _ hx => put_of_lt m t (by omega)
  · exact slice_congr fun x hx _ => put_of_le m t (by omega)

/-- A text that was laid over a part of one of the blocks. -/
theorem bytesOf_put {pre post : List Nat} {b o : Nat} {t : List UInt8} (hnodup : (pre ++ b :: post).Nodup)
    (ho : o + t.length ≤ 256) (h : ∀ c ∈ pre ++ b :: post, ∀ k < 256,
      m' (L.getBlock c + k) = put m (L.getBlock b + o) t (L.getBlock c + k)) :
    L.bytesOf m' (pre ++ b :: post) = (L.bytesOf m (pre ++ b :: post)).splice (256 * pre.length + o) t := by
  have hother : ∀ c ∈ pre ++ b :: post, c ≠ b → ∀ k < 256, m' (L.getBlock c + k) = m (L.getBlock c + k) := by
    intro c hc hne k hk
    rw [h c hc k hk, put_of_not_mem]
    unfold Layout.getBlock MBFS_BLOCK_SIZE
    omega
  have hself : slice m' (L.getBlock b) 256 = (slice m (L.getBlock b) 256).splice o t := by
    rw [← slice_put_inside m _ ho]
    refine slice_congr fun x hx hx' => ?_
    have := h b (List.mem_append_right _ List.mem_cons_self) (x - L.getBlock b) (by omega)
    rwa [Nat.add_sub_cancel' hx] at this
  have hsplit : ∀ m : Memory, L.bytesOf m (pre ++ b :: post) =
      L.bytesOf m pre ++ slice m (L.getBlock b) 256 ++ L.bytesOf m post := fun m => by
    rw [bytesOf_append, List.append_assoc]
    rfl
  rw [List.nodup_append'] at hnodup
  obtain ⟨-, hcons, hdisj⟩ := hnodup
  rw [hsplit, hsplit, hself, ← bytesOf_length m pre, List.splice_middle (by rwa [slice_length]),
    bytesOf_congr fun c hc => hother c (List.mem_append_left _ hc) fun heq => hdisj hc (heq ▸ List.mem_cons_self),
    bytesOf_congr fun c hc => hother c (List.mem_append_right _ (List.mem_cons_of_mem _ hc)) fun heq =>
      (List.nodup_cons.mp hcons).1 (heq ▸ hc)]

/-! ## Reading -/

/-- The content of a file of this length, as `read` gives it from the start on. -/
def content (v : Volume L) (dirent length : Nat) : List UInt8 :=
  v.readLoop (firstBlockAt v.flash dirent) 0 length (length + 1)

theorem readLoop_zero (v : Volume L) (block offset fuel : Nat) : v.readLoop block offset 0 fuel = [] := by
  cases fuel with
  | zero => rfl
  | succ fuel => rw [readLoop, if_pos rfl]

/-- What is read from one block. -/
theorem readLoop_block (v : Volume L) {block offset size : Nat} (fuel : Nat) (h : offset + size ≤ 256) :
    v.readLoop block offset size (fuel + 1) = slice v.flash (L.getBlock block + offset) size := by
  rw [readLoop]
  split
  · rename_i hzero
    rw [hzero, slice_zero]
  · unfold MBFS_BLOCK_SIZE
    have hmin : min size (256 - offset) = size := by omega
    dsimp only
    rw [hmin, Nat.sub_self, readLoop_zero, readLoop_zero, List.append_nil, ite_self]

/-- What is read from more than one block. -/
theorem readLoop_next (v : Volume L) {block offset size : Nat} (fuel : Nat) (ho : offset < 256) (h : 256 < offset + size) :
    v.readLoop block offset size (fuel + 1) = slice v.flash (L.getBlock block + offset) (256 - offset) ++
      v.readLoop (v.table block) 0 (size - (256 - offset)) fuel := by
  rw [readLoop, if_neg (by omega)]
  unfold MBFS_BLOCK_SIZE
  have hmin : min size (256 - offset) = 256 - offset := by omega
  have hsum : offset + (256 - offset) = 256 := by omega
  dsimp only
  rw [hmin, hsum, if_pos rfl]

/-- The loop of `read` goes along a chain. -/
theorem readLoop_eq (v : Volume L) (bs : List Nat) : ∀ {b offset size fuel : Nat}, L.IsChain v.flash (b :: bs) →
    offset < 256 → offset + size ≤ 256 * (bs.length + 1) → size ≤ fuel →
    v.readLoop b offset size fuel = ((L.bytesOf v.flash (b :: bs)).drop offset).take size := by
  -- the part of the contents that lies in the first block
  have hfirst : ∀ (b offset : Nat) (bs : List Nat), offset < 256 → (L.bytesOf v.flash (b :: bs)).drop offset =
      slice v.flash (L.getBlock b + offset) (256 - offset) ++ L.bytesOf v.flash bs := by
    intro b offset bs ho
    have hcons : L.bytesOf v.flash (b :: bs) = slice v.flash (L.getBlock b) 256 ++ L.bytesOf v.flash bs := rfl
    rw [hcons, List.drop_append_of_le_length (by rw [slice_length]; omega), slice_drop v.flash _ (by omega)]
  have hone : ∀ {b offset size fuel : Nat} (bs : List Nat), offset < 256 → offset + size ≤ 256 → size ≤ fuel →
      v.readLoop b offset size fuel = ((L.bytesOf v.flash (b :: bs)).drop offset).take size := by
    intro b offset size fuel bs ho hsize hfuel
    rcases Nat.eq_zero_or_pos size with rfl | hpos
    · rw [readLoop_zero, List.take_zero]
    obtain ⟨fuel, rfl⟩ : ∃ f, fuel = f + 1 := ⟨fuel - 1, by omega⟩
    rw [readLoop_block v fuel hsize, hfirst b offset bs ho, List.take_append_of_le_length (by rw [slice_length]; omega),
      slice_take v.flash _ (by omega)]
  induction bs with
  | nil => exact fun _ ho hsize hfuel => hone [] ho hsize hfuel
  | cons b' bs ih =>
    intro b offset size fuel hchain ho hsize hfuel
    by_cases hle : offset + size ≤ 256
    · exact hone (b' :: bs) ho hle hfuel
    · obtain ⟨fuel, rfl⟩ : ∃ f, fuel = f + 1 := ⟨fuel - 1, by omega⟩
      obtain ⟨hnext, -, hrest⟩ := hchain
      have htable : v.table b = b' := hnext
      rw [List.length_cons] at hsize
      have hwhole : (slice v.flash (L.getBlock b + offset) (256 - offset)).take size = _ :=
        List.take_of_length_le (by rw [slice_length]; omega)
      rw [readLoop_next v fuel ho (by omega), htable, ih hrest (by omega) (by omega) (by omega), List.drop_zero,
        hfirst b offset _ ho, List.take_append, slice_length, hwhole]

/-- A chain from one of its blocks on. -/
theorem isChain_drop {block : Nat} {post : List Nat} (pre : List Nat) :
    L.IsChain m (pre ++ block :: post) → L.IsChain m (block :: post) := by
  induction pre with
  | nil => exact id
  | cons b pre ih =>
    intro h
    cases pre with
    | nil => exact h.2.2
    | cons b' pre => exact ih h.2.2

/-- What is read from a place in a file on. A place on the boundary of two blocks belongs to the first one. -/
theorem readLoop_at (v : Volume L) {pre post : List Nat} {block offset size : Nat}
    (hchain : L.IsChain v.flash (pre ++ block :: post)) (ho : offset ≤ 256) (hsize : offset + size ≤ 256 * (post.length + 1)) :
    v.readLoop block offset size (size + 1) =
      ((L.bytesOf v.flash (pre ++ block :: post)).drop (256 * pre.length + offset)).take size := by
  have hrest := isChain_drop pre hchain
  have hdrop : (L.bytesOf v.flash (pre ++ block :: post)).drop (256 * pre.length + offset) =
      (L.bytesOf v.flash (block :: post)).drop offset := by
    rw [bytesOf_append, ← bytesOf_length (L := L) v.flash pre, List.drop_length_add_append]
  rw [hdrop]
  by_cases hlt : offset < 256
  · exact readLoop_eq v post hrest hlt hsize (Nat.le_succ _)
  · obtain rfl : offset = 256 := by omega
    rcases Nat.eq_zero_or_pos size with rfl | hpos
    · rw [readLoop_zero, List.take_zero]
    · cases post with
      | nil => simp at hsize; omega
      | cons b bs =>
        obtain ⟨hnext, -, hrest⟩ := hrest
        have htable : v.table block = b := hnext
        have hcons : L.bytesOf v.flash (block :: b :: bs) = slice v.flash (L.getBlock block) 256 ++ L.bytesOf v.flash (b :: bs) :=
          rfl
        rw [List.length_cons] at hsize
        rw [readLoop, if_neg (by omega)]
        unfold MBFS_BLOCK_SIZE
        dsimp only
        rw [Nat.sub_self, Nat.min_zero, Nat.sub_zero, slice_zero, List.nil_append, if_pos rfl, htable,
          readLoop_eq v bs hrest (by decide) (by omega) (Nat.le_refl _), List.drop_zero, hcons,
          List.drop_left' (slice_length _ _ _)]

/-- The content is the front of what the chain holds. -/
theorem content_eq (v : Volume L) {dirent length : Nat} {bs : List Nat}
    (hchain : L.IsChain v.flash (firstBlockAt v.flash dirent :: bs)) (h : length ≤ 256 * (bs.length + 1)) :
    v.content dirent length = (L.bytesOf v.flash (firstBlockAt v.flash dirent :: bs)).take length := by
  rw [content, readLoop_eq v bs hchain (by decide) (by omega) (Nat.le_succ _), List.drop_zero]

/-- The walk to the block of a position. -/
theorem seekBlock_eq (v : Volume L) (fuel : Nat) : ∀ {b distance : Nat} {bs : List Nat}, L.IsChain v.flash (b :: bs) →
    distance ≤ 256 * (bs.length + 1) → distance ≤ fuel →
    ∃ pre block post, b :: bs = pre ++ block :: post ∧ pre.length = (distance - 1) / 256 ∧
      v.seekBlock b distance fuel = (block, distance - 256 * pre.length) := by
  induction fuel with
  | zero =>
    intro b distance bs _ _ hfuel
    obtain rfl : distance = 0 := by omega
    exact ⟨[], b, bs, rfl, rfl, rfl⟩
  | succ fuel ih =>
    intro b distance bs hchain hle hfuel
    rw [seekBlock]
    unfold MBFS_BLOCK_SIZE
    by_cases hd : distance > 256
    · rw [if_pos hd]
      cases bs with
      | nil => simp at hle; omega
      | cons b' bs =>
        obtain ⟨hnext, -, hrest⟩ := hchain
        have htable : v.table b = b' := hnext
        rw [List.length_cons] at hle
        obtain ⟨pre, block, post, hsplit, hlen, hrun⟩ := ih hrest (show distance - 256 ≤ _ by omega) (by omega)
        refine ⟨b :: pre, block, post, by rw [hsplit]; rfl, ?_, ?_⟩
        · rw [List.length_cons, hlen]
          omega
        · have hsub : distance - 256 - 256 * pre.length = distance - 256 * (pre.length + 1) := by omega
          rw [htable, hrun, List.length_cons, hsub]
    · rw [if_neg hd]
      refine ⟨[], b, bs, rfl, ?_, by rw [List.length_nil, Nat.mul_zero, Nat.sub_zero]⟩
      rw [List.length_nil]
      omega

/-! ## What is left alone -/

/-- The blocks in use that are not among `own` are as they were, but for those of the table, and so are their entries in the
table. -/
def Leaves (L : Layout) (own : List Nat) (m m' : Memory) : Prop :=
  ∀ b < L.fileSystemSize, b ∉ own → ¬L.Reusable m b →
    (L.fileSystemTableSize ≤ b → ∀ k < 256, m' (L.getBlock b + k) = m (L.getBlock b + k)) ∧
      L.getNextFileBlock m' b = L.getNextFileBlock m b

theorem Leaves.refl (own : List Nat) (m : Memory) : Leaves L own m m := fun _ _ _ _ => ⟨fun _ _ _ => rfl, rfl⟩

/-- What is added to the own blocks was not in use. -/
theorem Leaves.trans {own own' : List Nat} (h : Leaves L own m m') (h' : Leaves L own' m' m'')
    (hown : ∀ b ∈ own', b ∈ own ∨ L.Reusable m b) : Leaves L own m m'' := by
  intro b hb hne hl
  obtain ⟨hbytes, hnext⟩ := h b hb hne hl
  have hl' : ¬L.Reusable m' b := by
    unfold Layout.Reusable
    rwa [hnext]
  have hne' : b ∉ own' := fun hmem => (hown b hmem).elim hne hl
  obtain ⟨hbytes', hnext'⟩ := h' b hb hne' hl'
  exact ⟨fun htb k hk => (hbytes' htb k hk).trans (hbytes htb k hk), hnext'.trans hnext⟩

/-- No other block came out of use. -/
theorem Leaves.reusable {own : List Nat} (h : Leaves L own m m') {b : Nat} (hb : b < L.fileSystemSize) (hown : b ∉ own)
    (hr : L.Reusable m' b) : L.Reusable m b := by
  by_contra hl
  obtain ⟨-, hnext⟩ := h b hb hown hl
  unfold Layout.Reusable at hr
  rw [hnext] at hr
  exact hl hr

/-- What recycling keeps is left alone. -/
theorem Kept.leaves (hL : L.Sound) (h : Kept L none m m') (own : List Nat) : Leaves L own m m' := by
  intro b hb _ hl
  refine ⟨fun htb k hk => h.content b hb htb hl nofun k hk, ?_⟩
  rcases h.entries b (hL.entry_lt hb) with he | ⟨he, -⟩
  · exact he
  · exact absurd (Or.inr he) hl

/-- The blocks are a chain of the file system, in a state in which the table is in use. -/
structure Chained (v : Volume L) (blocks : List Nat) : Prop where
  last : v.lastBlockAllocated < L.fileSystemSize
  tabled : Tabled L v.flash
  chain : L.IsChain v.flash blocks
  nodup : blocks.Nodup
  inside : ∀ b ∈ blocks, L.fileSystemTableSize ≤ b ∧ b < L.fileSystemSize

/-- The blocks of a chain cannot be used again. -/
theorem Chained.live (hL : L.Sound) {blocks : List Nat} (h : v.Chained blocks) : ∀ b ∈ blocks, ¬L.Reusable v.flash b := by
  cases blocks with
  | nil => exact nofun
  | cons b bs => exact isChain_live hL bs b h.chain h.inside

/-- The chain is as it was where its entries in the table are. -/
theorem Chained.congr {blocks : List Nat} (h : v.Chained blocks) (hlast : w.lastBlockAllocated < L.fileSystemSize)
    (ht : Tabled L w.flash) (hnext : ∀ b ∈ blocks, L.getNextFileBlock w.flash b = L.getNextFileBlock v.flash b) :
    w.Chained blocks := by
  refine ⟨hlast, ht, ?_, h.nodup, h.inside⟩
  cases blocks with
  | nil => exact h.chain
  | cons b bs => exact isChain_congr bs b h.chain hnext

/-- Recycling keeps the chains of blocks and their bytes. -/
theorem Chained.kept (hL : L.Sound) {blocks : List Nat} (h : v.Chained blocks) (hk : Kept L none v.flash w.flash)
    (hlast : w.lastBlockAllocated < L.fileSystemSize) :
    w.Chained blocks ∧ L.bytesOf w.flash blocks = L.bytesOf v.flash blocks := by
  have hleft := fun b hb => hk.leaves hL [] b (h.inside b hb).2 List.not_mem_nil (h.live hL b hb)
  exact ⟨h.congr hlast (hk.tabled hL h.tabled) fun b hb => (hleft b hb).2,
    bytesOf_congr fun b hb => (hleft b hb).1 (h.inside b hb).1⟩

/-! ## Writing to a block -/

/-- A write to a block by way of a scratch page, as far as the blocks on other pages are concerned. -/
theorem flashWrite_scratch (hL : L.Sound) (v : Volume L) {bytes : List UInt8} {scratch block o c k : Nat}
    (hs : scratch % MICROBIT_CODEPAGESIZE = 0) (h0 : scratch ≠ 0) (hblock : L.getPage block ≠ scratch)
    (ho : o + bytes.length ≤ 256) (hc : L.getPage c ≠ scratch) (hk : k < 256) :
    (v.flashWrite (L.getBlock block + o) bytes scratch).flash (L.getBlock c + k) =
      put v.flash (L.getBlock block + o) bytes (L.getBlock c + k) := by
  unfold flashWrite
  cases he : MicroBitFlash.needErase bytes v.flash (L.getBlock block + o) with
  | false => rw [MicroBitFlash.flashWrite_in_place hs he]
  | true =>
    obtain ⟨b0, b1, b2, b3, -⟩ := page_bounds hL block (show 0 < 256 by decide)
    obtain ⟨c0, c1, c2, -, -⟩ := page_bounds hL c hk
    have hmod := Nat.mod_lt block (show 0 < 16 by decide)
    have hlen : 0 < bytes.length := by
      refine List.length_pos_of_ne_nil ?_
      rintro rfl
      nomatch he
    unfold MICROBIT_CODEPAGESIZE at *
    exact (MicroBitFlash.flashWrite_erasing hs h0 (by unfold MICROBIT_CODEPAGESIZE; omega)
      (by unfold MICROBIT_CODEPAGESIZE; omega) he (by unfold MICROBIT_CODEPAGESIZE; omega)).2

/-- `getFreePage` erases at most the page that it gives. -/
theorem Found.flash {page : Nat} (h : v.Found page w) :
    w.flash = v.flash ∨ w.flash = MicroBitFlash.erasePage v.flash page := by
  cases h with
  | empty p hp => exact Or.inl rfl
  | noted p hnone hp => exact Or.inr rfl
  | none hnone hp => exact Or.inr rfl

/-- The part of a turn of `writeBuffer` that writes, as far as the blocks in use are concerned. -/
theorem writeSegment_spec (hL : L.Sound) (hlast : v.lastBlockAllocated < L.fileSystemSize) (ht : Tabled L v.flash)
    {block o : Nat} (hblock : block < L.fileSystemSize) (hl : ¬L.Reusable v.flash block) {bytes : List UInt8}
    (ho : o + bytes.length ≤ 256) (overwrite : Bool) (hroom : bytes ≠ [] → overwrite = true → v.Roomy) :
    ∃ u, v.writeSegment (L.getBlock block + o) bytes overwrite = .ok u ∧ u.lastBlockAllocated < L.fileSystemSize ∧
      ∀ c < L.fileSystemSize, ¬L.Reusable v.flash c → ∀ k < 256,
        u.flash (L.getBlock c + k) = put v.flash (L.getBlock block + o) bytes (L.getBlock c + k) := by
  unfold writeSegment
  by_cases hempty : bytes = []
  · rw [if_pos hempty]
    refine ⟨v, rfl, hlast, fun c _ _ k _ => ?_⟩
    rw [hempty, put_nil]
  · rw [if_neg hempty]
    cases overwrite with
    | false => exact ⟨_, rfl, hlast, fun c hc _ k hk => flashWrite_block hL _ hblock ho hc hk⟩
    | true =>
      obtain ⟨scratch, w, hrun, hf⟩ := getFreePage_found hL v hlast
      obtain ⟨hs, -, -, hwlast⟩ := hf.quiet hL hlast
      have hsafe := (hf.safe_iff hL hlast).mpr (hroom hempty rfl)
      -- no block in use is on the scratch page
      have hoff : ∀ c < L.fileSystemSize, ¬L.Reusable v.flash c → L.getPage c ≠ scratch := by
        intro c hc hcl hcs
        rw [hL.getPage_eq] at hcs
        rcases hsafe.place with hp | ⟨k, hk, hp, he⟩
        · rw [hp] at hcs
          exact scratch_ne_getBlock hL (by omega) hcs.symm
        · have hck := getBlock_inj (hcs.trans hp)
          have := he (c % 16) (Nat.mod_lt _ (by decide))
          rw [show 16 * k + c % 16 = c by omega] at this
          exact this hcl
      have hsame : ∀ c < L.fileSystemSize, ¬L.Reusable v.flash c → ∀ k < 256,
          w.flash (L.getBlock c + k) = v.flash (L.getBlock c + k) := by
        intro c hc hcl k hk
        rcases hf.flash with h | h
        · rw [h]
        · rcases erasePage_blocks hL v.flash hs c with ⟨-, hsame⟩ | ⟨hcs, -⟩
          · rw [h]
            exact hsame k hk
          · exact absurd hcs (hoff c hc hcl)
      have h0 : scratch ≠ 0 := by
        rcases hsafe.place with rfl | ⟨k, hk, rfl, he⟩
        · exact hL.scratch_ne
        · have hpos := hL.entry_lt hL.table_lt
          have hk0 : k ≠ 0 := by
            rintro rfl
            exact he 0 (by decide) (ht 0 (by omega))
          unfold Layout.getBlock MBFS_BLOCK_SIZE
          omega
      rw [if_pos rfl, hrun]
      refine ⟨_, rfl, hwlast, fun c hc hcl k hk => ?_⟩
      refine (flashWrite_scratch hL _ hs h0 (hoff block hblock hl) ho (hoff c hc hcl) hk).trans ?_
      change put w.flash _ _ _ = _
      unfold put
      rw [hsame c hc hcl k hk]

/-- A write to a block behind the table leaves the table as it is. -/
theorem table_of_put (hL : L.Sound) (ht : Tabled L v.flash) {block o : Nat} (hblock : L.fileSystemTableSize ≤ block)
    {bytes : List UInt8} (hput : ∀ c < L.fileSystemSize, ¬L.Reusable v.flash c → ∀ k < 256,
      w.flash (L.getBlock c + k) = put v.flash (L.getBlock block + o) bytes (L.getBlock c + k)) :
    ∀ b < L.fileSystemSize, w.table b = v.table b := by
  intro b hb
  have hentry := hL.entry_lt hb
  have htable := hL.table_lt
  refine entry_congr fun j hj => ?_
  rw [hput (b / 128) (by omega) (ht _ (by omega)) _ (by omega), put_of_lt]
  unfold Layout.getBlock MBFS_BLOCK_SIZE
  omega

/-- A turn of `writeBuffer` writes to a block of a chain. -/
theorem Chained.writeSegment (hL : L.Sound) {pre post : List Nat} {block offset position : Nat}
    (h : v.Chained (pre ++ block :: post)) (hpos : position = 256 * pre.length + offset) {bytes : List UInt8}
    (ho : offset + bytes.length ≤ 256) (overwrite : Bool) (hroom : bytes ≠ [] → overwrite = true → v.Roomy) :
    ∃ u, v.writeSegment (L.getBlock block + offset) bytes overwrite = .ok u ∧ u.Chained (pre ++ block :: post) ∧
      L.bytesOf u.flash (pre ++ block :: post) = (L.bytesOf v.flash (pre ++ block :: post)).splice position bytes ∧
      Leaves L (pre ++ block :: post) v.flash u.flash := by
  have hmem : block ∈ pre ++ block :: post := List.mem_append_right _ List.mem_cons_self
  obtain ⟨htblock, hblock⟩ := h.inside block hmem
  obtain ⟨u, hrun, hlast, hput⟩ := writeSegment_spec hL h.last h.tabled hblock (h.live hL block hmem) ho overwrite hroom
  have hnext := table_of_put hL h.tabled htblock hput
  refine ⟨u, hrun, h.congr hlast (fun b hb => ?_) fun b hb => hnext b (h.inside b hb).2, ?_, fun b hb hne hl =>
    ⟨fun _ k hk => ?_, hnext b hb⟩⟩
  · have hsame : L.getNextFileBlock u.flash b = _ := hnext b (hb.trans hL.table_lt)
    unfold Layout.Reusable
    rw [hsame]
    exact h.tabled b hb
  · rw [hpos]
    exact bytesOf_put h.nodup ho fun c hc => hput c (h.inside c hc).2 (h.live hL c hc)
  · have hbne : b ≠ block := fun heq => hne (heq ▸ hmem)
    rw [hput b hb hl k hk, put_of_not_mem]
    unfold Layout.getBlock MBFS_BLOCK_SIZE
    omega

/-- A chain goes on from one of its blocks with a block that was not in use. What came behind is cut off. -/
theorem Chained.branch (hL : L.Sound) {pre post : List Nat} {last n : Nat} (h : v.Chained (pre ++ last :: post))
    (hn : L.fileSystemTableSize ≤ n) (hn' : n < L.fileSystemSize) (hr : L.Reusable v.flash n) :
    ((v.fileTableWrite n MBFS_EOF).fileTableWrite last n).Chained (pre ++ [last, n]) ∧
      L.bytesOf ((v.fileTableWrite n MBFS_EOF).fileTableWrite last n).flash (pre ++ [last]) = L.bytesOf v.flash (pre ++ [last]) ∧
      Leaves L (pre ++ last :: post) v.flash ((v.fileTableWrite n MBFS_EOF).fileTableWrite last n).flash := by
  have hsize := hL.size_le
  have hsize' := hL.size_lt
  have hmem : last ∈ pre ++ last :: post := List.mem_append_right _ List.mem_cons_self
  have hsub : (pre ++ [last]).Sublist (pre ++ last :: post) :=
    List.Sublist.append_left (List.singleton_sublist.mpr List.mem_cons_self) pre
  obtain ⟨htl, hlast⟩ := h.inside last hmem
  have hfresh : n ∉ pre ++ last :: post := fun hm => h.live hL n hm hr
  have hne : last ≠ n := fun heq => hfresh (heq ▸ hmem)
  have htable : ∀ e < L.fileSystemSize, ((v.fileTableWrite n MBFS_EOF).fileTableWrite last n).table e =
      if e = last then n else if e = n then MBFS_EOF else v.table e := fun e he => by
    rw [fileTableWrite_table hL _ hlast he (by omega), fileTableWrite_table hL _ hn' he (by decide)]
  have hbytes : ∀ b < L.fileSystemSize, L.fileSystemTableSize ≤ b → ∀ k < 256,
      ((v.fileTableWrite n MBFS_EOF).fileTableWrite last n).flash (L.getBlock b + k) = v.flash (L.getBlock b + k) :=
    fun b hb htb k hk => by
      rw [fileTableWrite_block hL _ hlast _ htb hb hk, fileTableWrite_block hL _ hn' _ htb hb hk]
  have hin := fun b hb => h.inside b (hsub.subset hb)
  refine ⟨⟨h.last, fun b hb => ?_, ?_, ?_, fun b hb => ?_⟩, bytesOf_congr fun b hb => hbytes b (hin b hb).2 (hin b hb).1,
    fun b hb hnb hl => ⟨hbytes b hb, ?_⟩⟩
  · have hlook : L.getNextFileBlock _ b = _ := htable b (hb.trans hL.table_lt)
    rw [if_neg (by omega), if_neg (by omega)] at hlook
    unfold Layout.Reusable
    rw [hlook]
    exact h.tabled b hb
  · refine isChain_branch (by omega) ((htable last hlast).trans (if_pos rfl)) ?_ pre h.chain fun e he => ?_
    · exact (htable n hn').trans (by rw [if_neg (Ne.symm hne), if_pos rfl])
    · have hel : e ≠ last := fun heq => (List.nodup_append'.mp h.nodup).2.2 he (heq ▸ List.mem_cons_self)
      have hen : e ≠ n := fun heq => hfresh (heq ▸ List.mem_append_left _ he)
      exact (htable e (h.inside e (List.mem_append_left _ he)).2).trans (by rw [if_neg hel, if_neg hen]; rfl)
  · rw [show pre ++ [last, n] = pre ++ [last] ++ [n] by simp]
    exact List.nodup_append'.mpr ⟨h.nodup.sublist hsub, List.nodup_singleton n,
      List.disjoint_singleton.mpr fun hm => hfresh (hsub.subset hm)⟩
  · rw [show pre ++ [last, n] = pre ++ [last] ++ [n] by simp, List.mem_append] at hb
    rcases hb with hb | hb
    · exact hin b hb
    · rw [List.mem_singleton.mp hb]
      exact ⟨hn, hn'⟩
  · have hbl : b ≠ last := fun heq => hnb (heq ▸ hmem)
    have hbn : b ≠ n := fun heq => hl (heq ▸ hr)
    exact (htable b hb).trans (by rw [if_neg hbl, if_neg hbn]; rfl)

end Volume

end CodalMicrobit

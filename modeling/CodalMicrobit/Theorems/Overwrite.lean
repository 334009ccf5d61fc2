import CodalMicrobit.Lemmas.Contents

/-!
# Overwriting

Where `writeBuffer` comes to the end of a block it goes on in a new one, whether the file has a next block or not. The blocks
that were the next ones are cut off. What they held is lost, unless the buffer goes over all of it.
-/

namespace CodalMicrobit

open Nor

namespace Volume

variable {L : Layout} {v u w : Volume L}

/-- The entry is that of a file of this length that is stored in the blocks. -/
structure Stored (v : Volume L) (dirent length : Nat) (blocks : List Nat) : Prop where
  first : blocks.head? = some (firstBlockAt v.flash dirent)
  chained : v.Chained blocks
  room : length ≤ 256 * blocks.length
  home : ∃ c < L.fileSystemSize, L.fileSystemTableSize ≤ c ∧ ¬L.Reusable v.flash c ∧ dirent ∈ L.entries c

/-- What `writeBuffer` is meant to do with a file that is stored in the blocks `own`: the first `k` bytes of the buffer are
written over its content, and what other files hold stays as it is. -/
structure Overwritten (v : Volume L) (own : List Nat) (file : FileDescriptor) (buffer : List UInt8) (k : Nat)
    (file' : FileDescriptor) (w : Volume L) : Prop where
  count : k ≤ buffer.length
  length : file'.length = max file.length (file.seek + k)
  content : w.content file.dirent file'.length = (v.content file.dirent file.length).splice file.seek (buffer.take k)
  others : ∀ dirent length blocks, v.Stored dirent length blocks → dirent ∉ own.flatMap L.entries → (∀ b ∈ blocks, b ∉ own) →
    w.content dirent length = v.content dirent length

/-- `getFreeBlock` gives this number, which is below the size of the file system, and keeps what is in use. -/
structure Grants (v : Volume L) (b : Nat) (w : Volume L) : Prop where
  run : v.getFreeBlock = .ok (b, w)
  lt : b < L.fileSystemSize
  kept : Kept L none v.flash w.flash

/-- The loop of `writeBuffer` can write the rest of a buffer. Where it writes over something there is a page to spare, and
`getFreeBlock` does its part. Once the loop has moved to a new block, the file may not go on behind what is written. -/
inductive CanWrite (length : Nat) : Bool → Volume L → Nat → Nat → Nat → List UInt8 → Prop where
  /-- The rest has room in the block. -/
  | last (moved : Bool) (v : Volume L) (position block offset : Nat) (buffer : List UInt8)
      (hfit : offset + buffer.length ≤ 256) (hroom : buffer ≠ [] → position < length → v.Roomy)
      (hend : moved = true → length ≤ position + buffer.length) : CanWrite length moved v position block offset buffer
  /-- There is no other block. -/
  | full (moved : Bool) (v : Volume L) (position block offset : Nat) (buffer : List UInt8) (u w : Volume L)
      (hmore : 256 < offset + buffer.length) (hroom : buffer.take (256 - offset) ≠ [] → position < length → v.Roomy)
      (hwrite : v.writeSegment (L.getBlock block + offset) (buffer.take (256 - offset)) (position < length) = .ok u)
      (hgrant : u.Grants 0 w) (hend : moved = true → length ≤ position + (256 - offset)) :
      CanWrite length moved v position block offset buffer
  /-- The loop goes on in another block. -/
  | next (moved : Bool) (v : Volume L) (position block offset : Nat) (buffer : List UInt8) (u w : Volume L) (b : Nat)
      (hmore : 256 < offset + buffer.length) (hroom : buffer.take (256 - offset) ≠ [] → position < length → v.Roomy)
      (hwrite : v.writeSegment (L.getBlock block + offset) (buffer.take (256 - offset)) (position < length) = .ok u)
      (hb : b ≠ 0) (hgrant : u.Grants b w)
      (hrest : CanWrite length true ((w.fileTableWrite b MBFS_EOF).fileTableWrite block b) (position + (256 - offset)) b 0
        (buffer.drop (256 - offset))) : CanWrite length moved v position block offset buffer

/-- The condition: from the position of the file on, the loop can write the buffer. -/
def Writable (v : Volume L) (file : FileDescriptor) (buffer : List UInt8) : Prop :=
  let (block, offset) := v.seekBlock (firstBlockAt v.flash file.dirent) file.seek file.seek
  v.CanWrite file.length false file.seek block offset buffer

/-! ## Turns of the loop -/

section

variable {length position block offset fuel b k : Nat} {buffer : List UInt8}

theorem writeLoop_nil (v : Volume L) (length position block offset fuel : Nat) :
    v.writeLoop length position block offset [] (fuel + 1) = .ok (0, v) := by
  rw [writeLoop, if_pos rfl]

/-- A turn that writes all that is left. -/
theorem writeLoop_end (v : Volume L) (length position block fuel : Nat) (hne : buffer ≠ []) (hfit : offset + buffer.length ≤ 256) :
    v.writeLoop length position block offset buffer (fuel + 2) =
      (v.writeSegment (L.getBlock block + offset) buffer (position < length) >>= fun u => .ok (buffer.length, u)) := by
  have hmin : min buffer.length (MBFS_BLOCK_SIZE - offset) = buffer.length := by
    unfold MBFS_BLOCK_SIZE
    omega
  rw [writeLoop, if_neg hne]
  dsimp only
  rw [hmin, List.take_length, List.drop_length]
  congr 1
  funext u
  rw [if_neg fun h => h.2 rfl, writeLoop_nil]
  rfl

/-- The last turn writes what is left inside the block. -/
theorem writeLoop_last (hne : buffer ≠ []) (hfit : offset + buffer.length ≤ 256)
    (hwrite : v.writeSegment (L.getBlock block + offset) buffer (position < length) = .ok u) :
    v.writeLoop length position block offset buffer (fuel + 2) = .ok (buffer.length, u) := by
  rw [writeLoop_end v length position block fuel hne hfit, hwrite]
  rfl

section

variable (hmore : 256 < offset + buffer.length) (ho : offset ≤ 256)
  (hwrite : v.writeSegment (L.getBlock block + offset) (buffer.take (256 - offset)) (position < length) = .ok u)
include hmore ho hwrite

/-- A turn that comes to the end of a block. -/
theorem writeLoop_turn : v.writeLoop length position block offset buffer (fuel + 1) = (u.getFreeBlock >>= fun (newBlock, w) =>
    if newBlock = 0 then .ok (256 - offset, w)
    else ((w.fileTableWrite newBlock MBFS_EOF).fileTableWrite block newBlock).writeLoop length (position + (256 - offset))
      newBlock 0 (buffer.drop (256 - offset)) fuel >>= fun (n, w) => .ok (256 - offset + n, w)) := by
  have hmin : min buffer.length (MBFS_BLOCK_SIZE - offset) = 256 - offset := by
    unfold MBFS_BLOCK_SIZE
    omega
  have hne : buffer ≠ [] := by
    rintro rfl
    rw [List.length_nil] at hmore
    omega
  have hdrop : buffer.drop (256 - offset) ≠ [] := by
    rw [Ne, List.drop_eq_nil_iff]
    omega
  have hsum : offset + (256 - offset) = MBFS_BLOCK_SIZE := Nat.add_sub_cancel' ho
  rw [writeLoop, if_neg hne]
  dsimp only
  rw [hmin, hwrite]
  change (if _ ∧ _ then _ else _) = _
  rw [if_pos ⟨hsum, hdrop⟩]

/-- The loop ends when the file system is full. -/
theorem writeLoop_full (hfree : u.getFreeBlock = .ok (0, w)) :
    v.writeLoop length position block offset buffer (fuel + 1) = .ok (256 - offset, w) := by
  rw [writeLoop_turn hmore ho hwrite, hfree]
  rfl

/-- A turn that fills the block links the next one and goes on there. -/
theorem writeLoop_next (hb : b ≠ 0) (hfree : u.getFreeBlock = .ok (b, w)) {x : Volume L}
    (hrest : ((w.fileTableWrite b MBFS_EOF).fileTableWrite block b).writeLoop length (position + (256 - offset)) b 0
      (buffer.drop (256 - offset)) fuel = .ok (k, x)) :
    v.writeLoop length position block offset buffer (fuel + 1) = .ok (256 - offset + k, x) := by
  rw [writeLoop_turn hmore ho hwrite, hfree]
  change (if b = 0 then _ else _) = _
  rw [if_neg hb, hrest]
  rfl

end

end

/-! ## What the loop leaves -/

/-- The last block that was allocated is what `getFreeBlock` gave, or is as it was. -/
theorem getFreeBlock_last {b : Nat} (h : v.getFreeBlock = .ok (b, w)) :
    w.lastBlockAllocated = b ∨ w.lastBlockAllocated = v.lastBlockAllocated := by
  unfold getFreeBlock at h
  split at h
  · cases h
    exact Or.inl rfl
  · cases h
    exact Or.inr rfl
  · obtain ⟨x, -, h⟩ := Outcome.bind_eq_ok.mp h
    cases h
    exact Or.inl rfl

/-- The block granted is one of the file system's. -/
theorem Grants.last {b : Nat} (h : v.Grants b w) (hlast : v.lastBlockAllocated < L.fileSystemSize) :
    w.lastBlockAllocated < L.fileSystemSize := by
  rcases getFreeBlock_last h.run with he | he <;> rw [he]
  · exact h.lt
  · exact hlast

/-- The block is one that was not in use, and not one of the table. -/
theorem Grants.fresh (hL : L.Sound) {b : Nat} (h : v.Grants b w) (hb : b ≠ 0) (ht : Tabled L w.flash) :
    L.fileSystemTableSize ≤ b ∧ L.Reusable w.flash b := by
  have hspec := getFreeBlock_spec v
  rw [h.run] at hspec
  have hr : L.Reusable w.flash b := (h.kept.reusable_iff hL h.lt).mpr (hspec.2 hb).2
  exact ⟨Nat.le_of_not_lt fun hlt => ht b hlt hr, hr⟩

/-- A turn that comes to the end of a block, up to the block it goes on in. -/
theorem Chained.turn (hL : L.Sound) {pre post : List Nat} {length position block offset b : Nat} {buffer : List UInt8}
    (h : v.Chained (pre ++ block :: post)) (hpos : position = 256 * pre.length + offset) (ho : offset ≤ 256)
    (hroom : buffer.take (256 - offset) ≠ [] → position < length → v.Roomy)
    (hwrite : v.writeSegment (L.getBlock block + offset) (buffer.take (256 - offset)) (position < length) = .ok u)
    (hgrant : u.Grants b w) : w.Chained (pre ++ block :: post) ∧ L.bytesOf w.flash (pre ++ block :: post) =
      (L.bytesOf v.flash (pre ++ block :: post)).splice position (buffer.take (256 - offset)) ∧
      Leaves L (pre ++ block :: post) v.flash w.flash := by
  have hin : offset + (buffer.take (256 - offset)).length ≤ 256 := by
    rw [List.length_take]
    omega
  obtain ⟨u', hwrite', hu, hbytes, hleaves⟩ := h.writeSegment hL hpos hin (position < length) fun hne hlt =>
    hroom hne (of_decide_eq_true hlt)
  rw [hwrite] at hwrite'
  cases hwrite'
  obtain ⟨hw, hsame⟩ := hu.kept hL hgrant.kept (hgrant.last hu.last)
  exact ⟨hw, hsame.trans hbytes, hleaves.trans (hgrant.kept.leaves hL _) fun c hc => Or.inl hc⟩

/-- What the loop leaves of a file that was stored in the blocks `own`, and is stored in `blocks` now. -/
structure Wrote (v : Volume L) (own : List Nat) (length : Nat) (moved : Bool) (position : Nat) (buffer : List UInt8) (k : Nat)
    (w : Volume L) (blocks : List Nat) : Prop where
  count : k ≤ buffer.length
  head : blocks.head? = own.head?
  chained : w.Chained blocks
  room : position + k ≤ 256 * blocks.length
  front : (L.bytesOf w.flash blocks).take (position + k) = (L.bytesOf v.flash own).take position ++ buffer.take k
  back : length ≤ position + k ∨ moved = false ∧ blocks = own ∧
    (L.bytesOf w.flash blocks).drop (position + k) = (L.bytesOf v.flash own).drop (position + k)
  leaves : Leaves L own v.flash w.flash
  within : ∀ b ∈ blocks, b ∈ own ∨ L.Reusable v.flash b

/-- The loop ends in the block it is in. -/
theorem Wrote.ends {own : List Nat} {length position n : Nat} {moved : Bool} {buffer : List UInt8} (hw : w.Chained own)
    (hn : n ≤ buffer.length) (hroom : position + n ≤ 256 * own.length)
    (hbytes : L.bytesOf w.flash own = (L.bytesOf v.flash own).splice position (buffer.take n))
    (hend : moved = true → length ≤ position + n) (hleaves : Leaves L own v.flash w.flash) :
    Wrote v own length moved position buffer n w own := by
  have hlen : (buffer.take n).length = n := List.length_take_of_le hn
  have hpos : position ≤ (L.bytesOf v.flash own).length := by
    rw [bytesOf_length]
    omega
  refine ⟨hn, rfl, hw, hroom, ?_, ?_, hleaves, fun b hb => Or.inl hb⟩
  · rw [hbytes, List.take_splice hpos hlen]
  · cases moved with
    | true => exact Or.inl (hend rfl)
    | false =>
      refine Or.inr ⟨rfl, rfl, ?_⟩
      rw [hbytes, List.drop_splice hpos hlen]

/-- The loop goes on in a new block. -/
theorem Wrote.next {pre post blocks : List Nat} {block b length position n k : Nat} {moved : Bool} {buffer : List UInt8}
    {x y : Volume L} (hpos : position + n = 256 * (pre.length + 1)) (hn : n ≤ buffer.length)
    (hbytes : L.bytesOf w.flash (pre ++ block :: post) = (L.bytesOf v.flash (pre ++ block :: post)).splice position (buffer.take n))
    (hkept : L.bytesOf x.flash (pre ++ [block]) = L.bytesOf w.flash (pre ++ [block]))
    (hleaves : Leaves L (pre ++ block :: post) v.flash w.flash) (hx : Leaves L (pre ++ block :: post) w.flash x.flash)
    (hr : L.Reusable w.flash b)
    (h : Wrote x (pre ++ [block] ++ [b]) length true (position + n) (buffer.drop n) k y blocks) :
    Wrote v (pre ++ block :: post) length moved position buffer (n + k) y blocks := by
  have hlen : (buffer.take n).length = n := List.length_take_of_le hn
  have hcount := h.count
  rw [List.length_drop] at hcount
  have hsplit : pre ++ block :: post = pre ++ [block] ++ post := by rw [List.append_assoc, List.singleton_append]
  have hfirst : ∀ (m : Memory) (rest : List Nat), (L.bytesOf m (pre ++ [block] ++ rest)).take (position + n) =
      L.bytesOf m (pre ++ [block]) := fun m rest => by
    rw [bytesOf_append]
    refine List.take_left' ?_
    rw [bytesOf_length, List.length_append, List.length_singleton, hpos]
  have hcut := hleaves.trans hx fun c hc => Or.inl hc
  have howned : ∀ c ∈ pre ++ [block], c ∈ pre ++ block :: post := fun c hc => by
    rw [hsplit]
    exact List.mem_append_left _ hc
  refine ⟨by omega, ?_, h.chained, ?_, ?_, Or.inl ?_, ?_, fun c hc => ?_⟩
  · rw [h.head]
    cases pre <;> rfl
  · rw [← Nat.add_assoc]
    exact h.room
  · have hspliced : (L.bytesOf w.flash (pre ++ block :: post)).take (position + n) =
        (L.bytesOf v.flash (pre ++ block :: post)).take position ++ buffer.take n := by
      rw [hbytes, List.take_splice ?_ hlen]
      rw [bytesOf_length, List.length_append, List.length_cons]
      omega
    calc (L.bytesOf y.flash blocks).take (position + (n + k))
        = (L.bytesOf x.flash (pre ++ [block] ++ [b])).take (position + n) ++ (buffer.drop n).take k := by
          rw [← Nat.add_assoc, h.front]
      _ = (L.bytesOf w.flash (pre ++ block :: post)).take (position + n) ++ (buffer.drop n).take k := by
          rw [hfirst, hkept, hsplit, hfirst]
      _ = (L.bytesOf v.flash (pre ++ block :: post)).take position ++ buffer.take (n + k) := by
          rw [hspliced, List.append_assoc, ← List.take_add]
  · rcases h.back with hle | ⟨hm, -⟩
    · omega
    · nomatch hm
  · refine hleaves.trans (hx.trans h.leaves fun c hc => ?_) fun c hc => Or.inl hc
    rw [List.mem_append, List.mem_singleton] at hc
    rcases hc with hc | rfl
    · exact Or.inl (howned c hc)
    · exact Or.inr hr
  · obtain ⟨-, hlt⟩ := h.chained.inside c hc
    by_cases hmem : c ∈ pre ++ block :: post
    · exact Or.inl hmem
    · rcases h.within c hc with hb | hrx
      · rw [List.mem_append, List.mem_singleton] at hb
        rcases hb with hb | rfl
        · exact absurd (howned c hb) hmem
        · exact Or.inr (hleaves.reusable hlt hmem hr)
      · exact Or.inr (hcut.reusable hlt hmem hrx)

/-- The loop writes the buffer to the file where it is, and leaves other files alone. -/
theorem writeLoop_wrote (hL : L.Sound) {length position block offset : Nat} {moved : Bool} {buffer : List UInt8}
    (h : v.CanWrite length moved position block offset buffer) : ∀ (pre post : List Nat) (fuel : Nat),
    v.Chained (pre ++ block :: post) → position = 256 * pre.length + offset → offset ≤ 256 →
    buffer.length + offset / 256 < fuel → ∃ k w blocks, v.writeLoop length position block offset buffer fuel = .ok (k, w) ∧
      Wrote v (pre ++ block :: post) length moved position buffer k w blocks := by
  induction h with
  | last moved v position block offset buffer hfit hroom hend =>
    intro pre post fuel hc hpos ho hfuel
    have hown : 256 * pre.length + 256 ≤ 256 * (pre ++ block :: post).length := by
      rw [List.length_append, List.length_cons]
      omega
    obtain ⟨u, hwrite, hu, hbytes, hleaves⟩ := hc.writeSegment hL hpos hfit (position < length)
      fun hne hlt => hroom hne (of_decide_eq_true hlt)
    have htake : buffer.take buffer.length = buffer := List.take_length
    by_cases hnil : buffer = []
    · obtain ⟨fuel, rfl⟩ : ∃ f, fuel = f + 1 := ⟨fuel - 1, by omega⟩
      subst hnil
      refine ⟨0, v, _, writeLoop_nil v _ _ _ _ fuel, .ends hc (Nat.zero_le _) (by omega) ?_ hend (.refl _ _)⟩
      rw [List.take_nil, List.splice_nil]
    · have hlen := List.length_pos_of_ne_nil hnil
      obtain ⟨fuel, rfl⟩ : ∃ f, fuel = f + 2 := ⟨fuel - 2, by omega⟩
      exact ⟨_, u, _, writeLoop_last hnil hfit hwrite, .ends hu (Nat.le_refl _) (by omega) (by rw [htake, hbytes]) hend hleaves⟩
  | full moved v position block offset buffer u w hmore hroom hwrite hgrant hend =>
    intro pre post fuel hc hpos ho hfuel
    have hown : 256 * pre.length + 256 ≤ 256 * (pre ++ block :: post).length := by
      rw [List.length_append, List.length_cons]
      omega
    obtain ⟨fuel, rfl⟩ : ∃ f, fuel = f + 1 := ⟨fuel - 1, by omega⟩
    obtain ⟨hw, hbytes, hleaves⟩ := hc.turn hL hpos ho hroom hwrite hgrant
    exact ⟨_, w, _, writeLoop_full hmore ho hwrite hgrant.run, .ends hw (by omega) (by omega) hbytes hend hleaves⟩
  | next moved v position block offset buffer u w b hmore hroom hwrite hb hgrant hrest ih =>
    intro pre post fuel hc hpos ho hfuel
    obtain ⟨fuel, rfl⟩ : ∃ f, fuel = f + 1 := ⟨fuel - 1, by omega⟩
    obtain ⟨hw, hbytes, hleaves⟩ := hc.turn hL hpos ho hroom hwrite hgrant
    obtain ⟨htb, hr⟩ := hgrant.fresh hL hb hw.tabled
    obtain ⟨hx, hkept, hcut⟩ := hw.branch hL htb hgrant.lt hr
    rw [show pre ++ [block, b] = pre ++ [block] ++ b :: [] by simp] at hx
    obtain ⟨k, y, blocks, hloop, hwrote⟩ := ih _ [] fuel hx
      (by rw [List.length_append, List.length_singleton]; omega) (by omega) (by rw [List.length_drop]; omega)
    exact ⟨_, y, blocks, writeLoop_next hmore ho hwrite hb hgrant.run hloop,
      .next (by omega) (by omega) hbytes hkept hleaves hcut hr hwrote⟩

/-! ## Files -/

section

variable {dirent length : Nat} {own blocks : List Nat}

/-- The content of a file is read out of its blocks. -/
theorem Stored.content (h : v.Stored dirent length blocks) :
    v.content dirent length = (L.bytesOf v.flash blocks).take length := by
  obtain ⟨hfirst, hchained, hroom, -⟩ := h
  cases blocks with
  | nil => nomatch hfirst
  | cons b bs =>
    cases hfirst
    exact content_eq v hchained.chain hroom

/-- The walk to the block of a position of the file. -/
theorem Stored.walk (h : v.Stored dirent length own) {seek : Nat} (hseek : seek ≤ length) :
    ∃ pre block post, own = pre ++ block :: post ∧ pre.length = (seek - 1) / 256 ∧
      v.seekBlock (firstBlockAt v.flash dirent) seek seek = (block, seek - 256 * pre.length) := by
  obtain ⟨hfirst, hchained, hroom, -⟩ := h
  cases own with
  | nil => nomatch hfirst
  | cons b bs =>
    cases hfirst
    exact seekBlock_eq v seek hchained.chain (hseek.trans hroom) (Nat.le_refl _)

/-- The entry is as it was if its block is not one of the own ones. -/
theorem Leaves.entry (h : Leaves L own v.flash w.flash) (hown : dirent ∉ own.flatMap L.entries)
    (hhome : ∃ c < L.fileSystemSize, L.fileSystemTableSize ≤ c ∧ ¬L.Reusable v.flash c ∧ dirent ∈ L.entries c) :
    firstBlockAt w.flash dirent = firstBlockAt v.flash dirent ∧
      ∃ c < L.fileSystemSize, L.fileSystemTableSize ≤ c ∧ ¬L.Reusable w.flash c ∧ dirent ∈ L.entries c := by
  obtain ⟨c, hc, htc, hl, hd⟩ := hhome
  obtain ⟨hbytes, hnext⟩ := h c hc (fun hm => hown (List.mem_flatMap.mpr ⟨c, hm, hd⟩)) hl
  refine ⟨?_, c, hc, htc, ?_, hd⟩
  · obtain ⟨i, hi, rfl⟩ := mem_entries.mp hd
    refine firstBlockAt_congr fun k hk => ?_
    rw [Nat.add_assoc]
    exact hbytes htc _ (by omega)
  · unfold Layout.Reusable
    rw [hnext]
    exact hl

/-- What a file holds that has no block among the own ones. -/
theorem Stored.other (hL : L.Sound) (h : v.Stored dirent length blocks) (hleaves : Leaves L own v.flash w.flash)
    (hown : dirent ∉ own.flatMap L.entries) (hapart : ∀ b ∈ blocks, b ∉ own)
    (hlast : w.lastBlockAllocated < L.fileSystemSize) (ht : Tabled L w.flash) :
    w.content dirent length = v.content dirent length := by
  obtain ⟨hfirst, hhome⟩ := hleaves.entry hown h.home
  have hsame := fun b hb => hleaves b (h.chained.inside b hb).2 (hapart b hb) (h.chained.live hL b hb)
  have hw : w.Stored dirent length blocks :=
    ⟨by rw [hfirst, h.first], h.chained.congr hlast ht fun b hb => (hsame b hb).2, h.room, hhome⟩
  rw [hw.content, h.content, bytesOf_congr fun b hb => (hsame b hb).1 (h.chained.inside b hb).1]

/-- What `writeBuffer` leaves of a file if it can write the buffer. -/
theorem writeBuffer_wrote (hL : L.Sound) {file : FileDescriptor} (h : v.Stored file.dirent file.length own)
    (hown : file.dirent ∉ own.flatMap L.entries) (hseek : file.seek ≤ file.length) {buffer : List UInt8}
    (hwritable : v.Writable file buffer) : ∃ k w blocks, v.writeBuffer file buffer =
        .ok (k, { file with length := max file.length (file.seek + k), seek := file.seek + k }, w) ∧
      Wrote v own file.length false file.seek buffer k w blocks ∧
      w.Stored file.dirent (max file.length (file.seek + k)) blocks ∧
      w.content file.dirent (max file.length (file.seek + k)) =
        (v.content file.dirent file.length).splice file.seek (buffer.take k) := by
  obtain ⟨pre, block, post, hsplit, hpre, hwalk⟩ := h.walk hseek
  have hroom := h.room
  unfold Writable at hwritable
  rw [hwalk] at hwritable
  have hchained := h.chained
  rw [hsplit] at hchained
  obtain ⟨k, w, blocks, hloop, hwrote⟩ := writeLoop_wrote hL hwritable pre post (buffer.length + 2) hchained (by omega) (by omega)
    (by omega)
  rw [← hsplit] at hwrote
  obtain ⟨hfirst, hhome⟩ := hwrote.leaves.entry hown h.home
  have hlen : (buffer.take k).length = k := List.length_take_of_le hwrote.count
  have hold : (L.bytesOf v.flash own).length = 256 * own.length := bytesOf_length _ _
  have hstored : w.Stored file.dirent (max file.length (file.seek + k)) blocks := by
    refine ⟨by rw [hwrote.head, hfirst, h.first], hwrote.chained, ?_, hhome⟩
    have hwroom := hwrote.room
    rcases hwrote.back with hle | ⟨-, rfl, -⟩ <;> omega
  refine ⟨k, w, blocks, ?_, hwrote, hstored, ?_⟩
  · unfold writeBuffer
    rw [hwalk]
    change v.writeLoop _ _ _ _ _ _ >>= _ = _
    rw [hloop]
    rfl
  · rw [hstored.content, h.content]
    rcases hwrote.back with hle | ⟨-, -, hdrop⟩
    · -- the content ends with what was written
      rw [max_eq_right hle, hwrote.front, List.splice_of_le (by rw [List.length_take, hlen]; omega), List.take_take,
        Nat.min_eq_left hseek]
    · -- what lies behind is as it was
      have hall : L.bytesOf w.flash blocks = (L.bytesOf v.flash own).splice file.seek (buffer.take k) := by
        rw [← List.take_append_drop (file.seek + k) (L.bytesOf w.flash blocks), hwrote.front, hdrop]
        unfold List.splice
        rw [hlen]
      rw [List.splice_take hseek (by rw [hold]; exact hroom), hlen, hall]

/-- `writeBuffer` overwrites the content of a file if it can write the buffer. -/
theorem writeBuffer_overwrites (hL : L.Sound) {file : FileDescriptor} (h : v.Stored file.dirent file.length own)
    (hown : file.dirent ∉ own.flatMap L.entries) (hseek : file.seek ≤ file.length) {buffer : List UInt8}
    (hwritable : v.Writable file buffer) :
    ∃ k file' w, v.writeBuffer file buffer = .ok (k, file', w) ∧ v.Overwritten own file buffer k file' w := by
  obtain ⟨k, w, blocks, hrun, hwrote, -, hcontent⟩ := writeBuffer_wrote hL h hown hseek hwritable
  exact ⟨k, _, w, hrun, hwrote.count, rfl, hcontent, fun dirent length blocks' hs hd hb =>
    hs.other hL hwrote.leaves hd hb hwrote.chained.last hwrote.chained.tabled⟩

end

/-- The file, open for the last three of 253 bytes. -/
def openFile : FileDescriptor := ⟨0, 0, 250, 253, 0x10118, 0x10100, []⟩

/-- The file of the example is stored in its block. -/
theorem oneFile_stored : oneFile.Stored 0x10118 253 [2] := by
  have hend : threePages.getNextFileBlock oneFile.flash 2 = MBFS_EOF := by decide +kernel
  exact ⟨by decide +kernel, ⟨by decide, by unfold Tabled; decide +kernel, hend, by decide, by decide⟩, by decide, 1,
    by decide +kernel⟩

/-- Six bytes are written to the block of the file, and four to a new one. -/
theorem oneFile_writable : oneFile.Writable openFile (List.replicate 10 7) := by
  have hL := threePages_sound
  have hroomy : oneFile.Roomy := Or.inl (by decide +kernel)
  have hfirst : firstBlockAt oneFile.flash 0x10118 = 2 := by decide +kernel
  have hwalk : oneFile.seekBlock (firstBlockAt oneFile.flash openFile.dirent) openFile.seek openFile.seek = (2, 250) := by
    rw [show firstBlockAt oneFile.flash openFile.dirent = 2 from hfirst]
    rfl
  have hchained := oneFile_stored.chained
  obtain ⟨u, hwrite, hlast, hput⟩ := writeSegment_spec hL hchained.last hchained.tabled (show 2 < 48 by decide)
    (hchained.live hL 2 (by decide)) (show 250 + (List.replicate 6 7).length ≤ 256 by decide) true fun _ _ => hroomy
  have htable := table_of_put hL hchained.tabled (show 1 ≤ 2 by decide) hput
  have hsupplies : u.Supplies := by
    -- block 47 is ahead, or block 3 if 47 was the last one
    by_cases h : u.lastBlockAllocated = 47
    · refine Or.inl ⟨3, by decide, ?_, Or.inr ⟨by rw [h]; rfl, by rw [h]; decide⟩⟩
      rw [htable 3 (by decide)]
      decide +kernel
    · refine Or.inl ⟨47, by decide, ?_, Or.inl (by change _ < 48 at hlast; omega)⟩
      rw [htable 47 (by decide)]
      decide +kernel
  obtain ⟨b, w, hrun, hb, hlt, -, hk⟩ := getFreeBlock_supplied hL (by rw [htable 0 (by decide)]; decide +kernel) hsupplies
  unfold Writable
  rw [hwalk]
  exact .next false oneFile 250 2 250 _ u w b (by decide) (fun _ _ => hroomy) hwrite hb ⟨hrun, hlt, hk⟩
    (.last true _ _ _ _ _ (by decide) (fun _ h => absurd h (by decide)) fun _ => by decide)

/-- Ten bytes over a file of one block. -/
theorem writeBuffer_overwrites_one_file : ∃ k file' w,
    oneFile.writeBuffer openFile (List.replicate 10 7) = .ok (k, file', w) ∧
      oneFile.Overwritten [2] openFile (List.replicate 10 7) k file' w :=
  writeBuffer_overwrites threePages_sound oneFile_stored (by decide) (by decide) oneFile_writable

/-- The file has the blocks 2 and 3. -/
def twoBlocks : Volume threePages where
  flash := put (withTable ([1, MBFS_EOF, 3, MBFS_EOF] ++ List.replicate 44 MBFS_UNUSED)) 0x10300 [1, 2]

/-- The file, open for the last two of 258 bytes. -/
def openBlocks : FileDescriptor := ⟨0, 0, 256, 258, 0x10118, 0x10100, []⟩

/-- The file of the example is stored in its two blocks. -/
theorem twoBlocks_stored : twoBlocks.Stored 0x10118 258 [2, 3] := by
  have hnext : threePages.getNextFileBlock twoBlocks.flash 2 = 3 := by decide +kernel
  have hend : threePages.getNextFileBlock twoBlocks.flash 3 = MBFS_EOF := by decide +kernel
  exact ⟨by decide +kernel, ⟨by decide, by unfold Tabled; decide +kernel, ⟨hnext, by decide, hend⟩, by decide, by decide⟩,
    by decide, 1, by decide +kernel⟩

/-- The last byte of the content when there are two in the second block. -/
theorem content_last (v : Volume threePages) (dirent : Nat) : (v.content dirent 258).drop 257 =
    [v.flash (threePages.getBlock (v.table (firstBlockAt v.flash dirent)) + 1)] := by
  have hfirst : 256 ≤ (slice v.flash (threePages.getBlock (firstBlockAt v.flash dirent) + 0) 256).length := by
    rw [slice_length]
  rw [content, readLoop_next v 258 (by decide) (by decide), readLoop_block v 257 (by decide), List.drop_append,
    List.drop_eq_nil_of_le (by rw [slice_length]; decide), slice_length, slice_drop v.flash _ (by decide)]
  rfl

/-- The loop goes on in block 4, and leaves a byte there that was never written. -/
theorem twoBlocks_run : ∃ u, twoBlocks.writeLoop 258 256 2 256 [0] 3 = .ok (1, u) ∧ firstBlockAt u.flash 0x10118 = 2 ∧
    u.table 2 = 4 ∧ u.flash (threePages.getBlock 4 + 1) = 0xFF := by
  have hL := threePages_sound
  have hc := twoBlocks_stored.chained
  have hold : ∀ b < 48, 4 ≤ b → twoBlocks.table b = MBFS_UNUSED := by decide +kernel
  obtain ⟨hfree, -⟩ := getFreeBlock_found hL (show (twoBlocks.lastBlockAllocated + 1) % 48 % 2 ^ 16 = 1 from rfl)
    (show 1 + 3 < 48 by decide) (by decide +kernel) (by decide) (hold 4 (by decide) (by decide))
  have hv : (twoBlocks.allocated 4).Chained ([] ++ 2 :: [3]) := ⟨by decide, hc.tabled, hc.chain, hc.nodup, hc.inside⟩
  obtain ⟨hx, -, -⟩ := hv.branch hL (n := 4) (by decide) (by decide) (Or.inl (hold 4 (by decide) (by decide)))
  have hbytes : ∀ b < 48, 1 ≤ b → ∀ k < 256, (((twoBlocks.allocated 4).fileTableWrite 4 MBFS_EOF).fileTableWrite 2 4).flash
      (threePages.getBlock b + k) = twoBlocks.flash (threePages.getBlock b + k) := fun b hb htb k hk => by
    rw [fileTableWrite_block hL _ (by decide) _ htb hb hk, fileTableWrite_block hL _ (by decide) _ htb hb hk]
    rfl
  have htable : ∀ e < 48, (((twoBlocks.allocated 4).fileTableWrite 4 MBFS_EOF).fileTableWrite 2 4).table e =
      if e = 2 then 4 else if e = 4 then MBFS_EOF else twoBlocks.table e := fun e he => by
    rw [fileTableWrite_table hL _ (by decide) he (by decide), fileTableWrite_table hL _ (by decide) he (by decide)]
    rfl
  have hcurrent : (((twoBlocks.allocated 4).fileTableWrite 4 MBFS_EOF).fileTableWrite 2 4).lastBlockAllocated = 4 := rfl
  generalize hgone : ((twoBlocks.allocated 4).fileTableWrite 4 MBFS_EOF).fileTableWrite 2 4 = x at hx hbytes htable hcurrent
  have hroomy : x.Roomy := by
    refine Or.inl ⟨1, by decide, by rw [hcurrent]; decide, fun i hi hl => hl (Or.inl ?_)⟩
    have hi' : i < 16 := hi
    refine (htable (16 + i) (by omega)).trans ?_
    rw [if_neg (by omega), if_neg (by omega)]
    exact hold _ (by omega) (by omega)
  have hdirectory : ¬threePages.Reusable x.flash 1 := by
    have hend : threePages.getNextFileBlock x.flash 1 = _ := htable 1 (by decide)
    rw [if_neg (by decide), if_neg (by decide)] at hend
    unfold Layout.Reusable
    rw [hend]
    decide +kernel
  obtain ⟨u, hwrite, -, hput⟩ := writeSegment_spec hL hx.last hx.tabled (show 4 < 48 by decide) (hx.live hL 4 (by decide))
    (show 0 + [(0 : UInt8)].length ≤ 256 by decide) true fun _ _ => hroomy
  have hfirst : firstBlockAt u.flash 0x10118 = firstBlockAt twoBlocks.flash 0x10118 := firstBlockAt_congr fun k hk => by
    rw [show 0x10118 + k = threePages.getBlock 1 + (24 + k) by change _ = 0x10100 + _; omega,
      hput 1 (by decide) hdirectory _ (by omega), put_of_lt _ _ (by change 0x10100 + _ < 0x10400; omega),
      hbytes 1 (by decide) (by decide) _ (by omega)]
  refine ⟨u, ?_, hfirst.trans (by decide +kernel), ?_, ?_⟩
  · have hseg : twoBlocks.writeSegment (threePages.getBlock 2 + 256) (List.take (256 - 256) [0]) (decide (256 < 258)) =
        .ok twoBlocks := by
      rw [Nat.sub_self, List.take_zero, writeSegment, if_pos rfl]
    have hrest : (((twoBlocks.allocated 4).fileTableWrite 4 MBFS_EOF).fileTableWrite 2 4).writeLoop 258 256 4 0 [0] 2 =
        .ok (1, u) := by
      rw [hgone]
      exact writeLoop_last (by decide) (by decide) hwrite
    exact writeLoop_next (by decide) (by decide) hseg (by decide) hfree hrest
  · rw [table_of_put hL hx.tabled (show 1 ≤ 4 by decide) hput 2 (by decide), htable 2 (by decide), if_pos rfl]
  · rw [hput 4 (by decide) (hx.live hL 4 (by decide)) 1 (by decide), put_of_le _ _ (by decide),
      hbytes 4 (by decide) (by decide) 1 (by decide)]
    decide +kernel

/-- One byte is written over the first one of the second block. The other byte of that block is lost. -/
theorem writeBuffer_cuts_off : twoBlocks.Stored 0x10118 258 [2, 3] ∧ 0x10118 ∉ [2, 3].flatMap threePages.entries ∧
    ∃ file' w, twoBlocks.writeBuffer openBlocks [0] = .ok (1, file', w) ∧
      ¬twoBlocks.Overwritten [2, 3] openBlocks [0] 1 file' w := by
  obtain ⟨u, hrun, hfirst, hnext, hbyte⟩ := twoBlocks_run
  have hold : firstBlockAt twoBlocks.flash 0x10118 = 2 := by decide +kernel
  refine ⟨twoBlocks_stored, by decide, { openBlocks with length := 258, seek := 257 }, u, ?_, fun h => ?_⟩
  · have hwalk : twoBlocks.seekBlock (firstBlockAt twoBlocks.flash openBlocks.dirent) openBlocks.seek openBlocks.seek =
        (2, 256) := by
      rw [show firstBlockAt twoBlocks.flash openBlocks.dirent = 2 from hold]
      rfl
    unfold writeBuffer
    rw [hwalk]
    change twoBlocks.writeLoop 258 256 2 256 [0] 3 >>= _ = _
    rw [hrun]
    rfl
  · have hlen : (twoBlocks.content 0x10118 258).length = 258 := by
      rw [twoBlocks_stored.content, List.length_take, bytesOf_length]
      rfl
    have hcontent : u.content 0x10118 258 = (twoBlocks.content 0x10118 258).splice 256 [0] := h.content
    have hlost : (u.content 0x10118 258).drop (256 + 1) = (twoBlocks.content 0x10118 258).drop (256 + 1) := by
      rw [hcontent, List.drop_splice (by rw [hlen]; decide) List.length_singleton]
    have hother : twoBlocks.flash (threePages.getBlock (twoBlocks.table 2) + 1) = 2 := by decide +kernel
    rw [content_last, content_last, hfirst, hnext, hbyte, hold, hother] at hlost
    nomatch hlost

end Volume

end CodalMicrobit

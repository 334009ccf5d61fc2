import CodalMicrobit.Lemmas.Recycle
import CodalMicrobit.Theorems.FreePage

/-!
# Recycling

What recycling is to keep, and when it does. A page is copied by way of another one. If that is one the file system uses, it
was not erased: what is dropped from a block in use is replaced by what is left there of older blocks. And if it is the page
that `getFreePage` noted, it had blocks in use.
-/

namespace CodalMicrobit

open Nor MicroBitFlash

namespace Volume

variable {L : Layout} {m m' m'' : Memory}

/-- What recycling keeps, with the directory block it is asked to recycle, if it is: the table but for deleted entries, the
blocks in use, and of the directory block the entries that are valid. -/
structure Kept (L : Layout) (dir : Option Nat) (m m' : Memory) : Prop where
  entries : ∀ e < 128 * L.fileSystemTableSize, L.getNextFileBlock m' e = L.getNextFileBlock m e ∨
    L.getNextFileBlock m e = MBFS_DELETED ∧ L.getNextFileBlock m' e = MBFS_UNUSED
  content : ∀ b < L.fileSystemSize, L.fileSystemTableSize ≤ b → ¬L.Reusable m b → dir ≠ some b →
    ∀ k < 256, m' (L.getBlock b + k) = m (L.getBlock b + k)
  directory : ∀ b < L.fileSystemSize, dir = some b → ¬L.Reusable m b → ∀ i < 10,
    (∀ k < 24, m' (L.getBlock b + 24 * i + k) = m (L.getBlock b + 24 * i + k)) ∨
      isValid m (L.getBlock b + 24 * i) = false ∧ ∀ k < 24, m' (L.getBlock b + 24 * i + k) = blank
  rest : ∀ b < L.fileSystemSize, dir = some b → ¬L.Reusable m b → ∀ k, 240 ≤ k → k < 256 →
    m' (L.getBlock b + k) = m (L.getBlock b + k) ∨ m' (L.getBlock b + k) = blank

theorem Kept.refl (L : Layout) (dir : Option Nat) (m : Memory) : Kept L dir m m :=
  ⟨fun _ _ => Or.inl rfl, fun _ _ _ _ _ _ _ => rfl, fun _ _ _ _ _ _ => Or.inl fun _ _ => rfl,
    fun _ _ _ _ _ _ _ => Or.inl rfl⟩

/-- What is in use stays in use, and nothing else comes to be. -/
theorem Kept.reusable_iff (hL : L.Sound) {dir : Option Nat} (h : Kept L dir m m') {b : Nat} (hb : b < L.fileSystemSize) :
    L.Reusable m' b ↔ L.Reusable m b := by
  unfold Layout.Reusable
  rcases h.entries b (hL.entry_lt hb) with he | ⟨he, he'⟩
  · rw [he]
  · rw [he, he']
    exact iff_of_true (Or.inl rfl) (Or.inr rfl)

/-- Recycling leaves the table's blocks marked as such. -/
theorem Kept.tabled (hL : L.Sound) {dir : Option Nat} (h : Kept L dir m m') (ht : Tabled L m) : Tabled L m' :=
  fun b hb hr => ht b hb ((h.reusable_iff hL (hb.trans hL.table_lt)).mp hr)

theorem Kept.trans (hL : L.Sound) {dir : Option Nat} (h : Kept L dir m m') (h' : Kept L dir m' m'') : Kept L dir m m'' := by
  have hlive : ∀ {b}, b < L.fileSystemSize → ¬L.Reusable m b → ¬L.Reusable m' b := fun hb hl hr =>
    hl ((h.reusable_iff hL hb).mp hr)
  refine ⟨fun e he => ?_, fun b hb ht hl hd k hk => ?_, fun b hb hd hl i hi => ?_, fun b hb hd hl k hk hk' => ?_⟩
  · rcases h.entries e he with h1 | ⟨h1, h1'⟩
    · rw [← h1]
      exact h'.entries e he
    · rcases h'.entries e he with h2 | ⟨h2, -⟩
      · exact Or.inr ⟨h1, h2.trans h1'⟩
      · rw [h1'] at h2
        nomatch h2
  · exact (h'.content b hb ht (hlive hb hl) hd k hk).trans (h.content b hb ht hl hd k hk)
  · rcases h'.directory b hb hd (hlive hb hl) i hi with h2 | ⟨h2, h2'⟩
    · rcases h.directory b hb hd hl i hi with h1 | ⟨h1, h1'⟩
      · exact Or.inl fun k hk => (h2 k hk).trans (h1 k hk)
      · exact Or.inr ⟨h1, fun k hk => (h2 k hk).trans (h1' k hk)⟩
    · rcases h.directory b hb hd hl i hi with h1 | ⟨h1, h1'⟩
      · exact Or.inr ⟨by rwa [isValid_congr h1] at h2, h2'⟩
      · exact Or.inr ⟨h1, h2'⟩
  · rcases h'.rest b hb hd (hlive hb hl) k hk hk' with h2 | h2
    · rw [h2]
      exact h.rest b hb hd hl k hk hk'
    · exact Or.inr h2

/-- The page at `scratch` as if it were in the place of each page. -/
def behind (m : Memory) (scratch : Nat) : Memory := fun x => m (scratch + x % MICROBIT_CODEPAGESIZE)

/-- What the scratch page holds does no harm in the place of what is dropped: a deleted entry of the table stays deleted or
becomes unused, an entry of the directory that is not valid stays as it is or is erased. -/
structure Fresh (L : Layout) (m : Memory) (block : Nat) (type : BlockType) (scratch : Nat) : Prop where
  entries : ∀ e < 128 * L.fileSystemTableSize, L.getPage (e / 128) = L.getPage block →
    L.getNextFileBlock m e = MBFS_DELETED → L.Reusable (behind m scratch) e
  directory : type = .DIRECTORY → ¬L.Reusable m block → ∀ i < 10, isValid m (L.getBlock block + 24 * i) = false →
    (∀ k < 24, behind m scratch (L.getBlock block + 24 * i + k) = m (L.getBlock block + 24 * i + k)) ∨
      ∀ k < 24, behind m scratch (L.getBlock block + 24 * i + k) = blank
  rest : type = .DIRECTORY → ¬L.Reusable m block → ∀ k, 240 ≤ k → k < 256 →
    behind m scratch (L.getBlock block + k) = m (L.getBlock block + k) ∨ behind m scratch (L.getBlock block + k) = blank

/-- The directory block that is recycled. -/
def recycledDir (block : Nat) (type : BlockType) : Option Nat := if type = .DIRECTORY then some block else none

/-- The directory that is recycled is the block given, if it is one. -/
theorem recycledDir_eq_some {block b : Nat} {type : BlockType} :
    recycledDir block type = some b ↔ b = block ∧ type = .DIRECTORY := by
  unfold recycledDir
  split
  · rename_i h
    rw [Option.some_inj, eq_comm]
    exact (and_iff_left h).symm
  · rename_i h
    exact iff_of_false nofun fun h' => h h'.2

/-! ## A page that was refreshed, block by block -/

section

variable {u w : Volume L} {scratch block : Nat} {type : BlockType} {b k : Nat}

/-- The block is on the scratch page. -/
theorem Refreshed.byte_erased (hL : L.Sound) {page : Nat} {c : Nat → Prop} (h : Refreshed u page scratch c w)
    (hb : L.getPage b = scratch) (hk : k < 256) : w.flash (L.getBlock b + k) = blank := by
  obtain ⟨-, h1, h2, -⟩ := page_bounds hL b hk
  rw [hb] at h1 h2
  exact h.erased _ h1 h2

/-- The block is on neither page. -/
theorem Refreshed.byte_outside (hL : L.Sound) {page : Nat} {c : Nat → Prop} (h : Refreshed u page scratch c w)
    (hp : page % MICROBIT_CODEPAGESIZE = 0) (hs : scratch % MICROBIT_CODEPAGESIZE = 0) (hb : b < L.fileSystemSize)
    (hbp : L.getPage b ≠ page) (hbs : L.getPage b ≠ scratch) (hk : k < 256) :
    w.flash (L.getBlock b + k) = u.flash (L.getBlock b + k) := by
  obtain ⟨h0, h1, h2, -⟩ := page_bounds hL b hk
  refine h.outside _ ?_ ?_ (getBlock_not_mem_scratch hL hb hk)
  · unfold MICROBIT_CODEPAGESIZE at *
    omega
  · unfold MICROBIT_CODEPAGESIZE at *
    omega

/-- What is kept of a block of the page. -/
theorem keeps_block_iff (hb : L.getPage b = L.getPage block) (hL : L.Sound) (hk : k < 256) :
    Keeps L m block type (16 * (block / 16)) (256 * (b % 16) + k) ↔ ¬L.Reusable m b ∧
      if b = block ∧ type = .DIRECTORY then k < 240 ∧ isValid m (L.getBlock b + 24 * (k / 24)) = true
      else b < L.fileSystemTableSize → readU16 m (L.getBlock b + 2 * (k / 2)) ≠ MBFS_DELETED := by
  have hdiv : b / 16 = block / 16 := by
    rw [hL.getPage_eq, hL.getPage_eq] at hb
    unfold Layout.getBlock MBFS_BLOCK_SIZE at hb
    omega
  have hfirst : 16 * (block / 16) + b % 16 = b := by omega
  have hmod := Nat.mod_lt b (show 0 < 16 by decide)
  rw [keeps_iff (i := b % 16) (by omega) (by omega), hfirst, Nat.add_sub_cancel_left]

variable (hL : L.Sound)
  (h : Refreshed u (L.getPage block) scratch (Keeps L u.flash block type (16 * (block / 16))) w)
include hL h

/-- A byte of the page that is kept. -/
theorem Refreshed.byte_kept (hb : L.getPage b = L.getPage block) (hbs : L.getPage b ≠ scratch) (hk : k < 256)
    (hkeep : Keeps L u.flash block type (16 * (block / 16)) (256 * (b % 16) + k)) :
    w.flash (L.getBlock b + k) = u.flash (L.getBlock b + k) := by
  obtain ⟨-, h1, h2, h3, -⟩ := page_bounds hL b hk
  rw [hb] at hbs h1 h2 h3
  have := h.kept hbs (256 * (b % 16) + k) (by omega) hkeep
  rwa [show L.getPage block + (256 * (b % 16) + k) = L.getBlock b + k by omega] at this

/-- A byte of the page that is dropped. -/
theorem Refreshed.byte_dropped (hb : L.getPage b = L.getPage block) (hbs : L.getPage b ≠ scratch) (hk : k < 256)
    (hkeep : ¬Keeps L u.flash block type (16 * (block / 16)) (256 * (b % 16) + k)) :
    w.flash (L.getBlock b + k) = behind u.flash scratch (L.getBlock b + k) := by
  obtain ⟨-, h1, h2, h3, h4⟩ := page_bounds hL b hk
  rw [hb] at hbs h1 h2 h3
  have := h.dropped hbs (256 * (b % 16) + k) (by omega) hkeep
  rw [show L.getPage block + (256 * (b % 16) + k) = L.getBlock b + k by omega] at this
  rw [this, behind, h4]

/-- A deleted entry of the table is dropped. -/
theorem Refreshed.entry_dropped (hdir : type = .DIRECTORY → L.fileSystemTableSize ≤ block) {e : Nat}
    (he : e < 128 * L.fileSystemTableSize) (hb : L.getPage (e / 128) = L.getPage block) (hbs : L.getPage (e / 128) ≠ scratch)
    (hdel : L.getNextFileBlock u.flash e = MBFS_DELETED) :
    L.getNextFileBlock w.flash e = L.getNextFileBlock (behind u.flash scratch) e := by
  have htb : e / 128 < L.fileSystemTableSize := by omega
  refine entry_congr fun j hj => h.byte_dropped hL hb hbs (by omega) fun hkeep => ?_
  have hnot : ¬(e / 128 = block ∧ type = .DIRECTORY) := fun h' => by
    have := hdir h'.2
    omega
  have hkeep := ((keeps_block_iff hb hL (by omega)).mp hkeep).2
  rw [if_neg hnot, show (2 * (e % 128) + j) / 2 = e % 128 by omega, ← entry_eq] at hkeep
  exact hkeep htb hdel

/-- A deleted entry of the directory is dropped. -/
theorem Refreshed.slot_dropped (hty : type = .DIRECTORY) (hbs : L.getPage block ≠ scratch) {i : Nat} (hi : i < 10)
    (hv : isValid u.flash (L.getBlock block + 24 * i) = false) (hk : k < 24) :
    w.flash (L.getBlock block + 24 * i + k) = behind u.flash scratch (L.getBlock block + 24 * i + k) := by
  rw [Nat.add_assoc]
  refine h.byte_dropped hL rfl hbs (by omega) fun hkeep => ?_
  have hkeep := ((keeps_block_iff rfl hL (by omega)).mp hkeep).2
  rw [if_pos ⟨rfl, hty⟩, show (24 * i + k) / 24 = i by omega, hv] at hkeep
  nomatch hkeep.2

/-- The bytes behind the last entry of the directory are dropped. -/
theorem Refreshed.rest_dropped (hty : type = .DIRECTORY) (hbs : L.getPage block ≠ scratch) (hk : 240 ≤ k) (hk' : k < 256) :
    w.flash (L.getBlock block + k) = behind u.flash scratch (L.getBlock block + k) :=
  h.byte_dropped hL rfl hbs hk' fun hkeep => by
    have hkeep := ((keeps_block_iff rfl hL hk').mp hkeep).2
    rw [if_pos ⟨rfl, hty⟩] at hkeep
    omega

/-- Where what the scratch page holds does no harm, everything is kept. -/
theorem Refreshed.keeps (hs : scratch % MICROBIT_CODEPAGESIZE = 0) (hblock : block < L.fileSystemSize)
    (hdir : type = .DIRECTORY → L.fileSystemTableSize ≤ block) (hq : Quiet L u.flash scratch) (ht : Tabled L u.flash)
    (hf : Fresh L u.flash block type scratch) : Kept L (recycledDir block type) u.flash w.flash := by
  have hp := (page_bounds hL block (show 0 < 256 by decide)).1
  -- a block in use on the scratch page was blank, and is blank
  have hscratch : ∀ {b k}, b < L.fileSystemSize → ¬L.Reusable u.flash b → L.getPage b = scratch → k < 256 →
      w.flash (L.getBlock b + k) = u.flash (L.getBlock b + k) := by
    intro b k hb hl hbs hk
    rw [h.byte_erased hL hbs hk, hq b hb hl hbs _ (Nat.le_add_right _ _) (by omega)]
  refine ⟨fun e he => ?_, fun b hb htb hl hd k hk => ?_, fun b hb hd hl i hi => ?_, fun b hb hd hl k hk hk' => ?_⟩
  · have htb : e / 128 < L.fileSystemTableSize := by omega
    have hb : e / 128 < L.fileSystemSize := htb.trans hL.table_lt
    by_cases hbs : L.getPage (e / 128) = scratch
    · exact Or.inl (entry_congr fun j hj => hscratch hb (ht _ htb) hbs (by omega))
    · by_cases hbp : L.getPage (e / 128) = L.getPage block
      · by_cases hdel : L.getNextFileBlock u.flash e = MBFS_DELETED
        · rw [h.entry_dropped hL hdir he hbp hbs hdel, hdel]
          exact (hf.entries e he hbp hdel).symm.imp_right fun h => ⟨rfl, h⟩
        · refine Or.inl (entry_congr fun j hj => h.byte_kept hL hbp hbs (by omega) ?_)
          rw [keeps_block_iff hbp hL (by omega), if_neg fun h' => by have := hdir h'.2; omega,
            show (2 * (e % 128) + j) / 2 = e % 128 by omega, ← entry_eq]
          exact ⟨ht _ htb, fun _ => hdel⟩
      · exact Or.inl (entry_congr fun j hj => h.byte_outside hL hp hs hb hbp hbs (by omega))
  · by_cases hbs : L.getPage b = scratch
    · exact hscratch hb hl hbs hk
    · by_cases hbp : L.getPage b = L.getPage block
      · refine h.byte_kept hL hbp hbs hk ?_
        rw [keeps_block_iff hbp hL hk, if_neg fun h' => hd (recycledDir_eq_some.mpr h')]
        exact ⟨hl, fun h' => by omega⟩
      · exact h.byte_outside hL hp hs hb hbp hbs hk
  · obtain ⟨rfl, hty⟩ := recycledDir_eq_some.mp hd
    by_cases hbs : L.getPage b = scratch
    · exact Or.inl fun k hk => by
        rw [Nat.add_assoc]
        exact hscratch hb hl hbs (by omega)
    · cases hv : isValid u.flash (L.getBlock b + 24 * i) with
      | true =>
        refine Or.inl fun k hk => ?_
        rw [Nat.add_assoc]
        refine h.byte_kept hL rfl hbs (by omega) ?_
        rw [keeps_block_iff rfl hL (by omega), if_pos ⟨rfl, hty⟩, show (24 * i + k) / 24 = i by omega]
        exact ⟨hl, by omega, hv⟩
      | false =>
        have hdrop := fun k hk => h.slot_dropped hL hty hbs hi hv (k := k) hk
        rcases hf.directory hty hl i hi hv with h' | h'
        · exact Or.inl fun k hk => (hdrop k hk).trans (h' k hk)
        · exact Or.inr ⟨rfl, fun k hk => (hdrop k hk).trans (h' k hk)⟩
  · obtain ⟨rfl, hty⟩ := recycledDir_eq_some.mp hd
    by_cases hbs : L.getPage b = scratch
    · exact Or.inr (h.byte_erased hL hbs hk')
    · rw [h.rest_dropped hL hty hbs hk hk']
      exact hf.rest hty hl k hk hk'

/-- Where everything is kept, what the scratch page held does no harm. -/
theorem Refreshed.fresh (hblock : block < L.fileSystemSize) (hdir : type = .DIRECTORY → L.fileSystemTableSize ≤ block)
    (hbs : L.getPage block ≠ scratch) (hk : Kept L (recycledDir block type) u.flash w.flash) :
    Fresh L u.flash block type scratch := by
  refine ⟨fun e he hbp hdel => ?_, fun hty hl i hi hv => ?_, fun hty hl k hk1 hk2 => ?_⟩
  · have hdrop := h.entry_dropped hL hdir he hbp (by rwa [hbp]) hdel
    rcases hk.entries e he with h' | ⟨-, h'⟩
    · exact Or.inr (hdrop.symm.trans (h'.trans hdel))
    · exact Or.inl (hdrop.symm.trans h')
  · have hdrop := fun k hk => h.slot_dropped hL hty hbs hi hv (k := k) hk
    rcases hk.directory block hblock (recycledDir_eq_some.mpr ⟨rfl, hty⟩) hl i hi with h' | ⟨-, h'⟩
    · exact Or.inl fun k hk => (hdrop k hk).symm.trans (h' k hk)
    · exact Or.inr fun k hk => (hdrop k hk).symm.trans (h' k hk)
  · rw [← h.rest_dropped hL hty hbs hk1 hk2]
    exact hk.rest block hblock (recycledDir_eq_some.mpr ⟨rfl, hty⟩) hl k hk1 hk2

end

/-! ## Recycling a block -/

variable {v u w : Volume L} {scratch block : Nat} {type : BlockType}

/-- The page that `getFreePage` gives is a place to copy to, and nothing is kept on it any more. -/
theorem Found.quiet (hL : L.Sound) (hlast : v.lastBlockAllocated < L.fileSystemSize) (h : v.Found scratch u) :
    scratch % MICROBIT_CODEPAGESIZE = 0 ∧
      (scratch = L.MICROBIT_DEFAULT_SCRATCH_PAGE → Blank u.flash scratch (scratch + MICROBIT_CODEPAGESIZE)) ∧
      Quiet L u.flash scratch ∧ u.lastBlockAllocated < L.fileSystemSize := by
  have hsize := hL.size_eq
  have hpage : ∀ k, L.getBlock (16 * k) % MICROBIT_CODEPAGESIZE = 0 := by
    have hal := hL.aligned
    intro k
    unfold Layout.getBlock MBFS_BLOCK_SIZE MICROBIT_CODEPAGESIZE at *
    omega
  have herased : ∀ p, Blank (MicroBitFlash.erasePage v.flash p) p (p + MICROBIT_CODEPAGESIZE) := fun p x hx hx' =>
    if_pos ⟨hx, hx'⟩
  have hquiet : ∀ p, Quiet L (MicroBitFlash.erasePage v.flash p) p := by
    intro p b _ _ hb x hx hx'
    obtain ⟨-, h1, h2, -⟩ := page_bounds hL b (show x - L.getBlock b < 256 by omega)
    rw [hb] at h1 h2
    exact herased p x (by omega) (by omega)
  cases h with
  | empty p hp =>
    obtain ⟨k, hk, -, rfl, he⟩ := of_emptyPage hL hlast hp
    refine ⟨hpage k, fun h => absurd h.symm (scratch_ne_getBlock hL (by omega)), fun b hb hl hbp => ?_, ?_⟩
    · rw [hL.getPage_eq] at hbp
      have hbk := getBlock_inj hbp
      have := he (b % 16) (Nat.mod_lt _ (by decide))
      rw [show 16 * k + b % 16 = b by omega] at this
      exact absurd hl this
    · change 16 * k < _
      omega
  | noted p _ hp =>
    obtain ⟨k, hk, -, -, rfl, -⟩ := of_notedPage hL hlast hp
    exact ⟨hpage k, fun _ => herased _, hquiet _, hlast⟩
  | none _ _ => exact ⟨hL.scratch, fun _ => herased _, hquiet _, hlast⟩

/-- `recycleBlock` comes back, and the page it was asked for is refreshed if the table is in use. -/
theorem recycleBlock_run (hL : L.Sound) (hlast : v.lastBlockAllocated < L.fileSystemSize) (hblock : block < L.fileSystemSize)
    (type : BlockType) :
    ∃ scratch u w, (v.note (.recycling block v.flash)).Found scratch u ∧ v.recycleBlock block type = .ok w ∧
      w.lastBlockAllocated = u.lastBlockAllocated ∧ w.lastBlockAllocated < L.fileSystemSize ∧
      Blank w.flash scratch (scratch + MICROBIT_CODEPAGESIZE) ∧
      (Tabled L u.flash →
        Refreshed u (L.getPage block) scratch (Keeps L u.flash block type (16 * (block / 16))) w) := by
  have hsize := hL.size_eq
  obtain ⟨scratch, u, hrun, hf⟩ := getFreePage_found hL (v.note (.recycling block v.flash)) hlast
  obtain ⟨hs, hblank, hq, hulast⟩ := Found.quiet (v := v.note (.recycling block v.flash)) hL hlast hf
  have hsame : ((List.range blocksPerPage).foldl (copyBlock block type (16 * (block / 16)) scratch) u).lastBlockAllocated =
      u.lastBlockAllocated :=
    foldl_same (p := lastBlockAllocated) (copyBlock_same (fun _ _ _ => rfl) block type _ _) _ _
  refine ⟨scratch, u, _, hf, ?_, ?_, ?_, putBack_blank
    ((List.range blocksPerPage).foldl (copyBlock block type (16 * (block / 16)) scratch) u) (L.getPage block) scratch,
    fun ht => ?_⟩
  · unfold recycleBlock
    dsimp only
    rw [hrun, hL.pageNumber hblock]
    rfl
  · rw [putBack_last]
    exact hsame
  · rw [putBack_last, hsame]
    exact hulast
  · have hp : CopyPlaces L u.flash (L.getPage block) scratch :=
      ⟨(page_bounds hL block (show 0 < 256 by decide)).1, hs, by
        rw [hL.getPage_eq]
        exact (scratch_ne_getBlock hL (by omega)).symm, hblank⟩
    rw [hL.getPage_eq] at hp ⊢
    refine Copied.putBack hL hp ?_
    refine (copyPage hL hp hq ht (by omega) (by omega) 16 (Nat.le_refl _)).congr fun k hk => ?_
    unfold MICROBIT_CODEPAGESIZE at hk
    exact and_iff_right (by omega)

/-- A memory each block of which is as before or as in a memory where everything is kept. -/
theorem Kept.of_blocks (hL : L.Sound) {dir : Option Nat} (h : Kept L dir m m'')
    (hblocks : ∀ b < L.fileSystemSize, (∀ k < 256, m' (L.getBlock b + k) = m (L.getBlock b + k)) ∨
      ∀ k < 256, m' (L.getBlock b + k) = m'' (L.getBlock b + k)) : Kept L dir m m' := by
  refine ⟨fun e he => ?_, fun b hb ht hl hd k hk => ?_, fun b hb hd hl i hi => ?_, fun b hb hd hl k hk hk' => ?_⟩
  · have htb : e / 128 < L.fileSystemTableSize := by omega
    rcases hblocks _ (htb.trans hL.table_lt) with h1 | h1
    · exact Or.inl (entry_congr fun j hj => h1 _ (by omega))
    · rw [show L.getNextFileBlock m' e = L.getNextFileBlock m'' e from entry_congr fun j hj => h1 _ (by omega)]
      exact h.entries e he
  · rcases hblocks b hb with h1 | h1
    · exact h1 k hk
    · exact (h1 k hk).trans (h.content b hb ht hl hd k hk)
  · rcases hblocks b hb with h1 | h1
    · exact Or.inl fun k hk => by
        rw [Nat.add_assoc]
        exact h1 _ (by omega)
    · have hsame : ∀ k < 24, m' (L.getBlock b + 24 * i + k) = m'' (L.getBlock b + 24 * i + k) := fun k hk => by
        rw [Nat.add_assoc]
        exact h1 _ (by omega)
      rcases h.directory b hb hd hl i hi with h2 | ⟨hv, h2⟩
      · exact Or.inl fun k hk => (hsame k hk).trans (h2 k hk)
      · exact Or.inr ⟨hv, fun k hk => (hsame k hk).trans (h2 k hk)⟩
  · rcases hblocks b hb with h1 | h1
    · exact Or.inl (h1 k hk')
    · rw [h1 k hk']
      exact h.rest b hb hd hl k hk hk'

/-- An erased page does no harm. -/
theorem fresh_of_blank (h : Blank m scratch (scratch + MICROBIT_CODEPAGESIZE)) (block : Nat) (type : BlockType) :
    Fresh L m block type scratch := by
  have hblank : ∀ x, behind m scratch x = blank := fun x => by
    have hmod := Nat.mod_lt x (show 0 < MICROBIT_CODEPAGESIZE by decide)
    exact h _ (Nat.le_add_right _ _) (by omega)
  exact ⟨fun e _ _ _ => reusable_of_blank fun x _ _ => hblank x, fun _ _ _ _ _ => Or.inr fun k _ => hblank _,
    fun _ _ _ _ _ => Or.inr (hblank _)⟩

/-- Nor does a page without a block in use, if it is the page to be recycled. -/
theorem fresh_of_page (hL : L.Sound) (ht : Tabled L m) (hblock : block < L.fileSystemSize) (hq : ∀ b < L.fileSystemSize,
    L.getPage b = L.getPage block → L.Reusable m b) (type : BlockType) : Fresh L m block type scratch := by
  refine ⟨fun e he hb _ => ?_, fun _ hl => absurd (hq block hblock rfl) hl, fun _ hl => absurd (hq block hblock rfl) hl⟩
  have htb : e / 128 < L.fileSystemTableSize := by omega
  exact absurd (hq _ (htb.trans hL.table_lt) hb) (ht _ htb)

/-- When recycling a block keeps everything, by the page that `getFreePage` will give: one without a block in use must hold
nothing that does harm, and the one that was noted nothing that is in use. -/
def Refreshable (v : Volume L) (block : Nat) (type : BlockType) : Prop :=
  match v.emptyPage, v.notedPage with
  | some p, _ => Fresh L v.flash block type (L.getBlock p)
  | none, some p => Kept L (recycledDir block type) v.flash (MicroBitFlash.erasePage v.flash (L.getBlock p))
  | none, none => True

/-- The blocks of the file system when a page is erased. -/
theorem erasePage_blocks (hL : L.Sound) (m : Memory) {p : Nat} (hp : p % MICROBIT_CODEPAGESIZE = 0) (b : Nat) :
    (L.getPage b ≠ p ∧ ∀ k < 256, MicroBitFlash.erasePage m p (L.getBlock b + k) = m (L.getBlock b + k)) ∨
      L.getPage b = p ∧ ∀ k < 256, MicroBitFlash.erasePage m p (L.getBlock b + k) = blank := by
  by_cases hb : L.getPage b = p
  · refine Or.inr ⟨hb, fun k hk => if_pos ?_⟩
    obtain ⟨-, h1, h2, -⟩ := page_bounds hL b hk
    rw [hb] at h1 h2
    exact ⟨h1, h2⟩
  · refine Or.inl ⟨hb, fun k hk => if_neg ?_⟩
    obtain ⟨h0, h1, h2, -⟩ := page_bounds hL b hk
    unfold MICROBIT_CODEPAGESIZE at *
    omega

/-- Recycling a block. -/
theorem recycleBlock_kept_iff (hL : L.Sound) (hlast : v.lastBlockAllocated < L.fileSystemSize) (ht : Tabled L v.flash)
    (hblock : block < L.fileSystemSize) (hdir : type = .DIRECTORY → L.fileSystemTableSize ≤ block) :
    (∃ w, v.recycleBlock block type = .ok w ∧ Kept L (recycledDir block type) v.flash w.flash) ↔
      v.Refreshable block type := by
  have hsize := hL.size_eq
  obtain ⟨scratch, u, w, hf, hrun, -, -, hblank, href⟩ := recycleBlock_run hL hlast hblock type
  obtain ⟨hs, -, hq, -⟩ := Found.quiet (v := v.note (.recycling block v.flash)) hL hlast hf
  have hw : (∃ w, v.recycleBlock block type = .ok w ∧ Kept L (recycledDir block type) v.flash w.flash) ↔
      Kept L (recycledDir block type) v.flash w.flash := by
    refine ⟨?_, fun h => ⟨w, hrun, h⟩⟩
    rintro ⟨w', hrun', h⟩
    rw [hrun] at hrun'
    cases hrun'
    exact h
  rw [hw]
  unfold Refreshable
  cases hf with
  | empty p hp =>
    have hp' : v.emptyPage = some p := hp
    have href := href ht
    rw [hp']
    refine ⟨fun hk => ?_, fun h => (href.keeps hL hs hblock hdir hq ht h :)⟩
    by_cases hbs : L.getPage block = L.getBlock p
    · refine fresh_of_page hL ht hblock (fun b hb hbp => ?_) type
      obtain ⟨k, hk', -, rfl, he⟩ := of_emptyPage hL hlast hp
      rw [hbs, hL.getPage_eq] at hbp
      have hbk := getBlock_inj hbp
      have := he (b % 16) (Nat.mod_lt _ (by decide))
      rw [show 16 * k + b % 16 = b by omega] at this
      exact not_not.mp this
    · exact (href.fresh hL hblock hdir hbs hk :)
  | noted p hnone hp =>
    have hnone' : v.emptyPage = none := hnone
    have hp' : v.notedPage = some p := hp
    rw [hnone', hp']
    have hblocks := erasePage_blocks hL v.flash hs
    refine ⟨fun hk => hk.of_blocks hL fun b _ => ?_, fun hk => ?_⟩
    · rcases hblocks b with ⟨-, h⟩ | ⟨hb, h⟩
      · exact Or.inl h
      · refine Or.inr fun k hk => ?_
        obtain ⟨-, h1, h2, -⟩ := page_bounds hL b hk
        rw [hb] at h1 h2
        rw [h k hk, hblank _ h1 h2]
    · have ht' := hk.tabled hL ht
      exact hk.trans hL ((href ht').keeps hL hs hblock hdir hq ht'
        (fresh_of_blank (fun x hx hx' => if_pos ⟨hx, hx'⟩) block type))
  | none hnone hp =>
    have hnone' : v.emptyPage = none := hnone
    have hp' : v.notedPage = none := hp
    rw [hnone', hp']
    refine iff_of_true ?_ trivial
    have hk : Kept L (recycledDir block type) v.flash (MicroBitFlash.erasePage v.flash L.MICROBIT_DEFAULT_SCRATCH_PAGE) := by
      refine (Kept.refl L _ v.flash).of_blocks hL fun b hb => ?_
      rcases erasePage_blocks hL v.flash hs b with ⟨-, h⟩ | ⟨h, -⟩
      · exact Or.inl h
      · rw [hL.getPage_eq] at h
        exact absurd h.symm (scratch_ne_getBlock hL (by omega))
    have ht' := hk.tabled hL ht
    exact hk.trans hL ((href ht').keeps hL hs hblock hdir hq ht'
      (fresh_of_blank (fun x hx hx' => if_pos ⟨hx, hx'⟩) block type))

end Volume

end CodalMicrobit

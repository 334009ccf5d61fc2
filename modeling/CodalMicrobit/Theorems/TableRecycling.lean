import CodalMicrobit.Theorems.Recycling

/-!
# Recycling the file table

`recycleFileTable` refreshes one page after the other, with a new scratch page each time. It keeps everything if there are
always pages to use for that: two without a block in use, or no page that could be noted, and on those pages nothing is left
where the table has its blocks.
-/

namespace CodalMicrobit

open Nor Outcome

namespace Volume

variable {L : Layout} {v u w : Volume L} {scratch block : Nat}

/-- The condition. It holds before and after each page. -/
structure Steady (v : Volume L) : Prop where
  last : v.lastBlockAllocated < L.fileSystemSize
  tabled : Tabled L v.flash
  room : (∃ j < L.pages, ∃ k < L.pages, j ≠ k ∧ v.Empty (16 * j) ∧ v.Empty (16 * k)) ∨
    ∀ k < L.pages, k ≠ 0 → v.Recyclable (16 * k) → v.Empty (16 * k)
  clean : ∀ k < L.pages, v.Empty (16 * k) → ∀ b < L.fileSystemTableSize, ∀ j < 256,
    v.flash (L.getBlock (16 * k + b % 16) + j) = blank

/-- Recycling the table leaves the same pages empty. -/
theorem Kept.empty_iff (hL : L.Sound) (h : Kept L none v.flash w.flash) {k : Nat} (hk : k < L.pages) :
    w.Empty (16 * k) ↔ v.Empty (16 * k) := by
  have hsize := hL.size_eq
  refine forall₂_congr fun i hi => not_congr (not_congr (h.reusable_iff hL ?_))
  rw [blocksPerPage_eq] at hi
  omega

/-- A page that can be recycled afterwards could be before. -/
theorem Kept.of_recyclable (hL : L.Sound) (h : Kept L none v.flash w.flash) {k : Nat} (hk : k < L.pages)
    (hr : w.Recyclable (16 * k)) : v.Recyclable (16 * k) := by
  have hsize := hL.size_eq
  obtain ⟨i, hi, hd, hbefore⟩ := hr
  have hi' : i < 16 := hi
  refine ⟨i, hi, ?_, fun j hj hl => hbefore j hj fun hr => hl ((h.reusable_iff hL (by omega)).mp hr)⟩
  rcases h.entries _ (hL.entry_lt (show 16 * k + i < L.fileSystemSize by omega)) with he | ⟨he, -⟩
  · exact he.symm.trans hd
  · exact he

/-- What `getFreePage` gives in such a state: a page without a block in use or the default scratch page, with nothing where the
table has its blocks. -/
theorem Found.steady (hL : L.Sound) (hv : v.Steady) (h : v.Found scratch u) :
    (∀ b < L.fileSystemSize, ∀ k < 256, u.flash (L.getBlock b + k) = v.flash (L.getBlock b + k)) ∧
      (∀ b < L.fileSystemTableSize, L.getPage b ≠ scratch) ∧
      ∀ b, b % 16 < L.fileSystemTableSize → ∀ j < 256, behind u.flash scratch (L.getBlock b + j) = blank := by
  have hsize := hL.size_eq
  have hlast := hv.last
  cases h with
  | empty p hp =>
    obtain ⟨k, hk, -, rfl, he⟩ := of_emptyPage hL hlast hp
    refine ⟨fun _ _ _ _ => rfl, fun b hb hbp => ?_, fun b hb j hj => ?_⟩
    · rw [hL.getPage_eq] at hbp
      have hbk := getBlock_inj hbp
      have := he (b % 16) (Nat.mod_lt _ (by decide))
      rw [show 16 * k + b % 16 = b by omega] at this
      exact this (hv.tabled b hb)
    · obtain ⟨-, -, -, -, h4⟩ := page_bounds hL b hj
      have := hv.clean k hk he (b % 16) hb j hj
      rw [getBlock_add, Nat.mod_mod] at this
      unfold behind
      rwa [h4, ← Nat.add_assoc]
  | noted p hnone hp =>
    exfalso
    have hall := (emptyPage_eq_none hL hlast).mp hnone
    obtain ⟨k, hk, hne, h0, rfl, hr⟩ := of_notedPage hL hlast hp
    rcases hv.room with ⟨i, hi, j, hj, hij, hei, hej⟩ | hroom
    · by_cases hic : i = v.lastBlockAllocated / 16
      · exact hall j hj (fun hjc => hij (hic.trans hjc.symm)) hej
      · exact hall i hi hic hei
    · exact hall k hk hne (hroom k hk h0 hr)
  | none _ _ =>
    have hblocks := erasePage_blocks hL v.flash hL.scratch
    have hne : ∀ b < L.fileSystemSize, L.getPage b ≠ L.MICROBIT_DEFAULT_SCRATCH_PAGE := fun b hb h => by
      rw [hL.getPage_eq] at h
      exact scratch_ne_getBlock hL (by omega) h.symm
    refine ⟨fun b hb => ?_, fun b hb => hne b (hb.trans hL.table_lt), fun b _ j _ => if_pos ?_⟩
    · rcases hblocks b with ⟨-, h⟩ | ⟨h, -⟩
      · exact h
      · exact absurd h (hne b hb)
    · have hmod := Nat.mod_lt (L.getBlock b + j) (show 0 < MICROBIT_CODEPAGESIZE by decide)
      exact ⟨Nat.le_add_right _ _, by omega⟩

/-- One page. -/
theorem recycleBlock_steady (hL : L.Sound) (hv : v.Steady) (hblock : block < L.fileSystemSize) :
    ∃ w, v.recycleBlock block = .ok w ∧ Kept L none v.flash w.flash ∧ w.Steady ∧
      ∀ e < 128 * L.fileSystemTableSize, L.getPage (e / 128) = L.getPage block →
        L.getNextFileBlock w.flash e ≠ MBFS_DELETED := by
  have hsize := hL.size_eq
  obtain ⟨scratch, u, w, hf, hrun, -, hwlast, -, href⟩ := recycleBlock_run hL hv.last hblock .FILE
  obtain ⟨hs, -, hq, -⟩ := Found.quiet (v := v.note (.recycling block v.flash)) hL hv.last hf
  obtain ⟨hsame, hapart, hclean⟩ := Found.steady (v := v.note (.recycling block v.flash)) hL
    ⟨hv.last, hv.tabled, hv.room, hv.clean⟩ hf
  have hvu : Kept L none v.flash u.flash := (Kept.refl L none v.flash).of_blocks hL fun b hb => Or.inl (hsame b hb)
  have ht := hvu.tabled hL hv.tabled
  have href := href ht
  have hp := (page_bounds hL block (show 0 < 256 by decide)).1
  -- what is in the place of a dropped entry of the table is blank
  have hentry : ∀ e < 128 * L.fileSystemTableSize, L.getNextFileBlock (behind u.flash scratch) e = MBFS_UNUSED := by
    intro e he
    have htb : e / 128 < L.fileSystemTableSize := by omega
    have hblank := hclean (e / 128) (by omega)
    rw [entry_eq]
    unfold readU16
    rw [hblank _ (by omega), Nat.add_assoc, hblank _ (by omega)]
    rfl
  have hfresh : Fresh L u.flash block .FILE scratch := ⟨fun e he _ _ => Or.inl (hentry e he), nofun, nofun⟩
  have huw : Kept L none u.flash w.flash := href.keeps hL hs hblock nofun hq ht hfresh
  have hkept := hvu.trans hL huw
  refine ⟨w, hrun, hkept, ?_, fun e he hb hdel => ?_⟩
  · refine ⟨hwlast, hkept.tabled hL hv.tabled, ?_, fun k hk he b hb j hj => ?_⟩
    · rcases hv.room with ⟨i, hi, j, hj, hij, hei, hej⟩ | hroom
      · exact Or.inl ⟨i, hi, j, hj, hij, (hkept.empty_iff hL hi).mpr hei, (hkept.empty_iff hL hj).mpr hej⟩
      · exact Or.inr fun k hk h0 hr => (hkept.empty_iff hL hk).mpr (hroom k hk h0 (hkept.of_recyclable hL hk hr))
    · have he := (hkept.empty_iff hL hk).mp he
      have hlt : 16 * k + b % 16 < L.fileSystemSize := by omega
      by_cases hbs : L.getPage (16 * k + b % 16) = scratch
      · exact href.byte_erased hL hbs hj
      · by_cases hbp : L.getPage (16 * k + b % 16) = L.getPage block
        · rw [href.byte_dropped hL hbp hbs hj fun hkeep => ?_]
          · exact hclean _ (by omega) j hj
          · have hlive := ((keeps_block_iff hbp hL hj).mp hkeep).1
            refine hlive ((hvu.reusable_iff hL hlt).mpr (not_not.mp (he (b % 16) (Nat.mod_lt _ (by decide)))))
        · rw [href.byte_outside hL hp hs hlt hbp hbs hj, hsame _ hlt j hj]
          exact hv.clean k hk he b hb j hj
  · have htb : e / 128 < L.fileSystemTableSize := by omega
    by_cases hu : L.getNextFileBlock u.flash e = MBFS_DELETED
    · rw [href.entry_dropped hL nofun he hb (hapart _ htb) hu, hentry e he] at hdel
      nomatch hdel
    · rcases huw.entries e he with h | ⟨h, -⟩
      · exact hu (h.symm.trans hdel)
      · exact hu h

/-! ## The pages of a run -/

section

variable {A : Volume L → Nat → Prop} {I : Volume L → Prop} {D : Nat → Volume L → Prop} {R : Volume L → Volume L → Prop}

/-- At each page that the first loop of `recycleFileTable` refreshes, `A` holds of the volume and the block. -/
def DeletedSteps (A : Volume L → Nat → Prop) (v : Volume L) (pageRecycled : Bool) : List Nat → Prop
  | [] => True
  | block :: blocks =>
    let pageRecycled := if block % blocksPerPage = 0 then false else pageRecycled
    if v.table block = MBFS_DELETED ∧ pageRecycled = false then
      A v block ∧ ∀ w, v.recycleBlock block = .ok w → DeletedSteps A w true blocks
    else DeletedSteps A v pageRecycled blocks

/-- The same for the second loop. -/
inductive TableSteps (A : Volume L → Nat → Prop) : Volume L → List Nat → Prop where
  | nil (v : Volume L) : TableSteps A v []
  | cons {v : Volume L} {block : Nat} {blocks : List Nat} (ha : A v block)
      (hnext : ∀ w, v.recycleBlock block = .ok w → TableSteps A w blocks) : TableSteps A v (block :: blocks)

/-- The same for `recycleFileTable`. -/
structure Steps (A : Volume L → Nat → Prop) (v : Volume L) : Prop where
  deleted : DeletedSteps A v false (List.range L.fileSystemSize)
  table : ∀ w, v.recycleDeleted false (List.range L.fileSystemSize) = .ok w → TableSteps A w (tablePages L)

/-- The steps of the second loop, one after the other. -/
theorem tableSteps_cons_iff {v u : Volume L} {block : Nat} {blocks : List Nat} (hu : v.recycleBlock block = .ok u) :
    TableSteps A v (block :: blocks) ↔ A v block ∧ TableSteps A u blocks := by
  refine ⟨fun h => ?_, fun h => .cons h.1 ((forall_ok_iff hu).mpr h.2)⟩
  obtain _ | ⟨ha, hnext⟩ := h
  exact ⟨ha, hnext u hu⟩

/-- What holds of every step holds of the steps taken. -/
theorem steps_of_forall (h : ∀ v b, A v b) (v : Volume L) : Steps A v := by
  have hdeleted : ∀ (blocks : List Nat) (v : Volume L) (pageRecycled : Bool), DeletedSteps A v pageRecycled blocks := by
    intro blocks
    induction blocks with
    | nil => exact fun _ _ => trivial
    | cons block blocks ih =>
      intro v pageRecycled
      unfold DeletedSteps
      generalize (if block % blocksPerPage = 0 then false else pageRecycled) = recycled
      dsimp only
      split
      · exact ⟨h v block, fun w _ => ih w true⟩
      · exact ih v recycled
  have htable : ∀ (blocks : List Nat) (v : Volume L), TableSteps A v blocks := by
    intro blocks
    induction blocks with
    | nil => exact fun v => .nil v
    | cons block blocks ih => exact fun v => .cons (h v block) fun w _ => ih w
  exact ⟨hdeleted _ v false, fun w _ => htable _ w⟩

/-- The loop over the blocks: what holds from each step to the next holds from the start to the end. -/
theorem recycleDeleted_run (hrefl : ∀ v, R v v) (htrans : ∀ {u v w}, R u v → R v w → R u w)
    (hI : ∀ v block, I v → block < L.fileSystemSize → A v block → ∃ w, v.recycleBlock block = .ok w ∧ R v w ∧ I w)
    (blocks : List Nat) : ∀ (v : Volume L) (pageRecycled : Bool), I v → (∀ b ∈ blocks, b < L.fileSystemSize) →
      DeletedSteps A v pageRecycled blocks → ∃ w, v.recycleDeleted pageRecycled blocks = .ok w ∧ R v w ∧ I w := by
  induction blocks with
  | nil => exact fun v _ hv _ _ => ⟨v, rfl, hrefl v, hv⟩
  | cons block blocks ih =>
    intro v pageRecycled hv hlt hsteps
    rw [List.forall_mem_cons] at hlt
    unfold DeletedSteps at hsteps
    unfold recycleDeleted
    generalize (if block % blocksPerPage = 0 then false else pageRecycled) = recycled at hsteps ⊢
    dsimp only at hsteps ⊢
    by_cases hc : v.table block = MBFS_DELETED ∧ recycled = false
    · rw [if_pos hc] at hsteps ⊢
      obtain ⟨u, hu, hk, hs⟩ := hI v block hv hlt.1 hsteps.1
      obtain ⟨w, hw, hk', hs'⟩ := ih u true hs hlt.2 (hsteps.2 u hu)
      rw [hu]
      exact ⟨w, hw, htrans hk hk', hs'⟩
    · rw [if_neg hc] at hsteps ⊢
      exact ih v recycled hv hlt.2 hsteps

/-- The loop over the pages of the table. What is done for one of them, later ones leave. -/
theorem recycleTable_run (hrefl : ∀ v, R v v) (htrans : ∀ {u v w}, R u v → R v w → R u w)
    (hI : ∀ v block, I v → block < L.fileSystemSize → A v block →
      ∃ w, v.recycleBlock block = .ok w ∧ R v w ∧ I w ∧ D block w)
    (hD : ∀ {block v w}, D block v → R v w → D block w) (blocks : List Nat) :
    ∀ v : Volume L, I v → (∀ b ∈ blocks, b < L.fileSystemSize) → TableSteps A v blocks →
      ∃ w, v.recycleTable blocks = .ok w ∧ R v w ∧ I w ∧ ∀ b ∈ blocks, D b w := by
  induction blocks with
  | nil => exact fun v hv _ _ => ⟨v, rfl, hrefl v, hv, nofun⟩
  | cons block blocks ih =>
    intro v hv hlt hsteps
    rw [List.forall_mem_cons] at hlt
    obtain _ | ⟨ha, hnext⟩ := hsteps
    obtain ⟨u, hu, hk, hs, hd⟩ := hI v block hv hlt.1 ha
    obtain ⟨w, hw, hk', hs', hd'⟩ := ih u hs hlt.2 (hnext u hu)
    refine ⟨w, ?_, htrans hk hk', hs', List.forall_mem_cons.mpr ⟨hD hd hk', hd'⟩⟩
    unfold recycleTable
    rw [hu]
    exact hw

end

/-- The pages that are refreshed in the end are those of the table. -/
theorem mem_tablePages (hL : L.Sound) :
    (∀ p ∈ tablePages L, p < L.fileSystemSize) ∧ ∀ b < L.fileSystemTableSize, 16 * (b / 16) ∈ tablePages L := by
  have hlt := hL.size_lt
  have htable := hL.table_lt
  obtain ⟨n, hn, htake, hall, hend⟩ := takeWhile_range (fun j => decide (L.getPage (j * blocksPerPage) < L.rootDirectory))
    (2 ^ 16 / blocksPerPage)
  have hpages : tablePages L = (List.range n).map (· * blocksPerPage) := by
    unfold tablePages
    rw [List.takeWhile_map]
    exact congrArg _ htake
  have hroot : ∀ j, L.getPage (j * blocksPerPage) < L.rootDirectory ↔ 16 * j < L.fileSystemTableSize := by
    intro j
    rw [blocksPerPage_eq, hL.getPage_eq, hL.root]
    unfold Layout.getBlock MBFS_BLOCK_SIZE
    omega
  rw [hpages]
  refine ⟨fun p hp => ?_, fun b hb => ?_⟩
  · obtain ⟨j, hj, rfl⟩ := List.mem_map.mp hp
    have := (hroot j).mp (of_decide_eq_true (hall j (List.mem_range.mp hj)))
    rw [blocksPerPage_eq]
    omega
  · refine List.mem_map.mpr ⟨b / 16, List.mem_range.mpr ?_, Nat.mul_comm _ _⟩
    by_contra hnb
    rcases hend with rfl | hend
    · rw [blocksPerPage_eq] at hnb
      omega
    · have := (hroot n).not.mp (of_decide_eq_false hend)
      omega

/-- The whole of `recycleFileTable`. -/
theorem recycleFileTable_run {A : Volume L → Nat → Prop} {I : Volume L → Prop} {D : Nat → Volume L → Prop}
    {R : Volume L → Volume L → Prop} (hL : L.Sound) (hrefl : ∀ v, R v v) (htrans : ∀ {u v w}, R u v → R v w → R u w)
    (hI : ∀ v block, I v → block < L.fileSystemSize → A v block →
      ∃ w, v.recycleBlock block = .ok w ∧ R v w ∧ I w ∧ D block w)
    (hD : ∀ {block v w}, D block v → R v w → D block w) (hv : I v) (hsteps : v.Steps A) :
    ∃ w, v.recycleFileTable = .ok w ∧ R v w ∧ I w ∧ ∀ b ∈ tablePages L, D b w := by
  obtain ⟨u, hu, hk, hs⟩ := recycleDeleted_run hrefl htrans
    (fun v block hv hb ha => by
      obtain ⟨w, hw, hk, hs, -⟩ := hI v block hv hb ha
      exact ⟨w, hw, hk, hs⟩)
    (List.range L.fileSystemSize) v false hv (fun b hb => List.mem_range.mp hb) hsteps.deleted
  have htable := hsteps.table u hu
  have hlt := (mem_tablePages hL).1
  unfold recycleFileTable
  generalize tablePages L = pages at htable hlt ⊢
  obtain ⟨w, hw, hk', hs', hd⟩ := recycleTable_run hrefl htrans hI hD pages u hs hlt htable
  rw [hu]
  exact ⟨w, hw, htrans hk hk', hs', hd⟩

/-- It always comes back. -/
theorem recycleFileTable_total (hL : L.Sound) (hlast : v.lastBlockAllocated < L.fileSystemSize) :
    ∃ w, v.recycleFileTable = .ok w := by
  obtain ⟨w, hw, -⟩ := recycleFileTable_run (A := fun _ _ => True) (D := fun _ _ => True) (R := fun _ _ => True)
    (I := fun u => u.lastBlockAllocated < L.fileSystemSize) hL (fun _ => trivial) (fun _ _ => trivial)
    (fun u block hu hb _ => by
      obtain ⟨-, -, w, -, hw, -, hwlast, -⟩ := recycleBlock_run hL hu hb .FILE
      exact ⟨w, hw, trivial, hwlast, trivial⟩)
    (fun _ _ => trivial) hlast (steps_of_forall (fun _ _ => trivial) v)
  exact ⟨w, hw⟩

/-- From a steady state everything is kept, and every deleted entry becomes an unused one. -/
theorem recycleFileTable_steady (hL : L.Sound) (hv : v.Steady) :
    ∃ w, v.recycleFileTable = .ok w ∧ Kept L none v.flash w.flash ∧ w.Steady ∧
      ∀ e < 128 * L.fileSystemTableSize, L.getNextFileBlock w.flash e ≠ MBFS_DELETED := by
  obtain ⟨w, hw, hk, hs, hgone⟩ := recycleFileTable_run (A := fun _ _ => True) (I := Steady)
    (R := fun v w => Kept L none v.flash w.flash)
    (D := fun block w => ∀ e < 128 * L.fileSystemTableSize, L.getPage (e / 128) = L.getPage block →
      L.getNextFileBlock w.flash e ≠ MBFS_DELETED)
    hL (fun v => Kept.refl L none v.flash) (fun h h' => h.trans hL h') (fun v block hv hb _ => recycleBlock_steady hL hv hb)
    (fun {block v w} hd hk e he hp hdel => by
      rcases hk.entries e he with h | ⟨h, -⟩
      · exact hd e he hp (h.symm.trans hdel)
      · exact hd e he hp h)
    hv (steps_of_forall (fun _ _ => trivial) v)
  exact ⟨w, hw, hk, hs, fun e he => hgone _ ((mem_tablePages hL).2 (e / 128) (by omega)) e he (hL.getPage_first _).symm⟩

/-- Where each page can be refreshed without loss when it is its turn, everything is kept. -/
theorem recycleFileTable_kept (hL : L.Sound) (hlast : v.lastBlockAllocated < L.fileSystemSize) (ht : Tabled L v.flash)
    (hsteps : v.Steps fun u block => u.Refreshable block .FILE) :
    ∃ w, v.recycleFileTable = .ok w ∧ Kept L none v.flash w.flash := by
  obtain ⟨w, hw, hk, -⟩ := recycleFileTable_run
    (I := fun u => u.lastBlockAllocated < L.fileSystemSize ∧ Tabled L u.flash) (D := fun _ _ => True)
    (R := fun v w => Kept L none v.flash w.flash) hL (fun v => Kept.refl L none v.flash) (fun h h' => h.trans hL h')
    (fun u block hu hb ha => by
      obtain ⟨w, hw, hk⟩ := (recycleBlock_kept_iff hL hu.1 hu.2 hb (nofun : BlockType.FILE = .DIRECTORY → _)).mpr ha
      obtain ⟨-, -, w', -, hw', -, hwlast, -⟩ := recycleBlock_run hL hu.1 hb .FILE
      rw [hw] at hw'
      cases hw'
      exact ⟨w, hw, hk, ⟨hwlast, hk.tabled hL hu.2⟩, trivial⟩)
    (fun _ _ => trivial) ⟨hlast, ht⟩ hsteps
  exact ⟨w, hw, hk⟩

/-- What recycling keeps. A block is recycled without loss exactly if the page that `getFreePage` will give allows it. The file
table is if that is so for each page in turn, and so in particular from a steady state. -/
theorem recycling_keeps_iff (hL : L.Sound) (v : Volume L) (hlast : v.lastBlockAllocated < L.fileSystemSize)
    (ht : Tabled L v.flash) :
    (∀ block < L.fileSystemSize, ∀ type, (type = .DIRECTORY → L.fileSystemTableSize ≤ block) →
      ((∃ w, v.recycleBlock block type = .ok w ∧ Kept L (recycledDir block type) v.flash w.flash) ↔
        v.Refreshable block type)) ∧
    (v.Steps (fun u block => u.Refreshable block .FILE) →
      ∃ w, v.recycleFileTable = .ok w ∧ Kept L none v.flash w.flash) ∧
    (v.Steady → ∃ w, v.recycleFileTable = .ok w ∧ Kept L none v.flash w.flash) := by
  refine ⟨fun block hblock type hdir => recycleBlock_kept_iff hL hlast ht hblock hdir,
    fun hsteps => recycleFileTable_kept hL hlast ht hsteps, fun hv => ?_⟩
  obtain ⟨w, hw, hk, -⟩ := recycleFileTable_steady hL hv
  exact ⟨w, hw, hk⟩

/-- Four pages: a block for the table, one for the root directory, and 62 for files. -/
def fourPages : Layout := { threePages with fileSystemSize := 64 }

/-- The layout of four pages is sound. -/
theorem fourPages_sound : fourPages.Sound := by
  refine ⟨?_, ?_, ?_, ?_, ?_, ?_, ?_, ?_, ?_, ?_⟩ <;> decide

/-- The file has block 2 and block 20, which starts with an x. Blocks 5 and 18 are deleted, one on the page of each. The other
two pages are empty. -/
def twoDeleted : Volume fourPages where
  flash := put (withTable ([1, MBFS_EOF, 20, MBFS_UNUSED, MBFS_UNUSED, MBFS_DELETED] ++ List.replicate 12 MBFS_UNUSED ++
    [MBFS_DELETED, MBFS_UNUSED, MBFS_EOF] ++ List.replicate 43 MBFS_UNUSED)) 0x11400 ['x'.toUInt8]
  lastBlockAllocated := 20

/-- The file system of the example is steady. -/
theorem twoDeleted_steady : twoDeleted.Steady where
  last := by decide
  tabled := by
    unfold Tabled
    decide +kernel
  room := Or.inl (by decide +kernel)
  clean := by
    have hblank : ∀ {x}, 0x12000 ≤ x → twoDeleted.flash x = blank := fun hx =>
      ((put_of_le _ _ (Nat.le_trans (by decide +kernel) hx)).trans
        (put_of_le _ _ (Nat.le_trans (by decide +kernel) hx))).trans (put_of_le _ _ (Nat.le_trans (by decide +kernel) hx))
    have hfull : ∀ k < 2, ¬twoDeleted.Empty (16 * k) := by decide +kernel
    intro k _ he b _ j _
    have hk : 2 ≤ k := Nat.le_of_not_lt fun h => hfull k h he
    refine hblank ?_
    change 0x12000 ≤ 0x10000 + (16 * k + b % 16) * 256 + j
    omega

/-- The table is recycled where blocks of two pages are deleted, and the file keeps its second block. -/
theorem recycling_keeps_iff_two_deleted :
    ∃ w, twoDeleted.recycleFileTable = .ok w ∧ Kept fourPages none twoDeleted.flash w.flash ∧ w.flash 0x11400 = 'x'.toUInt8 := by
  obtain ⟨w, hw, hk⟩ :=
    (recycling_keeps_iff fourPages_sound twoDeleted (by decide) twoDeleted_steady.tabled).2.2 twoDeleted_steady
  have hx := hk.content 20 (by decide) (by decide) (by decide +kernel) nofun 0 (by decide)
  exact ⟨w, hw, hk, hx.trans (by decide +kernel)⟩

/-- In the example no page is empty, and the second is noted. -/
theorem spread_notedPage : spread.emptyPage = none ∧ spread.notedPage = some 16 := by
  decide +kernel

/-- Block 2 is recycled, and block 17 is lost. -/
theorem recycling_loses_block :
    spread.TableInvariant [0x10100, 0x10118] ∧
      ∃ w, spread.recycleBlock 2 = .ok w ∧ ¬Kept threePages none spread.flash w.flash := by
  obtain ⟨-, -, w, -, hw, -⟩ := recycleBlock_run (v := spread) threePages_sound (by decide) (show 2 < 48 by decide) .FILE
  refine ⟨spread_invariant, w, hw, fun hk => ?_⟩
  have htabled : Tabled threePages spread.flash := by
    unfold Tabled
    decide +kernel
  have hr := (recycleBlock_kept_iff threePages_sound (by decide) htabled (by decide)
    (nofun : BlockType.FILE = .DIRECTORY → _)).mp ⟨w, hw, hk⟩
  unfold Refreshable at hr
  rw [spread_notedPage.1, spread_notedPage.2] at hr
  have hx := hr.content 17 (by decide) (by decide) (by decide +kernel) nofun 0 (by decide)
  revert hx
  decide +kernel

end Volume

end CodalMicrobit

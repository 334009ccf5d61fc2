import CodalMicrobit.Lemmas.FreedEntry

/-!
# Free blocks

`getFreeBlock` starts behind the block it allocated last and goes on to the end of the numbers, not to the end of the table.
The scan stays in the table only if it finds an unused block before the end, or starts at block 0. Where it finds no unused
block the last deleted one is taken, which recycling has to make unused.
-/

namespace CodalMicrobit

open Nor

namespace Volume

variable {L : Layout} {v w : Volume L}

/-- The entries that the loop of `getFreeBlock` reads, in order. -/
def scanned (v : Volume L) (block : Nat) : Nat → List Nat
  | 0 => []
  | fuel + 1 =>
    if block = v.lastBlockAllocated then []
    else block :: if v.table block = MBFS_UNUSED then [] else v.scanned ((block + 1) % 2 ^ 16) fuel

/-- The entries that `getFreeBlock` reads. -/
def freeBlockReads (v : Volume L) : List Nat :=
  v.scanned ((v.lastBlockAllocated + 1) % L.fileSystemSize % 2 ^ 16) blockNumbers

/-- The block is one of the file system that was free and is unused now, or none and no other block than the last one that was
allocated was free; and no entry past the table was read. -/
structure GoodBlock (v : Volume L) (block : Nat) (w : Volume L) : Prop where
  reads : ∀ e ∈ v.freeBlockReads, e < L.fileSystemSize
  free : block ≠ 0 → block < L.fileSystemSize ∧ L.Reusable v.flash block ∧ L.getNextFileBlock w.flash block = MBFS_UNUSED
  full : block = 0 → ∀ b < L.fileSystemSize, b ≠ v.lastBlockAllocated → ¬L.Reusable v.flash b

/-- The scan starts at block 0, or finds an unused block before the end of the table. -/
def Inside (v : Volume L) : Prop :=
  v.lastBlockAllocated + 1 = L.fileSystemSize ∨
    ∃ b < L.fileSystemSize, v.lastBlockAllocated < b ∧ v.table b = MBFS_UNUSED

/-- Block 0 is not found, which would be taken for none: it is in use where the scan starts at it, or it is deleted and not
the only free block. -/
def ZeroPassed (v : Volume L) : Prop :=
  v.lastBlockAllocated + 1 = L.fileSystemSize → v.table 0 ≠ MBFS_UNUSED ∧
    (v.table 0 = MBFS_DELETED → ∃ b, 0 < b ∧ b < v.lastBlockAllocated ∧ L.Reusable v.flash b)

/-- No block is unused where the scan goes, but one is deleted. -/
def NeedsRecycling (v : Volume L) : Prop :=
  v.lastBlockAllocated + 1 = L.fileSystemSize ∧ (∀ b < v.lastBlockAllocated, v.table b ≠ MBFS_UNUSED) ∧
    ∃ b, 0 < b ∧ b < v.lastBlockAllocated ∧ v.table b = MBFS_DELETED

/-- The last deleted block that the scan passes. -/
structure LastDeleted (v : Volume L) (d : Nat) : Prop where
  pos : 0 < d
  lt : d < v.lastBlockAllocated
  deleted : v.table d = MBFS_DELETED
  last : ∀ b < v.lastBlockAllocated, d < b → v.table b ≠ MBFS_DELETED

/-- Recycling the file table makes that block an unused one. -/
def Recovers (v : Volume L) : Prop := ∀ d, v.LastDeleted d → (v.note (.block d v.flash)).EntryFreed d

/-! ## The scan -/

/-- The loop goes past blocks that are not unused, and takes with it the last deleted one. -/
theorem scan_skip (v : Volume L) (n : Nat) : ∀ block deleted fuel : Nat, block + n < 2 ^ 16 → n ≤ fuel →
    (∀ i < n, v.table (block + i) ≠ MBFS_UNUSED ∧ block + i ≠ v.lastBlockAllocated) →
    ∃ deleted', v.findBlock block deleted fuel = v.findBlock (block + n) deleted' (fuel - n) ∧
      v.scanned block fuel = List.range' block n ++ v.scanned (block + n) (fuel - n) ∧
      (deleted' = deleted ∧ (∀ i < n, v.table (block + i) ≠ MBFS_DELETED) ∨
        ∃ i < n, deleted' = block + i ∧ v.table (block + i) = MBFS_DELETED ∧
          ∀ j < n, i < j → v.table (block + j) ≠ MBFS_DELETED) := by
  induction n with
  | zero => exact fun block deleted fuel _ _ _ => ⟨deleted, rfl, rfl, Or.inl ⟨rfl, nofun⟩⟩
  | succ n ih =>
    intro block deleted fuel hlt hfuel hpass
    obtain ⟨fuel, rfl⟩ : ∃ f, fuel = f + 1 := ⟨fuel - 1, by omega⟩
    obtain ⟨hunused, hne⟩ := hpass 0 (Nat.succ_pos n)
    rw [Nat.add_zero] at hunused hne
    have hshift : ∀ i, block + 1 + i = block + (i + 1) := fun i => by omega
    obtain ⟨deleted', hfind, hscan, hd⟩ := ih (block + 1) (if v.table block = MBFS_DELETED then block else deleted) fuel
      (by omega) (by omega) fun i hi => by
        rw [hshift]
        exact hpass (i + 1) (by omega)
    refine ⟨deleted', ?_, ?_, ?_⟩
    · rw [findBlock, if_neg hne, if_neg hunused, Nat.mod_eq_of_lt (by omega), hfind, hshift, Nat.add_sub_add_right]
    · rw [scanned, if_neg hne, if_neg hunused, Nat.mod_eq_of_lt (by omega), hscan, hshift, Nat.add_sub_add_right]
      rfl
    · rcases hd with ⟨rfl, hd⟩ | ⟨i, hi, rfl, hd, hafter⟩
      · by_cases hb : v.table block = MBFS_DELETED
        · rw [if_pos hb]
          refine Or.inr ⟨0, Nat.succ_pos n, rfl, hb, fun j hj h0 => ?_⟩
          have := hd (j - 1) (by omega)
          rwa [hshift, Nat.sub_add_cancel h0] at this
        · rw [if_neg hb]
          refine Or.inl ⟨rfl, fun i hi => ?_⟩
          cases i with
          | zero => exact hb
          | succ i =>
            rw [← hshift]
            exact hd i (by omega)
      · refine Or.inr ⟨i + 1, by omega, hshift i, by rwa [← hshift], fun j hj hij => ?_⟩
        have := hafter (j - 1) (by omega) (by omega)
        rwa [hshift, Nat.sub_add_cancel (by omega)] at this

/-- The loop ends when the number of the last block that was allocated is reached. -/
theorem scanned_length (v : Volume L) (fuel : Nat) : ∀ block r : Nat, block < 2 ^ 16 →
    (block + r) % 2 ^ 16 = v.lastBlockAllocated → (v.scanned block fuel).length ≤ r := by
  induction fuel with
  | zero => exact fun _ _ _ _ => Nat.zero_le _
  | succ fuel ih =>
    intro block r hb hr
    unfold scanned
    split
    · exact Nat.zero_le _
    · rename_i hne
      cases r with
      | zero =>
        rw [Nat.add_zero, Nat.mod_eq_of_lt hb] at hr
        exact absurd hr hne
      | succ r =>
        rw [List.length_cons]
        refine Nat.succ_le_succ ?_
        split
        · exact Nat.zero_le _
        · refine ih _ r (Nat.mod_lt _ (by decide)) ?_
          rw [Nat.mod_add_mod, Nat.add_right_comm]
          exact hr

/-- The first number below a bound with a property. -/
theorem exists_first {P : Nat → Prop} {n : Nat} (h : ∃ i < n, P i) : ∃ i < n, P i ∧ ∀ j < i, ¬P j := by
  classical
  have h' : ∃ i, i < n ∧ P i := h
  refine ⟨Nat.find h', (Nat.find_spec h').1, (Nat.find_spec h').2, fun j hj hp => ?_⟩
  exact Nat.find_min h' hj ⟨hj.trans (Nat.find_spec h').1, hp⟩

/-- The scan comes to an unused block. -/
theorem scan_found (v : Volume L) {start n : Nat} (hlt : start + n < 2 ^ 16)
    (hpass : ∀ i < n, v.table (start + i) ≠ MBFS_UNUSED ∧ start + i ≠ v.lastBlockAllocated)
    (hne : start + n ≠ v.lastBlockAllocated) (hu : v.table (start + n) = MBFS_UNUSED) :
    ∃ deleted, v.findBlock start 0 blockNumbers = (some (start + n), deleted) ∧
      v.scanned start blockNumbers = List.range' start (n + 1) := by
  obtain ⟨fuel, hfuel⟩ : ∃ f, blockNumbers = n + (f + 1) := ⟨blockNumbers - n - 1, by unfold blockNumbers; omega⟩
  obtain ⟨deleted, hfind, hscan, -⟩ := scan_skip v n start 0 blockNumbers hlt (by omega) hpass
  rw [hfuel, Nat.add_sub_cancel_left] at hfind hscan
  rw [hfuel]
  refine ⟨deleted, ?_, ?_⟩
  · rw [hfind, findBlock, if_neg hne, if_pos hu]
  · rw [hscan, scanned, if_neg hne, if_pos hu, List.range'_1_concat]

/-- `getFreeBlock` always comes back. -/
theorem getFreeBlock_total (hL : L.Sound) (hlast : v.lastBlockAllocated < L.fileSystemSize) :
    ∃ block w, v.getFreeBlock = .ok (block, w) := by
  unfold getFreeBlock
  split
  · exact ⟨_, _, rfl⟩
  · exact ⟨_, _, rfl⟩
  · rename_i block _ _
    obtain ⟨w, hw⟩ := recycleFileTable_total (v := v.note (.block block v.flash)) hL hlast
    rw [hw]
    exact ⟨_, _, rfl⟩

/-- The volume when `getFreeBlock` has found an unused block. -/
def allocated (v : Volume L) (block : Nat) : Volume L :=
  { v.note (.block block v.flash) with lastBlockAllocated := block }

/-- An unused block is found before the scan leaves the table. -/
theorem getFreeBlock_found (hL : L.Sound) {start n : Nat}
    (hstart : (v.lastBlockAllocated + 1) % L.fileSystemSize % 2 ^ 16 = start) (hlt : start + n < L.fileSystemSize)
    (hpass : ∀ i < n, v.table (start + i) ≠ MBFS_UNUSED ∧ start + i ≠ v.lastBlockAllocated)
    (hne : start + n ≠ v.lastBlockAllocated) (hu : v.table (start + n) = MBFS_UNUSED) :
    v.getFreeBlock = .ok (start + n, v.allocated (start + n)) ∧
      (start + n ≠ 0 → v.GoodBlock (start + n) (v.allocated (start + n))) := by
  have hsize := hL.size_lt
  obtain ⟨deleted, hfind, hscan⟩ := scan_found v (by omega) hpass hne hu
  unfold getFreeBlock
  rw [hstart, hfind]
  refine ⟨rfl, fun h0 => ⟨fun e he => ?_, fun _ => ⟨hlt, Or.inl hu, hu⟩, fun h => absurd h h0⟩⟩
  unfold freeBlockReads at he
  rw [hstart, hscan, List.mem_range'_1] at he
  omega

/-- No unused block is found before the end of the table: the entry behind it is read. -/
theorem not_inside_of_pass (hL : L.Sound) (hlast : v.lastBlockAllocated + 1 < L.fileSystemSize)
    (hpass : ∀ b < L.fileSystemSize, v.lastBlockAllocated < b → v.table b ≠ MBFS_UNUSED) :
    L.fileSystemSize ∈ v.freeBlockReads := by
  have hsize := hL.size_lt
  obtain ⟨fuel, hfuel⟩ : ∃ f, blockNumbers = L.fileSystemSize - (v.lastBlockAllocated + 1) + (f + 1) :=
    ⟨blockNumbers - (L.fileSystemSize - (v.lastBlockAllocated + 1)) - 1, by unfold blockNumbers; omega⟩
  obtain ⟨deleted, -, hscan, -⟩ := scan_skip v (L.fileSystemSize - (v.lastBlockAllocated + 1)) (v.lastBlockAllocated + 1) 0
    blockNumbers (by omega) (by omega) fun i hi => ⟨hpass _ (by omega) (by omega), by omega⟩
  unfold freeBlockReads
  rw [Nat.mod_eq_of_lt hlast, Nat.mod_eq_of_lt (by omega), hscan, hfuel, Nat.add_sub_cancel_left, scanned,
    if_neg (by omega)]
  refine List.mem_append_right _ ?_
  rw [show v.lastBlockAllocated + 1 + (L.fileSystemSize - (v.lastBlockAllocated + 1)) = L.fileSystemSize by omega]
  exact List.mem_cons_self

/-- The scan starts at block 0 and finds no unused block: the last deleted one is taken, if that is not block 0. -/
theorem getFreeBlock_full (hL : L.Sound) (hlast : v.lastBlockAllocated + 1 = L.fileSystemSize)
    (hpass : ∀ b < v.lastBlockAllocated, v.table b ≠ MBFS_UNUSED) :
    (∀ e ∈ v.freeBlockReads, e < L.fileSystemSize) ∧
    ∃ deleted, (deleted ≠ 0 → v.LastDeleted deleted) ∧
      (deleted = 0 → ∀ b < v.lastBlockAllocated, 0 < b → v.table b ≠ MBFS_DELETED) ∧
      v.getFreeBlock = if deleted = 0 then .ok (0, v.note (.block 0 v.flash))
        else (v.note (.block deleted v.flash)).recycleFileTable >>= fun v =>
          .ok (deleted, { v with lastBlockAllocated := deleted }) := by
  have hsize := hL.size_lt
  have hstart : (v.lastBlockAllocated + 1) % L.fileSystemSize % 2 ^ 16 = 0 := by rw [hlast, Nat.mod_self, Nat.zero_mod]
  obtain ⟨fuel, hfuel⟩ : ∃ f, blockNumbers = v.lastBlockAllocated + (f + 1) :=
    ⟨blockNumbers - v.lastBlockAllocated - 1, by unfold blockNumbers; omega⟩
  obtain ⟨deleted, hfind, hscan, hd⟩ := scan_skip v v.lastBlockAllocated 0 0 blockNumbers (by omega) (by omega)
    fun i hi => by
      rw [Nat.zero_add]
      exact ⟨hpass i hi, Nat.ne_of_lt hi⟩
  rw [Nat.zero_add, hfuel, Nat.add_sub_cancel_left, findBlock, if_pos rfl] at hfind
  rw [Nat.zero_add, hfuel, Nat.add_sub_cancel_left, scanned, if_pos rfl, List.append_nil] at hscan
  simp only [Nat.zero_add] at hd
  refine ⟨fun e he => ?_, deleted, fun h0 => ?_, fun h0 b hb hpos => ?_, ?_⟩
  · unfold freeBlockReads at he
    rw [hstart, hfuel, hscan, List.mem_range'_1] at he
    omega
  · rcases hd with ⟨rfl, -⟩ | ⟨i, hi, rfl, hdel, hafter⟩
    · exact absurd rfl h0
    · exact ⟨Nat.pos_of_ne_zero h0, hi, hdel, hafter⟩
  · rcases hd with ⟨-, hd⟩ | ⟨i, -, rfl, -, hafter⟩
    · exact hd b hb
    · exact hafter b hb (by omega)
  · unfold getFreeBlock
    rw [hstart, hfuel, hfind]
    by_cases h0 : deleted = 0
    · subst h0
      rfl
    · rw [if_neg h0]
      obtain ⟨d, rfl⟩ := Nat.exists_eq_succ_of_ne_zero h0
      rfl

/-- In a steady state every deleted block is recovered. -/
theorem Steady.recovers (hL : L.Sound) (hv : v.Steady) : v.Recovers := by
  intro d hd
  have hlt := hd.lt.trans hv.last
  have hv' : (v.note (.block d v.flash)).Steady := ⟨hv.last, hv.tabled, hv.room, hv.clean⟩
  obtain ⟨w, hw, hk, -, hgone⟩ := recycleFileTable_steady hL hv'
  obtain ⟨w', hw', hfreed⟩ := recycleFileTable_freed_iff (v := v.note (.block d v.flash)) hL ⟨hv.last, hv.tabled⟩
    (hL.entry_lt hlt) hd.deleted
  rw [hw] at hw'
  cases hw'
  refine hfreed.mp ?_
  rcases hk.entries d (hL.entry_lt hlt) with h | ⟨-, h⟩
  · exact absurd (h.trans hd.deleted) (hgone d (hL.entry_lt hlt))
  · exact h

/-- There is one such block at most. -/
theorem LastDeleted.unique {d d' : Nat} (h : v.LastDeleted d) (h' : v.LastDeleted d') : d = d' := by
  rcases Nat.lt_trichotomy d d' with hlt | heq | hlt
  · exact absurd h'.deleted (h.last d' h'.lt hlt)
  · exact heq
  · exact absurd h.deleted (h'.last d h.lt hlt)

/-- The scan is over before every number of a block has come up. -/
theorem freeBlockReads_length (hL : L.Sound) (hlast : v.lastBlockAllocated < L.fileSystemSize) :
    v.freeBlockReads.length < blockNumbers := by
  have hsize := hL.size_lt
  have hs := Nat.mod_lt ((v.lastBlockAllocated + 1) % L.fileSystemSize) (show 0 < 2 ^ 16 by decide)
  refine Nat.lt_of_le_of_lt (scanned_length v blockNumbers _
    ((v.lastBlockAllocated + 2 ^ 16 - (v.lastBlockAllocated + 1) % L.fileSystemSize % 2 ^ 16) % 2 ^ 16) hs ?_) ?_
  · omega
  · unfold blockNumbers
    exact Nat.mod_lt _ (by decide)

/-- The scan starts at block 0 and comes to an unused block, which may be block 0. -/
theorem getFreeBlock_first (hL : L.Sound) (hlast : v.lastBlockAllocated + 1 = L.fileSystemSize)
    (hu : ∃ n < v.lastBlockAllocated, v.table n = MBFS_UNUSED) :
    ∃ block w, v.getFreeBlock = .ok (block, w) ∧ (v.GoodBlock block w ↔ v.Inside ∧ v.ZeroPassed) := by
  have htable := hL.table_lt
  have hpages := hL.size_eq
  have hstart : (v.lastBlockAllocated + 1) % L.fileSystemSize % 2 ^ 16 = 0 := by rw [hlast, Nat.mod_self, Nat.zero_mod]
  obtain ⟨n, hn, hun, hbefore⟩ := exists_first hu
  obtain ⟨hrun, hgood⟩ := getFreeBlock_found hL hstart (n := n) (by omega)
    (fun i hi => by
      rw [Nat.zero_add]
      exact ⟨hbefore i hi, by omega⟩) (by omega) (by rwa [Nat.zero_add])
  rw [Nat.zero_add] at hrun hgood
  refine ⟨n, _, hrun, fun hg => ⟨Or.inl hlast, fun _ => ⟨fun h0 => ?_, fun h0 => ?_⟩⟩, fun hz => hgood ?_⟩
  · cases n with
    | zero => exact hg.full rfl 0 (by omega) (by omega) (Or.inl h0)
    | succ n => exact hbefore 0 (Nat.succ_pos n) h0
  · refine ⟨n, Nat.pos_of_ne_zero ?_, hn, Or.inl hun⟩
    rintro rfl
    rw [h0] at hun
    nomatch hun
  · rintro rfl
    exact (hz.2 hlast).1 hun

/-- The scan starts at block 0, and no block is free but perhaps this one, which is given. -/
theorem getFreeBlock_none (hL : L.Sound) (hlast : v.lastBlockAllocated + 1 = L.fileSystemSize)
    (hpass : ∀ b < v.lastBlockAllocated, v.table b ≠ MBFS_UNUSED)
    (hnone : ∀ b < v.lastBlockAllocated, 0 < b → v.table b ≠ MBFS_DELETED) :
    ∃ block w, v.getFreeBlock = .ok (block, w) ∧ (v.GoodBlock block w ↔ v.Inside ∧ v.ZeroPassed) := by
  have htable := hL.table_lt
  have hpages := hL.size_eq
  obtain ⟨hreads, deleted, hdel, -, hrun⟩ := getFreeBlock_full hL hlast hpass
  obtain rfl : deleted = 0 := by
    by_contra h0
    have hd := hdel h0
    exact hnone deleted hd.lt hd.pos hd.deleted
  rw [if_pos rfl] at hrun
  refine ⟨0, _, hrun, fun hg => ⟨Or.inl hlast, fun _ => ⟨hpass 0 (by omega), fun hd => ?_⟩⟩,
    fun hz => ⟨hreads, fun h => absurd rfl h, fun _ b hb hbne hr => ?_⟩⟩
  · exact absurd (Or.inr hd) (hg.full rfl 0 (by omega) (by omega))
  · have hblt : b < v.lastBlockAllocated := by omega
    rcases hr with hr | hr
    · exact hpass b hblt hr
    · rcases Nat.eq_zero_or_pos b with rfl | hpos
      · obtain ⟨c, hc0, hc, hr | hr⟩ := (hz.2 hlast).2 hr
        · exact hpass c hc hr
        · exact hnone c hc hc0 hr
      · exact hnone b hblt hpos hr

/-- The last deleted block is taken. On a volume whose table is in use it is good exactly if recycling makes it unused. -/
theorem getFreeBlock_recycled (hL : L.Sound) (hneeds : v.NeedsRecycling) :
    v.Inside ∧ v.ZeroPassed ∧ ∃ block w, v.getFreeBlock = .ok (block, w) ∧
      (Tabled L v.flash → (v.GoodBlock block w ↔ v.Recovers)) := by
  obtain ⟨hlast, hpass, b, hpos, hb, hbdel⟩ := hneeds
  obtain ⟨hreads, deleted, hdel, hnone, hrun⟩ := getFreeBlock_full hL hlast hpass
  have h0 : deleted ≠ 0 := fun h0 => hnone h0 b hb hpos hbdel
  have hd := hdel h0
  have hdlt := hd.lt
  have hlast' : v.lastBlockAllocated < L.fileSystemSize := by omega
  refine ⟨Or.inl hlast, fun _ => ⟨hpass 0 (by omega), fun _ => ⟨deleted, hd.pos, hdlt, Or.inr hd.deleted⟩⟩, ?_⟩
  obtain ⟨w, hw⟩ := recycleFileTable_total (v := v.note (.block deleted v.flash)) hL hlast'
  rw [hrun, if_neg h0, hw]
  refine ⟨deleted, _, rfl, fun ht => ?_⟩
  obtain ⟨w', hw', hfreed⟩ := recycleFileTable_freed_iff (v := v.note (.block deleted v.flash)) hL ⟨hlast', ht⟩
    (hL.entry_lt (show deleted < L.fileSystemSize by omega)) hd.deleted
  obtain rfl : w = w' := Except.ok.inj (hw.symm.trans hw')
  refine ⟨fun hg d hd' => ?_, fun h => ⟨hreads, fun _ => ⟨by omega, Or.inr hd.deleted, ?_⟩, fun h => absurd h h0⟩⟩
  · obtain rfl := hd'.unique hd
    exact hfreed.mp (hg.free h0).2.2
  · exact hfreed.mpr (h deleted hd)

/-- The scan starts behind the block that was allocated last, and stays in the table if it comes to an unused block. -/
theorem getFreeBlock_onward (hL : L.Sound) (hlast : v.lastBlockAllocated + 1 < L.fileSystemSize) :
    ∃ block w, v.getFreeBlock = .ok (block, w) ∧ (v.GoodBlock block w ↔ v.Inside ∧ v.ZeroPassed) := by
  have hsize := hL.size_lt
  have hne : v.lastBlockAllocated + 1 ≠ L.fileSystemSize := Nat.ne_of_lt hlast
  have hzero : v.ZeroPassed := fun h => absurd h hne
  have hstart : (v.lastBlockAllocated + 1) % L.fileSystemSize % 2 ^ 16 = v.lastBlockAllocated + 1 := by
    rw [Nat.mod_eq_of_lt hlast, Nat.mod_eq_of_lt (by omega)]
  by_cases hu : ∃ b < L.fileSystemSize, v.lastBlockAllocated < b ∧ v.table b = MBFS_UNUSED
  · obtain ⟨b, hb, ⟨hlb, hun⟩, hbefore⟩ := exists_first hu
    obtain ⟨hrun, hgood⟩ := getFreeBlock_found hL hstart (n := b - (v.lastBlockAllocated + 1)) (by omega)
      (fun i hi => ⟨fun h => hbefore _ (by omega) ⟨by omega, h⟩, by omega⟩) (by omega)
      (by rwa [show v.lastBlockAllocated + 1 + (b - (v.lastBlockAllocated + 1)) = b by omega])
    exact ⟨_, _, hrun, fun _ => ⟨Or.inr hu, hzero⟩, fun _ => hgood (by omega)⟩
  · obtain ⟨block, w, hrun⟩ := getFreeBlock_total hL (Nat.lt_of_succ_lt hlast)
    have hread := not_inside_of_pass hL hlast fun b hb hlb h => hu ⟨b, hb, hlb, h⟩
    exact ⟨block, w, hrun, fun hg => absurd (hg.reads _ hread) (Nat.lt_irrefl _),
      fun hin => hin.1.elim (fun h => absurd h hne) fun h => absurd h hu⟩

/-- Where nothing has to be recycled, the block is good exactly if the scan stays in the table and passes block 0. -/
theorem getFreeBlock_plain (hL : L.Sound) (hlast : v.lastBlockAllocated < L.fileSystemSize) (hn : ¬v.NeedsRecycling) :
    ∃ block w, v.getFreeBlock = .ok (block, w) ∧ (v.GoodBlock block w ↔ v.Inside ∧ v.ZeroPassed) := by
  by_cases hend : v.lastBlockAllocated + 1 = L.fileSystemSize
  · by_cases hu : ∃ n < v.lastBlockAllocated, v.table n = MBFS_UNUSED
    · exact getFreeBlock_first hL hend hu
    · have hpass : ∀ b < v.lastBlockAllocated, v.table b ≠ MBFS_UNUSED := fun b hb h => hu ⟨b, hb, h⟩
      exact getFreeBlock_none hL hend hpass fun b hb hpos hd => hn ⟨hend, hpass, b, hpos, hb, hd⟩
  · exact getFreeBlock_onward hL (by omega)

/-- `getFreeBlock` comes back. What it gives is good only if the scan stays in the table and passes block 0, and it is good
then if nothing has to be recycled. On a volume whose table is in use, it is good exactly if, besides, recycling makes the
deleted block unused that is taken where nothing else is left. -/
theorem getFreeBlock_good (hL : L.Sound) (v : Volume L) (hlast : v.lastBlockAllocated < L.fileSystemSize) :
    ∃ block w, v.getFreeBlock = .ok (block, w) ∧ v.freeBlockReads.length < blockNumbers ∧
      (v.GoodBlock block w → v.Inside ∧ v.ZeroPassed) ∧
      (v.Inside → v.ZeroPassed → ¬v.NeedsRecycling → v.GoodBlock block w) ∧
      (Tabled L v.flash → (v.GoodBlock block w ↔ v.Inside ∧ v.ZeroPassed ∧ (v.NeedsRecycling → v.Recovers))) := by
  have hends := freeBlockReads_length hL hlast
  by_cases hneeds : v.NeedsRecycling
  · obtain ⟨hin, hz, block, w, hrun, hiff⟩ := getFreeBlock_recycled hL hneeds
    refine ⟨block, w, hrun, hends, fun _ => ⟨hin, hz⟩, fun _ _ hn => absurd hneeds hn, fun ht => (hiff ht).trans ?_⟩
    exact ⟨fun h => ⟨hin, hz, fun _ => h⟩, fun h => h.2.2 hneeds⟩
  · obtain ⟨block, w, hrun, hiff⟩ := getFreeBlock_plain hL hlast hneeds
    refine ⟨block, w, hrun, hends, hiff.mp, fun hin hz _ => hiff.mpr ⟨hin, hz⟩, fun _ => hiff.trans ?_⟩
    exact ⟨fun h => ⟨h.1, h.2, fun h' => absurd h' hneeds⟩, fun h => ⟨h.1, h.2.1⟩⟩

/-- The file has all blocks but block 30, which is deleted, and the last block was allocated last. -/
def oneDeleted : Volume threePages where
  flash := withTable ([1, MBFS_EOF] ++ List.range' 3 27 ++ [31, MBFS_DELETED] ++ List.range' 32 16 ++ [MBFS_EOF])
  lastBlockAllocated := 47

/-- The file system of the example is steady. -/
theorem oneDeleted_steady : oneDeleted.Steady where
  last := by decide
  tabled := by
    unfold Tabled
    decide +kernel
  room := Or.inr (by decide +kernel)
  clean := by
    have hnone : ∀ k < threePages.pages, ¬oneDeleted.Empty (16 * k) := by decide +kernel
    exact fun k hk he => absurd he (hnone k hk)

/-- `getFreeBlock_good` where the deleted block has to be recycled. -/
theorem getFreeBlock_good_one_deleted :
    oneDeleted.NeedsRecycling ∧ ∃ block w, oneDeleted.getFreeBlock = .ok (block, w) ∧ oneDeleted.GoodBlock block w := by
  have hneeds : oneDeleted.NeedsRecycling := ⟨rfl, by decide +kernel, 30, by decide, by decide, by decide +kernel⟩
  obtain ⟨block, w, hrun, -, -, -, hgood⟩ := getFreeBlock_good threePages_sound oneDeleted (by decide)
  refine ⟨hneeds, block, w, hrun, (hgood oneDeleted_steady.tabled).mpr ⟨Or.inl rfl, fun _ => ?_, fun _ => ?_⟩⟩
  · exact ⟨by decide +kernel, fun h => absurd h (by decide +kernel)⟩
  · exact oneDeleted_steady.recovers threePages_sound

/-- The file has all blocks. -/
def full : Volume threePages where
  flash := withTable ([1, MBFS_EOF] ++ List.range' 3 45 ++ [MBFS_EOF])
  lastBlockAllocated := 40

/-- The table of the full file system keeps the invariant. -/
theorem full_invariant : full.TableInvariant [0x10100, 0x10118] := by
  refine ⟨?_, ?_, ?_, ?_, ?_, ?_⟩ <;> decide +kernel

/-- Behind the entry of the last block lies one that nothing was written to. -/
theorem getFreeBlock_past_end :
    full.TableInvariant [0x10100, 0x10118] ∧ ∃ w, full.getFreeBlock = .ok (48, w) ∧ ¬full.GoodBlock 48 w := by
  obtain ⟨deleted, hfind, -⟩ := scan_found full (show 41 + 7 < 2 ^ 16 by decide) (by decide +kernel) (by decide)
    (by decide +kernel)
  have hrun : ∃ w, full.getFreeBlock = .ok (48, w) := by
    unfold getFreeBlock
    rw [show (full.lastBlockAllocated + 1) % threePages.fileSystemSize % 2 ^ 16 = 41 from rfl, hfind]
    exact ⟨_, rfl⟩
  obtain ⟨w, hw⟩ := hrun
  exact ⟨full_invariant, w, hw, fun hg => absurd (hg.free nofun).1 (by decide)⟩

end Volume

end CodalMicrobit

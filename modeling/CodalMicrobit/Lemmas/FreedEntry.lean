import CodalMicrobit.Theorems.TableRecycling

/-!
# What recycling makes of one entry of the table

A page of the table is refreshed by way of another page. Its deleted entries are not copied, so what was left on the other
page is in their place then: nothing, where that page was erased, and else what older blocks have left there. An entry that is
not deleted any more stays as it is.
-/

namespace CodalMicrobit

open Nor Outcome

namespace Volume

variable {L : Layout} {v u w : Volume L} {scratch block e : Nat}

/-- What is in the place of an entry of the table on the page that `getFreePage` will give. The page that was noted and the
default one are erased. -/
def replacement (v : Volume L) (e : Nat) : Nat :=
  match v.emptyPage with
  | some p => L.getNextFileBlock (behind v.flash (L.getBlock p)) e
  | none => MBFS_UNUSED

/-- The table is not on the page that `getFreePage` gives, and is as it was. -/
theorem Found.table (hL : L.Sound) (hlast : v.lastBlockAllocated < L.fileSystemSize) (ht : Tabled L v.flash)
    (h : v.Found scratch u) : (∀ b < L.fileSystemTableSize, L.getPage b ≠ scratch) ∧
      (∀ b < L.fileSystemTableSize, ∀ k < 256, u.flash (L.getBlock b + k) = v.flash (L.getBlock b + k)) ∧
      ∀ e, L.getNextFileBlock (behind u.flash scratch) e = v.replacement e := by
  have htable := hL.table_lt
  -- a page with a block of the table starts with one, which is in use
  have hfirst : ∀ {b k}, b < L.fileSystemTableSize → L.getPage b = L.getBlock (16 * k) → ¬L.Reusable v.flash (16 * k) := by
    intro b k hb hbk
    rw [hL.getPage_eq] at hbk
    have := getBlock_inj hbk
    exact ht _ (by omega)
  have herased : ∀ {p}, p % MICROBIT_CODEPAGESIZE = 0 → (∀ b < L.fileSystemTableSize, L.getPage b ≠ p) →
      ∀ b < L.fileSystemTableSize, ∀ k < 256, MicroBitFlash.erasePage v.flash p (L.getBlock b + k) =
        v.flash (L.getBlock b + k) := by
    intro p hp hne b hb
    rcases erasePage_blocks hL v.flash hp b with ⟨-, h⟩ | ⟨h, -⟩
    · exact h
    · exact absurd h (hne b hb)
  have hblank : ∀ {p e}, L.getNextFileBlock (behind (MicroBitFlash.erasePage v.flash p) p) e = MBFS_UNUSED := by
    intro p e
    have hx : ∀ x, behind (MicroBitFlash.erasePage v.flash p) p x = blank := fun x => by
      have hmod := Nat.mod_lt x (show 0 < MICROBIT_CODEPAGESIZE by decide)
      exact if_pos ⟨Nat.le_add_right _ _, by omega⟩
    unfold Layout.getNextFileBlock readU16
    rw [hx, hx]
    rfl
  obtain ⟨hs, -, -, -⟩ := Found.quiet hL hlast h
  unfold replacement
  cases h with
  | empty p hp =>
    obtain ⟨k, hk, -, rfl, he⟩ := of_emptyPage hL hlast hp
    rw [hp]
    refine ⟨fun b hb hbk => hfirst hb hbk ?_, fun _ _ _ _ => rfl, fun _ => rfl⟩
    exact not_not.mp (he 0 (by decide))
  | noted p hnone hp =>
    obtain ⟨k, hk, -, -, rfl, i, hi, hdel, hbefore⟩ := of_notedPage hL hlast hp
    have hne : ∀ b < L.fileSystemTableSize, L.getPage b ≠ L.getBlock (16 * k) := by
      intro b hb hbk
      refine hfirst hb hbk ?_
      rcases Nat.eq_zero_or_pos i with rfl | hpos
      · exact Or.inr hdel
      · exact not_not.mp (hbefore 0 hpos)
    rw [hnone]
    exact ⟨hne, herased hs hne, fun _ => hblank⟩
  | none hnone _ =>
    have hne : ∀ b < L.fileSystemTableSize, L.getPage b ≠ L.MICROBIT_DEFAULT_SCRATCH_PAGE := by
      intro b hb h
      have hsize := hL.size_eq
      rw [hL.getPage_eq] at h
      exact scratch_ne_getBlock hL (by omega) h.symm
    rw [hnone]
    exact ⟨hne, herased hs hne, fun _ => hblank⟩

/-- Of the table, refreshing a page replaces the deleted entries on that page, and nothing else. -/
theorem recycleBlock_entries (hL : L.Sound) (hlast : v.lastBlockAllocated < L.fileSystemSize) (ht : Tabled L v.flash)
    (hblock : block < L.fileSystemSize) : ∃ w, v.recycleBlock block = .ok w ∧ w.lastBlockAllocated < L.fileSystemSize ∧
      Tabled L w.flash ∧ ∀ e < 128 * L.fileSystemTableSize, w.table e =
        if L.getPage (e / 128) = L.getPage block ∧ v.table e = MBFS_DELETED then v.replacement e else v.table e := by
  obtain ⟨scratch, u, w, hf, hrun, -, hwlast, -, href⟩ := recycleBlock_run hL hlast hblock .FILE
  obtain ⟨hs, -, -, -⟩ := Found.quiet (v := v.note (.recycling block v.flash)) hL hlast hf
  obtain ⟨hapart, hsame, hbehind⟩ := Found.table (v := v.note (.recycling block v.flash)) hL hlast ht hf
  have hp := (page_bounds hL block (show 0 < 256 by decide)).1
  have hentry : ∀ e < 128 * L.fileSystemTableSize, L.getNextFileBlock u.flash e = v.table e := fun e he =>
    entry_congr fun j hj => hsame (e / 128) (by omega) _ (by omega)
  have htu : Tabled L u.flash := fun b hb => by
    have hbe := hentry b (hL.entry_lt (hb.trans hL.table_lt))
    have hlive := ht b hb
    unfold Layout.Reusable at hlive ⊢
    rw [hbe]
    exact hlive
  have href := href htu
  have hall : ∀ e < 128 * L.fileSystemTableSize, w.table e =
      if L.getPage (e / 128) = L.getPage block ∧ v.table e = MBFS_DELETED then v.replacement e else v.table e := by
    intro e he
    have htb : e / 128 < L.fileSystemTableSize := by omega
    have hbs := hapart (e / 128) htb
    by_cases hbp : L.getPage (e / 128) = L.getPage block
    · by_cases hdel : v.table e = MBFS_DELETED
      · rw [if_pos ⟨hbp, hdel⟩]
        exact (href.entry_dropped hL nofun he hbp hbs ((hentry e he).trans hdel)).trans (hbehind e)
      · rw [if_neg fun h => hdel h.2, ← hentry e he]
        refine entry_congr fun j hj => href.byte_kept hL hbp hbs (by omega) ?_
        rw [keeps_block_iff hbp hL (by omega), if_neg (fun h' => nomatch h'.2),
          show (2 * (e % 128) + j) / 2 = e % 128 by omega, ← entry_eq]
        exact ⟨htu _ htb, fun _ h => hdel ((hentry e he).symm.trans h)⟩
    · rw [if_neg fun h => hbp h.1, ← hentry e he]
      exact entry_congr fun j hj => href.byte_outside hL hp hs (htb.trans hL.table_lt) hbp hbs (by omega)
  refine ⟨w, hrun, hwlast, fun b hb hr => ht b hb ?_, hall⟩
  have hbe := hall b (hL.entry_lt (hb.trans hL.table_lt))
  have hlive := ht b hb
  rw [if_neg fun h => hlive (Or.inr h.2)] at hbe
  exact hr.imp (fun h => hbe.symm.trans h) fun h => hbe.symm.trans h

/-! ## One entry over the run -/

/-- When the page of the entry is refreshed, an unused or deleted entry is in its place. -/
def StaysFree (e : Nat) (v : Volume L) (block : Nat) : Prop :=
  L.getPage (e / 128) = L.getPage block → v.table e = MBFS_DELETED →
    v.replacement e = MBFS_UNUSED ∨ v.replacement e = MBFS_DELETED

/-- When the page of the entry is refreshed, an unused entry is in its place. -/
def GetsFree (e : Nat) (v : Volume L) (block : Nat) : Prop :=
  L.getPage (e / 128) = L.getPage block → v.table e = MBFS_DELETED → v.replacement e = MBFS_UNUSED

/-- The steps of `recycleFileTable` leave the entry unused or deleted, as long as there are more to come, and unused when its
page is refreshed for the last time. -/
structure EntryFreed (v : Volume L) (e : Nat) : Prop where
  deleted : DeletedSteps (StaysFree e) v false (List.range L.fileSystemSize)
  table : ∀ w, v.recycleDeleted false (List.range L.fileSystemSize) = .ok w → TableSteps (GetsFree e) w (tablePages L)

/-- The volume has a table, and its last allocated block is one of it. -/
structure Tidy (v : Volume L) : Prop where
  last : v.lastBlockAllocated < L.fileSystemSize
  tabled : Tabled L v.flash

/-- The first loop leaves an entry that is neither unused nor deleted as it is, and leaves a free one free exactly if each
step does. -/
theorem recycleDeleted_entry (hL : L.Sound) (he : e < 128 * L.fileSystemTableSize) (blocks : List Nat) :
    ∀ (v : Volume L) (pageRecycled : Bool), v.Tidy → (∀ b ∈ blocks, b < L.fileSystemSize) →
      ∃ w, v.recycleDeleted pageRecycled blocks = .ok w ∧ w.Tidy ∧ (v.table e ≠ MBFS_DELETED → w.table e = v.table e) ∧
        (L.Reusable v.flash e → (L.Reusable w.flash e ↔ DeletedSteps (StaysFree e) v pageRecycled blocks)) := by
  induction blocks with
  | nil => exact fun v _ hv _ => ⟨v, rfl, hv, fun _ => rfl, fun hr => iff_of_true hr trivial⟩
  | cons block blocks ih =>
    intro v pageRecycled hv hlt
    rw [List.forall_mem_cons] at hlt
    unfold recycleDeleted DeletedSteps
    generalize (if block % blocksPerPage = 0 then false else pageRecycled) = recycled
    dsimp only
    by_cases hc : v.table block = MBFS_DELETED ∧ recycled = false
    · rw [if_pos hc, if_pos hc]
      obtain ⟨u, hu, hulast, hut, hentry⟩ := recycleBlock_entries hL hv.last hv.tabled hlt.1
      obtain ⟨w, hw, hwt, hkeep, hiff⟩ := ih u true ⟨hulast, hut⟩ hlt.2
      have hue := hentry e he
      rw [forall_ok_iff hu, hu]
      refine ⟨w, hw, hwt, fun hne => ?_, fun hr => ?_⟩
      · rw [if_neg fun h => hne h.2] at hue
        rw [← hue]
        exact hkeep (hue ▸ hne)
      · by_cases hstay : StaysFree e v block
        · refine (hiff ?_).trans (and_iff_right hstay).symm
          change u.table e = MBFS_UNUSED ∨ u.table e = MBFS_DELETED
          rw [hue]
          split
          · rename_i hpage
            exact hstay hpage.1 hpage.2
          · exact hr
        · refine iff_of_false (fun hw' => ?_) fun h => hstay h.1
          obtain ⟨hpage, hdel, hno⟩ : L.getPage (e / 128) = L.getPage block ∧ v.table e = MBFS_DELETED ∧
              ¬(v.replacement e = MBFS_UNUSED ∨ v.replacement e = MBFS_DELETED) := by
            unfold StaysFree at hstay
            push Not at hstay
            simpa using hstay
          rw [if_pos ⟨hpage, hdel⟩] at hue
          have hwe : w.table e = v.replacement e := (hkeep (hue ▸ fun h => hno (Or.inr h))).trans hue
          exact hno (hw'.imp (fun h => hwe.symm.trans h) fun h => hwe.symm.trans h)
    · rw [if_neg hc, if_neg hc]
      exact ih v recycled hv hlt.2

/-- The second loop, on pages that are refreshed once each. -/
theorem recycleTable_entry (hL : L.Sound) (he : e < 128 * L.fileSystemTableSize) (blocks : List Nat) :
    ∀ v : Volume L, v.Tidy → (∀ b ∈ blocks, b < L.fileSystemSize) → (blocks.map L.getPage).Nodup →
      ∃ w, v.recycleTable blocks = .ok w ∧ w.Tidy ∧ (v.table e ≠ MBFS_DELETED → w.table e = v.table e) ∧
        (L.getPage (e / 128) ∉ blocks.map L.getPage → w.table e = v.table e ∧ TableSteps (GetsFree e) v blocks) ∧
        (L.getPage (e / 128) ∈ blocks.map L.getPage → L.Reusable v.flash e →
          (w.table e = MBFS_UNUSED ↔ TableSteps (GetsFree e) v blocks)) := by
  induction blocks with
  | nil => exact fun v hv _ _ => ⟨v, rfl, hv, fun _ => rfl, fun _ => ⟨rfl, .nil v⟩, fun h => absurd h List.not_mem_nil⟩
  | cons block blocks ih =>
    intro v hv hlt hnodup
    rw [List.forall_mem_cons] at hlt
    rw [List.map_cons, List.nodup_cons] at hnodup
    obtain ⟨u, hu, hulast, hut, hentry⟩ := recycleBlock_entries hL hv.last hv.tabled hlt.1
    obtain ⟨w, hw, hwt, hkeep, hout, hin⟩ := ih u ⟨hulast, hut⟩ hlt.2 hnodup.2
    have hue := hentry e he
    have hstep : TableSteps (GetsFree e) v (block :: blocks) ↔ _ := tableSteps_cons_iff hu
    refine ⟨w, ?_, hwt, fun hne => ?_, fun hno => ?_, fun hmem hr => ?_⟩
    · unfold recycleTable
      rw [hu]
      exact hw
    · rw [if_neg fun h => hne h.2] at hue
      rw [← hue]
      exact hkeep (hue ▸ hne)
    · rw [List.map_cons, List.mem_cons, not_or] at hno
      rw [if_neg fun h => hno.1 h.1] at hue
      obtain ⟨hsame, hsteps⟩ := hout hno.2
      exact ⟨hsame.trans hue, hstep.mpr ⟨fun h => absurd h hno.1, hsteps⟩⟩
    · by_cases hpage : L.getPage (e / 128) = L.getPage block
      · -- this is the one step at which the page of the entry is refreshed
        obtain ⟨hsame, hsteps⟩ := hout (by rw [hpage]; exact hnodup.1)
        rw [hstep, and_iff_left hsteps, hsame, hue]
        by_cases hdel : v.table e = MBFS_DELETED
        · rw [if_pos ⟨hpage, hdel⟩]
          exact ⟨fun h _ _ => h, fun h => h hpage hdel⟩
        · rw [if_neg fun h => hdel h.2]
          exact iff_of_true (hr.resolve_right hdel) fun _ h => absurd h hdel
      · rw [List.map_cons, List.mem_cons] at hmem
        rw [if_neg fun h => hpage h.1] at hue
        have hr' : L.Reusable u.flash e := hr.imp (fun h => hue.trans h) fun h => hue.trans h
        rw [hstep, hin (hmem.resolve_left hpage) hr']
        exact (and_iff_right fun h => absurd h hpage).symm

/-- Each page of the table is refreshed once by the second loop. -/
theorem tablePages_nodup (hL : L.Sound) : ((tablePages L).map L.getPage).Nodup := by
  have hpages : (tablePages L).Pairwise (· < ·) := by
    have hrange : ((List.range (2 ^ 16 / blocksPerPage)).map (· * blocksPerPage)).Pairwise (· < ·) := by
      rw [List.pairwise_map]
      exact List.pairwise_lt_range.imp fun h => Nat.mul_lt_mul_of_pos_right h (by decide)
    exact hrange.sublist (List.takeWhile_sublist _)
  have hmul : ∀ p ∈ tablePages L, p % 16 = 0 := by
    intro p hp
    obtain ⟨j, -, rfl⟩ := List.mem_map.mp ((List.takeWhile_sublist _).subset hp)
    rw [blocksPerPage_eq]
    exact Nat.mul_mod_left j 16
  refine List.pairwise_map.mpr (hpages.imp_of_mem fun ha hb hlt => ?_)
  rw [hL.getPage_eq, hL.getPage_eq]
  intro h
  have := getBlock_inj h
  have := hmul _ ha
  have := hmul _ hb
  omega

/-- `recycleFileTable` goes on with its second loop. -/
theorem recycleFileTable_eq (hu : v.recycleDeleted false (List.range L.fileSystemSize) = .ok u) :
    v.recycleFileTable = u.recycleTable (tablePages L) := by
  unfold recycleFileTable
  generalize tablePages L = pages
  rw [hu]
  rfl

/-- `recycleFileTable` makes an unused entry of a deleted one exactly if its steps do. -/
theorem recycleFileTable_freed_iff (hL : L.Sound) (hv : v.Tidy) (he : e < 128 * L.fileSystemTableSize)
    (hdel : v.table e = MBFS_DELETED) :
    ∃ w, v.recycleFileTable = .ok w ∧ (w.table e = MBFS_UNUSED ↔ v.EntryFreed e) := by
  obtain ⟨u, hu, hut, -, hfirst⟩ := recycleDeleted_entry hL he (List.range L.fileSystemSize) v false hv
    fun b hb => List.mem_range.mp hb
  obtain ⟨w, hw, -, hkeep, -, hsecond⟩ := recycleTable_entry hL he (tablePages L) u hut (mem_tablePages hL).1
    (tablePages_nodup hL)
  have hpage : L.getPage (e / 128) ∈ (tablePages L).map L.getPage :=
    List.mem_map.mpr ⟨_, (mem_tablePages hL).2 (e / 128) (by omega), hL.getPage_first _⟩
  have hfirst := hfirst (Or.inr hdel)
  refine ⟨w, (recycleFileTable_eq hu).trans hw, fun hfree => ?_, fun h => ?_⟩
  · -- an entry that is unused in the end was free in between
    have hr : L.Reusable u.flash e := by
      by_contra hno
      have hue := hkeep fun h => hno (Or.inr h)
      exact hno (Or.inl (hue.symm.trans hfree))
    exact ⟨hfirst.mp hr, (forall_ok_iff hu).mpr ((hsecond hpage hr).mp hfree)⟩
  · exact (hsecond hpage (hfirst.mpr h.deleted)).mpr (h.table u hu)

end Volume

end CodalMicrobit

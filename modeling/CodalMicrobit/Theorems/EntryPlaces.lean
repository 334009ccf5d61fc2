import CodalMicrobit.Lemmas.Directory
import CodalMicrobit.Theorems.FreeBlock

/-!
# Places for entries

`createFile` takes the first free entry of a directory, or the first one of a new block, and a block for the data. In a file
system with room for both, the entry is found under its name from then on: the entries in front of it are as they were, and
had other names.
-/

namespace CodalMicrobit

open Nor

namespace Volume

variable {L : Layout} {v w : Volume L} {m m' : Memory} {directory d : Nat} {file : List UInt8}

/-! ## A block -/

/-- The block is unused, and a scan that starts behind `last` comes to it before the end of the table. -/
def AheadOf (v : Volume L) (last b : Nat) : Prop :=
  b < L.fileSystemSize ∧ v.table b = MBFS_UNUSED ∧ (last < b ∨ last + 1 = L.fileSystemSize ∧ b < last)

instance (v : Volume L) (last b : Nat) : Decidable (v.AheadOf last b) :=
  inferInstanceAs (Decidable (_ ∧ _ ∧ (_ ∨ _ ∧ _)))

/-- The block is ahead of the one that was allocated last. -/
def Ahead (v : Volume L) (b : Nat) : Prop := v.AheadOf v.lastBlockAllocated b

instance (v : Volume L) (b : Nat) : Decidable (v.Ahead b) := inferInstanceAs (Decidable (v.AheadOf _ b))

/-- Recycling the file table loses nothing, whatever is on record. -/
def Lossless (v : Volume L) : Prop :=
  Tabled L v.flash ∧ ∀ history, ({ v with history } : Volume L).Steps fun u block => u.Refreshable block .FILE

/-- `getFreeBlock` can supply a block: there is an unused one ahead, or a deleted one, and recycling loses nothing. -/
def Supplies (v : Volume L) : Prop := (∃ b, v.Ahead b) ∨ v.NeedsRecycling ∧ v.Lossless

/-- `getFreeBlock` gives the first unused block ahead. -/
theorem getFreeBlock_ahead (hL : L.Sound) (h0 : v.table 0 ≠ MBFS_UNUSED) (h : ∃ b, v.Ahead b) :
    ∃ b, v.Ahead b ∧ b ≠ 0 ∧ (∀ c, v.Ahead c → b ≤ c) ∧ v.getFreeBlock = .ok (b, v.allocated b) := by
  have hsize := hL.size_lt
  obtain ⟨c, hc⟩ := h
  obtain ⟨b, -, hb, hfirst⟩ := exists_first ⟨c, Nat.lt_succ_self c, hc⟩
  have hle : ∀ c, v.Ahead c → b ≤ c := fun c hc => Nat.le_of_not_lt fun hlt => hfirst c hlt hc
  have hb0 : b ≠ 0 := by
    rintro rfl
    exact h0 hb.2.1
  refine ⟨b, hb, hb0, hle, ?_⟩
  obtain ⟨hlt, hu, hl | ⟨hl, hbl⟩⟩ := hb
  · have hstart : (v.lastBlockAllocated + 1) % L.fileSystemSize % 2 ^ 16 = v.lastBlockAllocated + 1 := by
      rw [Nat.mod_eq_of_lt (show v.lastBlockAllocated + 1 < _ by omega), Nat.mod_eq_of_lt (by omega)]
    obtain ⟨hrun, -⟩ := getFreeBlock_found hL hstart (n := b - (v.lastBlockAllocated + 1)) (by omega)
      (fun i hi => ⟨fun h => hfirst _ (by omega) ⟨by omega, h, Or.inl (by omega)⟩, by omega⟩) (by omega)
      (by rwa [Nat.add_sub_cancel' hl])
    rwa [Nat.add_sub_cancel' hl] at hrun
  · have hstart : (v.lastBlockAllocated + 1) % L.fileSystemSize % 2 ^ 16 = 0 := by rw [hl, Nat.mod_self, Nat.zero_mod]
    obtain ⟨hrun, -⟩ := getFreeBlock_found hL hstart (n := b) (by omega)
      (fun i hi => by
        rw [Nat.zero_add]
        exact ⟨fun h => hfirst i hi ⟨by omega, h, Or.inr ⟨hl, by omega⟩⟩, by omega⟩) (by omega) (by rwa [Nat.zero_add])
    rwa [Nat.zero_add] at hrun

/-- What is in use is kept when a block is supplied. -/
theorem getFreeBlock_supplied (hL : L.Sound) (h0 : v.table 0 ≠ MBFS_UNUSED) (h : v.Supplies) :
    ∃ b w, v.getFreeBlock = .ok (b, w) ∧ b ≠ 0 ∧ b < L.fileSystemSize ∧ L.Reusable w.flash b ∧
      Kept L none v.flash w.flash := by
  rcases h with h | ⟨⟨hlast, hpass, c, hc0, hc, hdel⟩, ht, hsteps⟩
  · obtain ⟨b, hb, hb0, -, hrun⟩ := getFreeBlock_ahead hL h0 h
    exact ⟨b, _, hrun, hb0, hb.1, Or.inl hb.2.1, .refl L none _⟩
  · obtain ⟨-, deleted, hd, hnone, hrun⟩ := getFreeBlock_full hL hlast hpass
    have hne : deleted ≠ 0 := fun h => hnone h c hc hc0 hdel
    have hd := hd hne
    have hlt := hd.lt
    rw [if_neg hne] at hrun
    obtain ⟨w, hw, hk⟩ := recycleFileTable_kept (v := v.note (.block deleted v.flash)) hL
      (show v.lastBlockAllocated < L.fileSystemSize by omega) ht (hsteps _)
    rw [hw] at hrun
    exact ⟨deleted, _, hrun, hne, by omega,
      (hk.reusable_iff hL (show deleted < L.fileSystemSize by omega)).mpr (Or.inr hd.deleted), hk⟩

/-! ## What recycling keeps -/

/-- What recycling keeps of an entry in a block in use. -/
theorem Kept.slot {dir : Option Nat} (hk : Kept L dir m m') {b : Nat} (hb : b < L.fileSystemSize)
    (htb : L.fileSystemTableSize ≤ b) (hl : ¬L.Reusable m b) (hd : d ∈ L.entries b) :
    (∀ k < 24, m' (d + k) = m (d + k)) ∨ dir = some b ∧ isValid m d = false ∧ ∀ k < 24, m' (d + k) = blank := by
  obtain ⟨i, hi, rfl⟩ := mem_entries.mp hd
  by_cases hbc : dir = some b
  · exact (hk.directory b hb hbc hl i hi).imp_right fun ⟨hinvalid, hblank⟩ => ⟨hbc, hinvalid, hblank⟩
  · refine Or.inl fun k hk24 => ?_
    rw [Nat.add_assoc]
    exact hk.content b hb htb hl hbc _ (by omega)

/-- What recycling keeps of the table entry of a block in use. -/
theorem Kept.table_eq (hL : L.Sound) {dir : Option Nat} (hk : Kept L dir m m') {c : Nat} (hc : c < L.fileSystemSize)
    (hl : ¬L.Reusable m c) : L.getNextFileBlock m' c = L.getNextFileBlock m c := by
  rcases hk.entries c (hL.entry_lt hc) with he | ⟨he, -⟩
  · exact he
  · exact absurd (Or.inr he) hl

/-! ## Chains -/

/-- The blocks of a chain are in use. -/
theorem isChain_live (hL : L.Sound) (bs : List Nat) : ∀ b : Nat, L.IsChain m (b :: bs) →
    (∀ c ∈ b :: bs, L.fileSystemTableSize ≤ c ∧ c < L.fileSystemSize) → ∀ c ∈ b :: bs, ¬L.Reusable m c := by
  have hpos := hL.entry_lt hL.table_lt
  have hsize := hL.size_le
  have hend : ∀ c, L.getNextFileBlock m c = MBFS_EOF → ¬L.Reusable m c := by
    rintro c hc (h | h) <;> rw [hc] at h <;> nomatch h
  induction bs with
  | nil =>
    intro b hchain _ c hc
    rw [List.mem_singleton.mp hc]
    exact hend b hchain
  | cons b' bs ih =>
    intro b hchain hin
    obtain ⟨hnext, -, hrest⟩ := hchain
    rw [List.forall_mem_cons] at hin ⊢
    refine ⟨?_, ih b' hrest hin.2⟩
    have hb' := hin.2 b' List.mem_cons_self
    rintro (h | h) <;> rw [hnext] at h
    · rw [h] at hb'
      exact absurd (hb'.2.trans_le hsize) (by decide)
    · rw [h] at hb'
      unfold MBFS_DELETED at hb'
      omega

/-- A chain depends on the table's entries of its blocks only. -/
theorem isChain_congr (bs : List Nat) : ∀ b : Nat, L.IsChain m (b :: bs) →
    (∀ c ∈ b :: bs, L.getNextFileBlock m' c = L.getNextFileBlock m c) → L.IsChain m' (b :: bs) := by
  induction bs with
  | nil => exact fun b hchain h => (h b List.mem_cons_self).trans hchain
  | cons b' bs ih =>
    intro b hchain h
    rw [List.forall_mem_cons] at h
    exact ⟨h.1.trans hchain.1, hchain.2.1, ih b' hchain.2.2 h.2⟩

/-- Following the table from the first block gives the chain. -/
theorem chain_of_isChain (bs : List Nat) : ∀ b fuel : Nat, L.IsChain m (b :: bs) → bs.length < fuel →
    L.chain m b fuel = b :: bs := by
  induction bs with
  | nil =>
    intro b fuel hchain hfuel
    obtain ⟨fuel, rfl⟩ : ∃ f, fuel = f + 1 := ⟨fuel - 1, by omega⟩
    have hend : L.getNextFileBlock m b = MBFS_EOF := hchain
    rw [Layout.chain, if_pos hend]
  | cons b' bs ih =>
    intro b fuel hchain hfuel
    obtain ⟨fuel, rfl⟩ : ∃ f, fuel = f + 1 := ⟨fuel - 1, by omega⟩
    obtain ⟨hnext, hne, hrest⟩ := hchain
    rw [Layout.chain, hnext, if_neg hne, ih b' fuel hrest (Nat.lt_of_succ_lt_succ hfuel)]

/-- A chain goes on from one of its blocks with another one, which ends it. -/
theorem isChain_branch {last n : Nat} {post : List Nat} (hn : n ≠ MBFS_EOF) (hlast : L.getNextFileBlock m' last = n)
    (hend : L.getNextFileBlock m' n = MBFS_EOF) (pre : List Nat) : L.IsChain m (pre ++ last :: post) →
      (∀ c ∈ pre, L.getNextFileBlock m' c = L.getNextFileBlock m c) → L.IsChain m' (pre ++ [last, n]) := by
  induction pre with
  | nil => exact fun _ _ => ⟨hlast, hn, hend⟩
  | cons b pre ih =>
    intro hchain h
    rw [List.forall_mem_cons] at h
    cases pre with
    | nil => exact ⟨h.1.trans hchain.1, hchain.2.1, hlast, hn, hend⟩
    | cons b' pre => exact ⟨h.1.trans hchain.1, hchain.2.1, ih hchain.2.2 h.2⟩

/-- A chain to the end of which a block is added. -/
theorem isChain_concat {b n : Nat} {bs : List Nat} (hn : n ≠ MBFS_EOF) (hend : L.getNextFileBlock m' n = MBFS_EOF)
    (hchain : L.IsChain m (b :: bs)) (hnodup : (b :: bs).Nodup) (h : ∀ c ∈ b :: bs, L.getNextFileBlock m' c =
      if c = (b :: bs).getLast (List.cons_ne_nil b bs) then n else L.getNextFileBlock m c) :
    L.IsChain m' (b :: (bs ++ [n])) := by
  have hsplit := List.dropLast_append_getLast (List.cons_ne_nil b bs)
  generalize (b :: bs).getLast (List.cons_ne_nil b bs) = last at h hsplit
  have hlong : b :: (bs ++ [n]) = (b :: bs).dropLast ++ [last, n] := by
    rw [← List.cons_append, ← hsplit]
    simp
  rw [← hsplit] at hchain hnodup h
  obtain ⟨-, -, hdisj⟩ := List.nodup_append'.mp hnodup
  rw [hlong]
  refine isChain_branch hn ?_ hend _ hchain fun c hc => ?_
  · rw [h last (List.mem_append_right _ List.mem_cons_self), if_pos rfl]
  · have hne : c ≠ last := fun heq => hdisj hc (heq ▸ List.mem_cons_self)
    rw [h c (List.mem_append_left _ hc), if_neg hne]

/-! ## The place of an entry -/

/-- The entry is one of a directory with the blocks `b :: bs`. The entries `before` are in front of it, and have other names. -/
structure Place (L : Layout) (m : Memory) (directory d : Nat) (file : List UInt8) (b : Nat) (bs before after : List Nat) :
    Prop where
  first : firstBlockAt m directory = b
  chain : L.IsChain m (b :: bs)
  inside : ∀ c ∈ b :: bs, L.fileSystemTableSize ≤ c ∧ c < L.fileSystemSize
  short : bs.length < blockNumbers
  entries : (b :: bs).flatMap L.entries = before ++ d :: after
  apart : d ∉ before
  others : ∀ e ∈ before, (isValid m e && nameIs m e file) = false
  home : ∃ c < L.fileSystemSize, L.fileSystemTableSize ≤ c ∧ ¬L.Reusable m c ∧ directory ∈ L.entries c
  ne : directory ≠ d

section

variable {b : Nat} {bs before after : List Nat}

/-- The entries around the place lie in the directory's blocks. -/
theorem Place.slot_of_mem (h : Place L m directory d file b bs before after) {e : Nat} (he : e ∈ before ++ d :: after) :
    ∃ c ∈ b :: bs, e ∈ L.entries c := by
  rw [← h.entries] at he
  exact List.mem_flatMap.mp he

/-- The place and what is around it are slots. -/
theorem Place.slots (h : Place L m directory d file b bs before after) :
    L.Slot directory ∧ L.Slot d ∧ ∀ e ∈ before, L.Slot e := by
  have hslot : ∀ e ∈ before ++ d :: after, L.Slot e := fun e he => by
    obtain ⟨c, hc, he⟩ := h.slot_of_mem he
    exact entries_slot (h.inside c hc).1 (h.inside c hc).2 he
  obtain ⟨c, hc, htc, -, hd⟩ := h.home
  exact ⟨entries_slot htc hc hd, hslot d (List.mem_append_right _ List.mem_cons_self),
    fun e he => hslot e (List.mem_append_left _ he)⟩

/-- What matters for the place is the table, the directory's own entry and the entries in front. -/
theorem Place.congr (hL : L.Sound) (h : Place L m directory d file b bs before after) (hfile : file.length ≤ 15)
    (htable : ∀ c < L.fileSystemSize, ¬L.Reusable m c → L.getNextFileBlock m' c = L.getNextFileBlock m c)
    (hslot : ∀ e c, c < L.fileSystemSize → L.fileSystemTableSize ≤ c → ¬L.Reusable m c → e ∈ L.entries c → e ≠ d →
      ∀ k < 24, m' (e + k) = m (e + k)) : Place L m' directory d file b bs before after := by
  have hlive := isChain_live hL bs b h.chain h.inside
  obtain ⟨c, hc, htc, hl, hd⟩ := h.home
  refine ⟨?_, isChain_congr bs b h.chain fun c hc => htable c (h.inside c hc).2 (hlive c hc), h.inside, h.short, h.entries,
    h.apart, fun e he => ?_, ⟨c, hc, htc, ?_, hd⟩, h.ne⟩
  · rw [firstBlockAt_congr (hslot directory c hc htc hl hd h.ne)]
    exact h.first
  · obtain ⟨c, hc, hec⟩ := h.slot_of_mem (List.mem_append_left _ he)
    have hsame := hslot e c (h.inside c hc).2 (h.inside c hc).1 (hlive c hc) hec fun hed => h.apart (hed ▸ he)
    rw [isValid_congr hsame, nameIs_congr hfile hsame]
    exact h.others e he
  · unfold Layout.Reusable
    rw [htable c hc hl]
    exact hl

/-- The entry is written, -/
theorem Place.flashWrite (hL : L.Sound) (h : Place L v.flash directory d file b bs before after) (hfile : file.length ≤ 15)
    {bytes : List UInt8} (hbytes : bytes.length = 24) :
    Place L (v.flashWrite d bytes).flash directory d file b bs before after :=
  h.congr hL hfile (fun _ hc _ => flashWrite_slot_table hL v h.slots.2.1 hbytes hc) fun _ _ hc htc _ he hne _ hk =>
    flashWrite_slot_other hL v h.slots.2.1 hbytes (entries_slot htc hc he) hne hk

/-- a block that is not in use gets an entry in the table, -/
theorem Place.fileTableWrite (hL : L.Sound) (h : Place L v.flash directory d file b bs before after)
    (hfile : file.length ≤ 15) {n value : Nat} (hn : n < L.fileSystemSize) (hr : L.Reusable v.flash n)
    (hv : value < 2 ^ 16) : Place L (v.fileTableWrite n value).flash directory d file b bs before after := by
  refine h.congr hL hfile (fun c hc hl => ?_) fun _ _ hc htc _ he _ _ hk =>
    fileTableWrite_slot hL v hn value (entries_slot htc hc he) hk
  have hne : c ≠ n := by
    rintro rfl
    exact hl hr
  exact (fileTableWrite_table hL v hn hc hv).trans (if_neg hne)

/-- or something is recycled. -/
theorem Place.kept (hL : L.Sound) (h : Place L m directory d file b bs before after) (hfile : file.length ≤ 15)
    (hk : Kept L none m m') : Place L m' directory d file b bs before after :=
  h.congr hL hfile (fun _ hc hl => hk.table_eq hL hc hl) fun _ _ hc htc hl he _ =>
    (hk.slot hc htc hl he).resolve_right fun h => nomatch h.1

/-- With the name in it, it is the entry that is found. -/
theorem Place.found (h : Place L v.flash directory d file b bs before after) (hv : isValid v.flash d = true)
    (hn : nameIs v.flash d file = true) : v.findEntry file (firstBlockAt v.flash directory) blockNumbers = .ok (some d) := by
  rw [h.first, findEntry_eq v file bs b blockNumbers h.chain h.short, h.entries, List.find?_append,
    List.find?_eq_none.mpr fun e he => Bool.eq_false_iff.mp (h.others e he), Option.none_or, List.find?_cons_of_pos]
  rw [hv, hn]
  rfl

end

/-! ## Choosing an entry -/

/-- There is a place for a new entry in a directory, and a block for its data. -/
inductive Space (v : Volume L) (directory : Nat) : Prop where
  /-- There is a free entry, and a block can be supplied. -/
  | free (hfree : ∃ d ∈ L.directoryEntries v.flash directory, isFree v.flash d = true) (h : v.Supplies)
  /-- There is none, but a deleted one. Its block can be recycled, and a block can be supplied then. -/
  | deleted (hn : ∀ d ∈ L.directoryEntries v.flash directory, isFree v.flash d = false) (d c : Nat)
      (hd : (L.directoryEntries v.flash directory).find? (fun d => !isValid v.flash d) = some d) (hc : d ∈ L.entries c)
      (hlast : v.lastBlockAllocated < L.fileSystemSize) (h : v.Refreshable c .DIRECTORY)
      (hnext : ∀ w, v.recycleBlock c .DIRECTORY = .ok w → w.Supplies)
  /-- All entries are in use. A block can be supplied for more, and another one when the directory is extended. -/
  | full (hused : ∀ d ∈ L.directoryEntries v.flash directory, isFree v.flash d = false ∧ isValid v.flash d = true)
      (h : v.Supplies) (hnext : ∀ d w, v.extendDirectory directory = .ok (d, w) → w.Supplies)

/-- There is room for a new entry in a directory, in a file system that is well formed. `entries` are the valid entries of all
directories. -/
structure Room (v : Volume L) (entries : List Nat) (directory : Nat) : Prop where
  invariant : v.TableInvariant entries
  listed : directory ∈ entries
  home : ∃ c < L.fileSystemSize, L.fileSystemTableSize ≤ c ∧ v.Live c ∧ directory ∈ L.entries c
  used : isFree v.flash directory = false
  space : v.Space directory

variable {entries : List Nat}

/-- The blocks of a directory. -/
theorem TableInvariant.chain (hL : L.Sound) (h : v.TableInvariant entries) (hd : directory ∈ entries) :
    ∃ bs, L.IsChain v.flash (firstBlockAt v.flash directory :: bs) ∧ (firstBlockAt v.flash directory :: bs).Nodup ∧
      (∀ c ∈ firstBlockAt v.flash directory :: bs, L.fileSystemTableSize ≤ c ∧ c < L.fileSystemSize) ∧
      bs.length + 1 < L.fileSystemSize := by
  have hpos := hL.entry_lt hL.table_lt
  have hlt := hL.table_lt
  have hnodup := (List.nodup_flatMap.mp h.apart).1 directory hd
  have hin := fun c hc => h.inside c (List.mem_flatMap.mpr ⟨directory, hd, hc⟩)
  have hlen : (L.chain v.flash (firstBlockAt v.flash directory) L.fileSystemSize).length ≤
      L.fileSystemSize - L.fileSystemTableSize := by
    have hsub : L.chain v.flash (firstBlockAt v.flash directory) L.fileSystemSize ⊆
        List.range' L.fileSystemTableSize (L.fileSystemSize - L.fileSystemTableSize) := fun c hc => by
      have := hin c hc
      rw [List.mem_range'_1]
      omega
    have := (List.subperm_of_subset hnodup hsub).length_le
    rwa [List.length_range'] at this
  obtain ⟨bs, hbs, hchain⟩ := chain_isChain (L := L) v.flash L.fileSystemSize (firstBlockAt v.flash directory) (by omega)
  rw [hbs] at hnodup hin hlen
  rw [List.length_cons] at hlen
  exact ⟨bs, hchain, hnodup, hin, by omega⟩

/-- The first block belongs to the table. -/
theorem TableInvariant.zero (hL : L.Sound) (h : v.TableInvariant entries) : v.table 0 ≠ MBFS_UNUSED := by
  have hpos := hL.entry_lt hL.table_lt
  have hlt := hL.table_lt
  have hsize := hL.size_le
  rw [h.table 0 (by omega)]
  unfold MBFS_UNUSED
  unfold MBFS_EOF at hsize
  omega

/-- An entry lies in one block. -/
theorem entries_inj {b c e : Nat} (hb : e ∈ L.entries b) (hc : e ∈ L.entries c) : b = c := by
  obtain ⟨i, hi, rfl⟩ := mem_entries.mp hb
  obtain ⟨j, hj, h⟩ := mem_entries.mp hc
  unfold Layout.getBlock MBFS_BLOCK_SIZE at h
  omega

/-- A free entry is chosen as it is. -/
theorem chooseEntry_free (hL : L.Sound) (h : v.Room entries directory)
    (hnone : v.findEntry file (firstBlockAt v.flash directory) blockNumbers = .ok none)
    (hfree : ∃ d ∈ L.directoryEntries v.flash directory, isFree v.flash d = true) :
    ∃ d b bs before after, v.chooseEntry directory = .ok (some d, v) ∧
      Place L v.flash directory d file b bs before after := by
  have hsize := hL.size_lt
  obtain ⟨bs, hchain, -, hin, hlen⟩ := h.invariant.chain hL h.listed
  have hshort : bs.length < blockNumbers := by
    unfold blockNumbers
    omega
  rw [findEntry_eq v file bs _ blockNumbers hchain hshort] at hnone
  have hothers := List.find?_eq_none.mp (Except.ok.inj hnone)
  obtain ⟨e, he, hef⟩ := hfree
  unfold Layout.directoryEntries at he
  rw [chain_of_isChain bs _ blockNumbers hchain hshort] at he
  obtain ⟨d, hd⟩ := Option.isSome_iff_exists.mp (List.find?_isSome.mpr ⟨e, he, hef⟩)
  obtain ⟨invalid, hscan, -⟩ := scanDirectory_eq v bs _ blockNumbers none hchain hshort
  rw [hd] at hscan
  obtain ⟨hdf, before, after, hsplit, hbefore⟩ := List.find?_eq_some_iff_append.mp hd
  refine ⟨d, _, bs, before, after, ?_, rfl, hchain, hin, hshort, hsplit, fun hm => ?_, fun e he => ?_, h.home, ?_⟩
  · unfold chooseEntry
    rw [hscan]
    rfl
  · have := hbefore d hm
    rw [hdf] at this
    nomatch this
  · exact Bool.eq_false_iff.mpr (hothers e (by rw [hsplit]; exact List.mem_append_left _ he))
  · rintro rfl
    rw [h.used] at hdf
    nomatch hdf

/-- The table when a block was added to the end of a chain. -/
theorem append_table (hL : L.Sound) (v : Volume L) {last n e : Nat} (hlast : last < L.fileSystemSize)
    (hn : n < L.fileSystemSize) (he : e < L.fileSystemSize) :
    ((v.fileTableWrite last n).fileTableWrite n MBFS_EOF).table e =
      if e = n then MBFS_EOF else if e = last then n else v.table e := by
  have hsize := hL.size_lt
  rw [fileTableWrite_table hL _ hn he (by decide), fileTableWrite_table hL _ hlast he (by omega)]

/-- Linking a block leaves the entries of directories alone. -/
theorem append_slot (hL : L.Sound) (v : Volume L) {last n e k : Nat} (hlast : last < L.fileSystemSize)
    (hn : n < L.fileSystemSize) (he : L.Slot e) (hk : k < 24) :
    ((v.fileTableWrite last n).fileTableWrite n MBFS_EOF).flash (e + k) = v.flash (e + k) := by
  rw [fileTableWrite_slot hL _ hn _ he hk, fileTableWrite_slot hL _ hlast _ he hk]

/-- The first entry of the new block has its place behind all others. -/
theorem Place.append (hL : L.Sound) {b n : Nat} {bs : List Nat} (hfile : file.length ≤ 15)
    (hb : firstBlockAt v.flash directory = b) (hchain : L.IsChain v.flash (b :: bs)) (hnodup : (b :: bs).Nodup)
    (hin : ∀ c ∈ b :: bs, L.fileSystemTableSize ≤ c ∧ c < L.fileSystemSize) (hlen : bs.length + 1 < L.fileSystemSize)
    (hothers : ∀ e ∈ (b :: bs).flatMap L.entries, (isValid v.flash e && nameIs v.flash e file) = false)
    (hhome : ∃ c < L.fileSystemSize, L.fileSystemTableSize ≤ c ∧ v.Live c ∧ directory ∈ L.entries c)
    (hn : L.fileSystemTableSize ≤ n ∧ n < L.fileSystemSize) (hu : L.Reusable v.flash n) :
    Place L ((v.fileTableWrite ((b :: bs).getLast (List.cons_ne_nil b bs)) n).fileTableWrite n MBFS_EOF).flash directory
      (L.getBlock n) file b (bs ++ [n]) ((b :: bs).flatMap L.entries) (L.entries n).tail := by
  have hsize := hL.size_le
  have hsize' := hL.size_lt
  have hpos := hL.entry_lt hL.table_lt
  have hnlt := hn.2
  have hnlive : n ∉ b :: bs := fun hmem => isChain_live hL bs b hchain hin n hmem hu
  have hlast := (hin _ (List.getLast_mem (List.cons_ne_nil b bs))).2
  have hslot := fun e he k hk => append_slot (e := e) (k := k) hL v hlast hnlt he hk
  have hentries : L.entries n = L.getBlock n :: (L.entries n).tail := rfl
  obtain ⟨r, hr, htr, hrl, hd⟩ := hhome
  have hrn : r ≠ n := by
    rintro rfl
    exact hrl hu
  refine ⟨?_, ?_, fun e he => ?_, ?_, ?_, fun he => ?_, fun e he => ?_, ⟨r, hr, htr, ?_, hd⟩, ?_⟩
  · rw [firstBlockAt_congr (hslot directory (entries_slot htr hr hd))]
    exact hb
  · refine isChain_concat (by omega) ((append_table hL v hlast hnlt hnlt).trans (if_pos rfl)) hchain hnodup
      fun e he => ?_
    have hne : e ≠ n := fun heq => hnlive (heq ▸ he)
    exact (append_table hL v hlast hnlt (hin e he).2).trans (if_neg hne)
  · rw [← List.cons_append, List.mem_append, List.mem_singleton] at he
    rcases he with he | rfl
    · exact hin e he
    · exact hn
  · rw [List.length_append, List.length_singleton]
    unfold blockNumbers
    omega
  · rw [← List.cons_append, List.flatMap_append, ← hentries, List.flatMap_singleton]
  · obtain ⟨e, he, hd⟩ := List.mem_flatMap.mp he
    have hen := entries_inj hd (hentries ▸ List.mem_cons_self)
    exact hnlive (hen ▸ he)
  · obtain ⟨a, ha, hea⟩ := List.mem_flatMap.mp he
    have hsame := hslot e (entries_slot (hin a ha).1 (hin a ha).2 hea)
    rw [isValid_congr hsame, nameIs_congr hfile hsame]
    exact hothers e he
  · have hlook : L.getNextFileBlock _ r = _ := append_table hL v hlast hnlt hr
    rw [if_neg hrn] at hlook
    rintro (h | h) <;> rw [hlook] at h <;> split at h
    · unfold MBFS_UNUSED at h
      omega
    · exact hrl (Or.inl h)
    · unfold MBFS_DELETED at h
      omega
    · exact hrl (Or.inr h)
  · rintro rfl
    exact hrn (entries_inj hd (hentries ▸ List.mem_cons_self))

/-- The blocks of the table are in use. -/
theorem TableInvariant.tabled (hL : L.Sound) (h : v.TableInvariant entries) : Tabled L v.flash := by
  intro b hb hr
  have htb := h.table b hb
  have := hL.table_lt
  have := hL.size_le
  rcases hr with hr | hr <;> rw [show L.getNextFileBlock v.flash b = _ from htb] at hr
  · unfold MBFS_UNUSED at hr
    unfold MBFS_EOF at this
    omega
  · unfold MBFS_DELETED at hr
    omega

/-- Where all entries are in use, the directory is extended with a new block. -/
theorem chooseEntry_extended (hL : L.Sound) (h : v.Room entries directory) (hfile : file.length ≤ 15)
    (hnone : v.findEntry file (firstBlockAt v.flash directory) blockNumbers = .ok none)
    (hused : ∀ d ∈ L.directoryEntries v.flash directory, isFree v.flash d = false ∧ isValid v.flash d = true)
    (hs : v.Supplies) (hnext : ∀ d w, v.extendDirectory directory = .ok (d, w) → w.Supplies) :
    ∃ d w b bs before after, v.chooseEntry directory = .ok (some d, w) ∧
      Place L w.flash directory d file b bs before after ∧ w.table 0 ≠ MBFS_UNUSED ∧ w.Supplies := by
  have hsize := hL.size_lt
  have hpos := hL.entry_lt hL.table_lt
  have ht := h.invariant.tabled hL
  obtain ⟨bs, hchain, hnodup, hin, hlen⟩ := h.invariant.chain hL h.listed
  have hlive := isChain_live hL bs _ hchain hin
  have hshort : bs.length < blockNumbers := by
    unfold blockNumbers
    omega
  unfold Layout.directoryEntries at hused
  rw [chain_of_isChain bs _ blockNumbers hchain hshort] at hused
  rw [findEntry_eq v file bs _ blockNumbers hchain hshort] at hnone
  have hothers := List.find?_eq_none.mp (Except.ok.inj hnone)
  obtain ⟨invalid, hscan, hinvalid⟩ := scanDirectory_eq v bs _ blockNumbers none hchain hshort
  have hallvalid : ((firstBlockAt v.flash directory :: bs).flatMap L.entries).find? (fun d => !isValid v.flash d) = none :=
    List.find?_eq_none.mpr fun d hd => by
      rw [(hused d hd).2]
      exact Bool.false_ne_true
  rw [hinvalid fun d hd => (hused d hd).1, hallvalid,
    List.find?_eq_none.mpr fun d hd => Bool.eq_false_iff.mp (hused d hd).1] at hscan
  -- a block is supplied, and what is in use is kept
  obtain ⟨n, u, hrun, hn0, hnlt, hu, hk⟩ := getFreeBlock_supplied hL (h.invariant.zero hL) hs
  have htn : L.fileSystemTableSize ≤ n := Nat.le_of_not_lt fun hlt => hk.tabled hL ht n hlt hu
  have hslot : ∀ {c}, c < L.fileSystemSize → L.fileSystemTableSize ≤ c → ¬L.Reusable v.flash c → ∀ e ∈ L.entries c,
      ∀ k < 24, u.flash (e + k) = v.flash (e + k) := fun hc htc hl e he =>
    (hk.slot hc htc hl he).resolve_right fun h => nomatch h.1
  obtain ⟨r, hr, htr, hrl, hdr⟩ := h.home
  have hfirst : firstBlockAt u.flash directory = firstBlockAt v.flash directory :=
    firstBlockAt_congr (hslot hr htr hrl directory hdr)
  have hchain' : L.IsChain u.flash (firstBlockAt v.flash directory :: bs) :=
    isChain_congr bs _ hchain fun c hc => hk.table_eq hL (hin c hc).2 (hlive c hc)
  have hplace := Place.append (v := u) hL hfile hfirst hchain' hnodup hin hlen
    (fun e he => by
      obtain ⟨c, hc, hec⟩ := List.mem_flatMap.mp he
      have hsame := hslot (hin c hc).2 (hin c hc).1 (hlive c hc) e hec
      rw [isValid_congr hsame, nameIs_congr hfile hsame]
      exact Bool.eq_false_iff.mpr (hothers e he))
    ⟨r, hr, htr, fun hur => hrl ((hk.reusable_iff hL hr).mp hur), hdr⟩ ⟨htn, hnlt⟩ hu
  have hlast := lastBlock_eq u bs _ blockNumbers hchain' hshort
  have hmem := List.getLast_mem (List.cons_ne_nil (firstBlockAt v.flash directory) bs)
  generalize (firstBlockAt v.flash directory :: bs).getLast _ = last at hlast hmem hplace
  have hlastlt := (hin last hmem).2
  have hextend : v.extendDirectory directory =
      .ok (some (L.getBlock n), (u.fileTableWrite last n).fileTableWrite n MBFS_EOF) := by
    unfold extendDirectory
    rw [hrun]
    change (if n = 0 then _ else u.lastBlock (firstBlockAt u.flash directory) blockNumbers >>= _) = _
    rw [if_neg hn0, hfirst, hlast]
    rfl
  refine ⟨_, _, _, _, _, _, ?_, hplace, ?_, hnext _ _ hextend⟩
  · unfold chooseEntry
    rw [hscan]
    exact hextend
  · have hlast0 := (hin last hmem).1
    rw [append_table hL _ hlastlt hnlt (by omega), if_neg (Ne.symm hn0), if_neg (by omega)]
    exact fun h0 => hk.tabled hL ht 0 (by omega) (Or.inl h0)

/-- The block of an entry is found by its address. -/
theorem getBlockNumber_entry (hL : L.Sound) {c : Nat} (hc : c < L.fileSystemSize) (hd : d ∈ L.entries c) :
    L.getBlockNumber d = c := by
  have hsize := hL.size_lt
  obtain ⟨i, hi, rfl⟩ := mem_entries.mp hd
  unfold Layout.getBlockNumber Layout.getBlock MBFS_BLOCK_SIZE
  rw [show L.fileSystemTable + c * 256 + 24 * i + 2 ^ 32 - L.fileSystemTable = c * 256 + 24 * i + 2 ^ 32 by omega,
    Nat.add_mod_right, Nat.mod_eq_of_lt (show c * 256 + 24 * i < 2 ^ 32 by omega), Nat.mul_comm,
    Nat.mul_add_div (by decide), Nat.div_eq_of_lt (show 24 * i < 256 by omega), Nat.add_zero]
  exact Nat.mod_eq_of_lt (by omega)

/-- Where no entry is free but one is deleted, its block is recycled. -/
theorem chooseEntry_deleted (hL : L.Sound) (h : v.Room entries directory) (hfile : file.length ≤ 15)
    (hnone : v.findEntry file (firstBlockAt v.flash directory) blockNumbers = .ok none)
    (hn : ∀ d ∈ L.directoryEntries v.flash directory, isFree v.flash d = false) {c : Nat}
    (hd : (L.directoryEntries v.flash directory).find? (fun d => !isValid v.flash d) = some d) (hc : d ∈ L.entries c)
    (hlast : v.lastBlockAllocated < L.fileSystemSize) (href : v.Refreshable c .DIRECTORY) :
    ∃ w b bs before after, v.chooseEntry directory = .ok (some d, w) ∧ v.recycleBlock c .DIRECTORY = .ok w ∧
      Place L w.flash directory d file b bs before after ∧ w.table 0 ≠ MBFS_UNUSED := by
  have hsize := hL.size_lt
  obtain ⟨bs, hchain, -, hin, hlen⟩ := h.invariant.chain hL h.listed
  have hlive := isChain_live hL bs _ hchain hin
  have hshort : bs.length < blockNumbers := by
    unfold blockNumbers
    omega
  unfold Layout.directoryEntries at hn hd
  rw [chain_of_isChain bs _ blockNumbers hchain hshort] at hn hd
  rw [findEntry_eq v file bs _ blockNumbers hchain hshort] at hnone
  have hothers := List.find?_eq_none.mp (Except.ok.inj hnone)
  obtain ⟨invalid, hscan, hinvalid⟩ := scanDirectory_eq v bs _ blockNumbers none hchain hshort
  rw [hinvalid hn, hd, List.find?_eq_none.mpr fun d hd => Bool.eq_false_iff.mp (hn d hd)] at hscan
  obtain ⟨hdv, before, after, hsplit, hbefore⟩ := List.find?_eq_some_iff_append.mp hd
  have hbv : ∀ e ∈ before, isValid v.flash e = true := fun e he => by simpa using hbefore e he
  -- the block of the entry is one of the directory
  obtain ⟨c', hc', hdc⟩ := List.mem_flatMap.mp (List.mem_of_find?_eq_some hd)
  obtain rfl := entries_inj hc hdc
  have ht := h.invariant.tabled hL
  obtain ⟨w, hrun, hk⟩ := (recycleBlock_kept_iff hL hlast ht (hin c hc').2 fun _ => (hin c hc').1).mpr href
  have htable : ∀ b < L.fileSystemSize, ¬L.Reusable v.flash b → w.table b = v.table b := fun b hb hl =>
    hk.table_eq hL hb hl
  have hslot : ∀ r < L.fileSystemSize, L.fileSystemTableSize ≤ r → ¬L.Reusable v.flash r → ∀ e ∈ L.entries r,
      isValid v.flash e = true → ∀ k < 24, w.flash (e + k) = v.flash (e + k) := by
    intro r hr htr hl e he hev
    rcases hk.slot hr htr hl he with hsame | ⟨-, hinvalid, -⟩
    · exact hsame
    · rw [hev] at hinvalid
      nomatch hinvalid
  have hother : ∀ e ∈ before, ∀ k < 24, w.flash (e + k) = v.flash (e + k) := fun e he => by
    obtain ⟨r, hr, her⟩ := List.mem_flatMap.mp (by rw [hsplit]; exact List.mem_append_left _ he)
    exact hslot r (hin r hr).2 (hin r hr).1 (hlive r hr) e her (hbv e he)
  obtain ⟨r, hr, htr, hrl, hdr⟩ := h.home
  have hdirectory := hslot r hr htr hrl directory hdr (h.invariant.valid directory h.listed)
  refine ⟨w, firstBlockAt v.flash directory, bs, before, after, ?_, hrun, ⟨firstBlockAt_congr hdirectory,
    isChain_congr bs _ hchain fun b hb => htable b (hin b hb).2 (hlive b hb), hin, hshort, hsplit, fun hm => ?_, fun e he => ?_,
    ⟨r, hr, htr, ?_, hdr⟩, ?_⟩, ?_⟩
  · rw [← getBlockNumber_entry hL (hin c hc').2 hc] at hrun
    exact Outcome.bind_eq_ok.mpr ⟨_, hscan, Outcome.bind_eq_ok.mpr ⟨w, hrun, rfl⟩⟩
  · rw [hbv d hm] at hdv
    nomatch hdv
  · rw [isValid_congr (hother e he), nameIs_congr hfile (hother e he)]
    exact Bool.eq_false_iff.mpr (hothers e (by rw [hsplit]; exact List.mem_append_left _ he))
  · exact fun hu => hrl ((hk.reusable_iff hL hr).mp hu)
  · rintro rfl
    rw [h.invariant.valid _ h.listed] at hdv
    nomatch hdv
  · rw [htable 0 (by omega) (ht 0 (by have := hL.entry_lt hL.table_lt; omega))]
    exact h.invariant.zero hL

/-- With room, an entry is chosen, and a block can be supplied for it. -/
theorem chooseEntry_place (hL : L.Sound) (h : v.Room entries directory) (hfile : file.length ≤ 15)
    (hnone : v.findEntry file (firstBlockAt v.flash directory) blockNumbers = .ok none) :
    ∃ d w b bs before after, v.chooseEntry directory = .ok (some d, w) ∧
      Place L w.flash directory d file b bs before after ∧ w.table 0 ≠ MBFS_UNUSED ∧ w.Supplies := by
  cases h.space with
  | free hfree hs =>
    obtain ⟨d, b, bs, before, after, hrun, hp⟩ := chooseEntry_free hL h hnone hfree
    exact ⟨d, v, b, bs, before, after, hrun, hp, h.invariant.zero hL, hs⟩
  | deleted hn d c hd hc hlast href hnext =>
    obtain ⟨w, b, bs, before, after, hrun, hrec, hp, h0⟩ := chooseEntry_deleted hL h hfile hnone hn hd hc hlast href
    exact ⟨d, w, b, bs, before, after, hrun, hp, h0, hnext w hrec⟩
  | full hused hs hnext => exact chooseEntry_extended hL h hfile hnone hused hs hnext

/-! ## Writing the entry -/

/-- Noting an event leaves the free blocks alone. -/
theorem Supplies.note (h : v.Supplies) (e : FSEvent) : (v.note e).Supplies :=
  h.imp_right fun ⟨hn, hs⟩ => ⟨hn, hs⟩

/-- An entry in its place was written as it lies in memory. -/
structure Entered (w : Volume L) (directory d : Nat) (file : List UInt8) (entry : DirectoryEntry) : Prop where
  place : ∃ b bs before after, Place L w.flash directory d file b bs before after
  holds : Holds w.flash d entry
  named : file ++ [0] <+: entry.fileName

/-- It is found if it is valid. -/
theorem Entered.found {entry : DirectoryEntry} (h : w.Entered directory d file entry)
    (hv : entry.flags % 2 ^ 16 &&& MBFS_DIRECTORY_ENTRY_VALID ≠ 0) :
    w.findEntry file (firstBlockAt w.flash directory) blockNumbers = .ok (some d) := by
  obtain ⟨b, bs, before, after, hp⟩ := h.place
  refine hp.found ?_ (h.holds.nameIs_of_prefix h.named)
  unfold isValid
  rw [h.holds.flags]
  exact bne_iff_ne.mpr hv

/-- An entry with the name is written. -/
theorem Place.entered (hL : L.Sound) {b : Nat} {bs before after : List Nat}
    (h : Place L v.flash directory d file b bs before after) (hfile : file.length ≤ 15) (entry : DirectoryEntry)
    (hlen : entry.fileName.length = 16)
    (hnamed : file ++ [0] <+: entry.fileName) : (v.flashWrite d entry.bytes).Entered directory d file entry :=
  ⟨⟨b, bs, before, after, h.flashWrite hL hfile (bytes_length hlen)⟩,
    ⟨hlen, fun _ hk => flashWrite_slot_self hL v h.slots.2.1 (bytes_length hlen) hk⟩, hnamed⟩

/-- `createFile` makes an entry with the name, if there is room for it. -/
theorem createFile_entered (hL : L.Sound) {filename : List UInt8} (h : v.Room entries directory)
    (hlen : (baseName filename).length ≤ 15) (hnone : v.getDirectoryEntry filename directory = .ok none) (isDirectory : Bool) :
    ∃ d w entry, v.createFile filename directory isDirectory = .ok (some d, w) ∧
      w.Entered directory d (baseName filename) entry ∧
      entry.flags = (if isDirectory then MBFS_DIRECTORY_ENTRY_VALID ||| MBFS_DIRECTORY_ENTRY_DIRECTORY
        else MBFS_DIRECTORY_ENTRY_NEW) ∧ entry.length = if isDirectory then 0 else 0xFFFFFFFF := by
  obtain ⟨d, w, b, bs, before, after, hrun, hp, h0, hs⟩ := chooseEntry_place hL h hlen hnone
  obtain ⟨n, u, hfree, hn0, hn, hu, hk⟩ := getFreeBlock_supplied (v := w.note (.entry d directory v.flash)) hL h0 (hs.note _)
  have hp := hp.kept hL hlen hk
  let entry : DirectoryEntry :=
    { fileName := slice (put L.stack 0 (baseName filename ++ [0])) 0 MBFS_FILENAME_LENGTH
      firstBlock := n
      flags := if isDirectory then MBFS_DIRECTORY_ENTRY_VALID ||| MBFS_DIRECTORY_ENTRY_DIRECTORY
        else MBFS_DIRECTORY_ENTRY_NEW
      length := if isDirectory then 0 else 0xFFFFFFFF }
  have hfit : (baseName filename ++ [0]).length ≤ MBFS_FILENAME_LENGTH := by
    rw [List.length_append]
    exact Nat.succ_le_succ hlen
  have hnamed : baseName filename ++ [0] <+: entry.fileName := ⟨_, (slice_put_start L.stack hfit).symm⟩
  obtain ⟨⟨b, bs, before, after, hp'⟩, hh, -⟩ := hp.entered hL hlen entry (slice_length _ _ _) hnamed
  have hbytes : entry.bytes.length = 24 := bytes_length (slice_length _ _ _)
  have htable := flashWrite_slot_table hL u hp.slots.2.1 hbytes hn
  have hur : L.Reusable (u.flashWrite d entry.bytes).flash n :=
    hu.imp (fun h => htable.trans h) fun h => htable.trans h
  refine ⟨d, (u.flashWrite d entry.bytes).fileTableWrite n MBFS_EOF, entry, ?_,
    ⟨⟨b, bs, before, after, hp'.fileTableWrite hL hlen hn hur (by decide)⟩, ⟨slice_length _ _ _, fun k hk => ?_⟩, hnamed⟩,
    rfl, rfl⟩
  · unfold createFile createDirectoryEntry
    rw [hrun]
    change (w.note (.entry d directory v.flash)).getFreeBlock >>= _ = _
    rw [hfree]
    change (if n = 0 then _ else _) = _
    have hbuffer : ¬(baseName filename).length + 1 > directoryEntrySize := by
      unfold directoryEntrySize
      omega
    rw [if_neg hn0, if_neg hbuffer]
  · exact (fileTableWrite_slot hL _ hn _ hp.slots.2.1 hk).trans (hh.bytes k hk)

end Volume

end CodalMicrobit

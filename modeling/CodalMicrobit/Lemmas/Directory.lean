import CodalMicrobit.Lemmas.Recycle

/-!
# Directories

What the walks along the blocks of a directory come to, where these are a chain of the file table; and what a write to an entry
of the table or of a directory leaves as it was.
-/

namespace CodalMicrobit

open Nor

/-! ## Chains -/

/-- The blocks are a chain of the table, up to its end. -/
def Layout.IsChain (L : Layout) (m : Memory) : List Nat → Prop
  | [] => False
  | [b] => L.getNextFileBlock m b = MBFS_EOF
  | b :: b' :: bs => L.getNextFileBlock m b = b' ∧ b' ≠ MBFS_EOF ∧ L.IsChain m (b' :: bs)

namespace Volume

variable {L : Layout}

/-- The chain from a block is one if the walk ends before it runs out of steps. -/
theorem chain_isChain (m : Memory) (fuel : Nat) : ∀ b : Nat, (L.chain m b fuel).length < fuel →
    ∃ bs, L.chain m b fuel = b :: bs ∧ L.IsChain m (b :: bs) := by
  induction fuel with
  | zero => exact fun b h => absurd h (Nat.not_lt_zero _)
  | succ fuel ih =>
    intro b h
    rw [Layout.chain] at h ⊢
    by_cases hend : L.getNextFileBlock m b = MBFS_EOF
    · rw [if_pos hend]
      exact ⟨[], rfl, hend⟩
    · rw [if_neg hend] at h ⊢
      rw [List.length_cons] at h
      obtain ⟨bs, hbs, hchain⟩ := ih _ (Nat.lt_of_succ_lt_succ h)
      exact ⟨_, rfl, by rw [hbs]; exact ⟨rfl, hend, hchain⟩⟩

/-- The search for an entry goes through the entries of the chain in order. -/
theorem findEntry_eq (v : Volume L) (file : List UInt8) (bs : List Nat) : ∀ b fuel : Nat, L.IsChain v.flash (b :: bs) →
    bs.length < fuel → v.findEntry file b fuel =
      .ok (((b :: bs).flatMap L.entries).find? fun d => isValid v.flash d && nameIs v.flash d file) := by
  induction bs with
  | nil =>
    intro b fuel hchain hfuel
    obtain ⟨fuel, rfl⟩ : ∃ f, fuel = f + 1 := ⟨fuel - 1, by omega⟩
    rw [findEntry, List.flatMap_cons, List.flatMap_nil, List.append_nil]
    split
    · rename_i d hd
      rw [hd]
    · rename_i hd
      rw [hd]
      exact if_pos hchain
  | cons b' bs ih =>
    intro b fuel hchain hfuel
    obtain ⟨fuel, rfl⟩ : ∃ f, fuel = f + 1 := ⟨fuel - 1, by omega⟩
    obtain ⟨hnext, hne, hrest⟩ := hchain
    rw [findEntry, List.flatMap_cons, List.find?_append]
    split
    · rename_i d hd
      rw [hd]
      rfl
    · rename_i hd
      have htable : v.table b = b' := hnext
      rw [hd, Option.none_or, htable, if_neg hne]
      exact ih b' fuel hrest (Nat.lt_of_succ_lt_succ hfuel)

/-- The scan over the entries of a block finds the first free one, or else, after one it was given, the first invalid one. -/
theorem scanEntries_find (m : Memory) (dirents : List Nat) : ∀ invalid : Option Nat,
    (scanEntries m invalid dirents).1 = dirents.find? (isFree m) ∧
      ((∀ d ∈ dirents, isFree m d = false) →
        (scanEntries m invalid dirents).2 = invalid.or (dirents.find? fun d => !isValid m d)) := by
  induction dirents with
  | nil => exact fun invalid => ⟨rfl, fun _ => by rw [List.find?_nil, Option.or_none]; rfl⟩
  | cons d dirents ih =>
    intro invalid
    rw [scanEntries]
    by_cases hf : isFree m d = true
    · rw [if_pos hf, List.find?_cons_of_pos hf]
      exact ⟨rfl, fun h => absurd (h d List.mem_cons_self) (by simp [hf])⟩
    · rw [if_neg hf, List.find?_cons_of_neg hf]
      obtain ⟨h1, h2⟩ := ih (if !isValid m d && invalid.isNone then some d else invalid)
      refine ⟨h1, fun h => ?_⟩
      rw [h2 fun d hd => h d (List.mem_cons_of_mem _ hd)]
      cases invalid with
      | some e => rw [Option.isNone_some, Bool.and_false, if_neg Bool.false_ne_true, Option.some_or, Option.some_or]
      | none =>
        rw [Option.isNone_none, Bool.and_true, Option.none_or]
        by_cases hv : (!isValid m d) = true
        · rw [if_pos hv, Option.some_or]
          exact (List.find?_cons_of_pos (p := fun d => !isValid m d) hv).symm
        · rw [if_neg hv, Option.none_or]
          exact (List.find?_cons_of_neg (p := fun d => !isValid m d) hv).symm

/-- The scan over the blocks of a directory. -/
theorem scanDirectory_eq (v : Volume L) (bs : List Nat) : ∀ (b fuel : Nat) (invalid : Option Nat),
    L.IsChain v.flash (b :: bs) → bs.length < fuel →
      ∃ invalid', v.scanDirectory b invalid fuel = .ok (((b :: bs).flatMap L.entries).find? (isFree v.flash), invalid') ∧
        ((∀ d ∈ (b :: bs).flatMap L.entries, isFree v.flash d = false) →
          invalid' = invalid.or (((b :: bs).flatMap L.entries).find? fun d => !isValid v.flash d)) := by
  induction bs with
  | nil =>
    intro b fuel invalid hchain hfuel
    obtain ⟨fuel, rfl⟩ : ∃ f, fuel = f + 1 := ⟨fuel - 1, by omega⟩
    obtain ⟨h1, h2⟩ := scanEntries_find v.flash (L.entries b) invalid
    rw [scanDirectory, List.flatMap_cons, List.flatMap_nil, List.append_nil, ← h1]
    split
    · rename_i d i hs
      rw [hs]
      exact ⟨i, rfl, fun h => by rw [hs] at h2; exact h2 h⟩
    · rename_i i hs
      have hend : v.table b = MBFS_EOF := hchain
      rw [hs, if_pos hend]
      exact ⟨i, rfl, fun h => by rw [hs] at h2; exact h2 h⟩
  | cons b' bs ih =>
    intro b fuel invalid hchain hfuel
    obtain ⟨fuel, rfl⟩ : ∃ f, fuel = f + 1 := ⟨fuel - 1, by omega⟩
    obtain ⟨hnext, hne, hrest⟩ := hchain
    obtain ⟨h1, h2⟩ := scanEntries_find v.flash (L.entries b) invalid
    rw [scanDirectory, List.flatMap_cons, List.find?_append, ← h1]
    split
    · rename_i d i hs
      rw [hs] at h1 ⊢
      refine ⟨i, rfl, fun h => ?_⟩
      obtain ⟨hd, hm⟩ := And.intro (List.find?_some h1.symm) (List.mem_of_find?_eq_some h1.symm)
      rw [h d (List.mem_append_left _ hm)] at hd
      exact absurd hd Bool.false_ne_true
    · rename_i i hs
      have htable : v.table b = b' := hnext
      rw [hs] at h2 ⊢
      rw [htable, if_neg hne]
      obtain ⟨i', h3, h4⟩ := ih b' fuel i hrest (Nat.lt_of_succ_lt_succ hfuel)
      refine ⟨i', h3, fun h => ?_⟩
      have hi : i = invalid.or ((L.entries b).find? fun d => !isValid v.flash d) :=
        h2 fun d hd => h d (List.mem_append_left _ hd)
      rw [h4 fun d hd => h d (List.mem_append_right _ hd), hi, List.find?_append, Option.or_assoc]

/-- The walk to the last block of a chain. -/
theorem lastBlock_eq (v : Volume L) (bs : List Nat) : ∀ b fuel : Nat, L.IsChain v.flash (b :: bs) → bs.length < fuel →
    v.lastBlock b fuel = .ok ((b :: bs).getLast (List.cons_ne_nil b bs)) := by
  induction bs with
  | nil =>
    intro b fuel hchain hfuel
    obtain ⟨fuel, rfl⟩ : ∃ f, fuel = f + 1 := ⟨fuel - 1, by omega⟩
    rw [lastBlock]
    exact if_pos hchain
  | cons b' bs ih =>
    intro b fuel hchain hfuel
    obtain ⟨fuel, rfl⟩ : ∃ f, fuel = f + 1 := ⟨fuel - 1, by omega⟩
    obtain ⟨hnext, hne, hrest⟩ := hchain
    have htable : v.table b = b' := hnext
    rw [lastBlock, htable, if_neg hne, List.getLast_cons (List.cons_ne_nil b' bs)]
    exact ih b' fuel hrest (Nat.lt_of_succ_lt_succ hfuel)

/-! ## Places of entries -/

end Volume

/-- The address is that of an entry of a directory. -/
def Layout.Slot (L : Layout) (d : Nat) : Prop :=
  ∃ b i, L.fileSystemTableSize ≤ b ∧ b < L.fileSystemSize ∧ i < 10 ∧ d = L.getBlock b + 24 * i

namespace Volume

variable {L : Layout} {v : Volume L} {d d' e e' : Nat} {bytes : List UInt8}

/-- The ten entries of a block. -/
theorem mem_entries {b : Nat} : d ∈ L.entries b ↔ ∃ i < 10, d = L.getBlock b + 24 * i := by
  unfold Layout.entries
  rw [List.mem_map]
  refine ⟨fun ⟨i, hi, h⟩ => ⟨i, List.mem_range.mp hi, h.symm⟩, fun ⟨i, hi, h⟩ => ⟨i, List.mem_range.mpr hi, h.symm⟩⟩

/-- The entries of a block behind the table are slots. -/
theorem entries_slot {b : Nat} (hb : L.fileSystemTableSize ≤ b) (hb' : b < L.fileSystemSize) (h : d ∈ L.entries b) :
    L.Slot d := by
  obtain ⟨i, hi, rfl⟩ := mem_entries.mp h
  exact ⟨b, i, hb, hb', hi, rfl⟩

/-- A write inside a block, as far as the blocks of the file system are concerned. -/
theorem flashWrite_block (hL : L.Sound) (v : Volume L) {b o b' k : Nat} (hb : b < L.fileSystemSize)
    (ho : o + bytes.length ≤ 256) (hb' : b' < L.fileSystemSize) (hk : k < 256) :
    (v.flashWrite (L.getBlock b + o) bytes).flash (L.getBlock b' + k) =
      put v.flash (L.getBlock b + o) bytes (L.getBlock b' + k) := by
  obtain ⟨h0, h1, h2, h3, -⟩ := page_bounds hL b (show 0 < 256 by decide)
  have hmod := Nat.mod_lt b (show 0 < 16 by decide)
  refine flashWrite_apply hL v h0 (by omega) ?_ (fun h => ?_) fun _ => getBlock_not_mem_scratch hL hb' hk
  · unfold MICROBIT_CODEPAGESIZE at *
    omega
  · have hpage := hL.getPage_eq b
    exact absurd (h.symm.trans hpage) (scratch_ne_getBlock hL (by omega))

/-- A write inside an entry of a directory, as far as the blocks of the file system are concerned, -/
theorem flashWrite_inside (hL : L.Sound) (v : Volume L) (hd : L.Slot d) (o : Nat) (ho : o + bytes.length ≤ 24) {b k : Nat}
    (hb : b < L.fileSystemSize) (hk : k < 256) :
    (v.flashWrite (d + o) bytes).flash (L.getBlock b + k) = put v.flash (d + o) bytes (L.getBlock b + k) := by
  obtain ⟨c, i, -, hc, hi, rfl⟩ := hd
  rw [Nat.add_assoc]
  exact flashWrite_block hL v hc (by omega) hb hk

/-- other entries, -/
theorem flashWrite_inside_other (hL : L.Sound) (v : Volume L) (hd : L.Slot d) (o : Nat) (ho : o + bytes.length ≤ 24)
    (hd' : L.Slot d') (hne : d' ≠ d) {k : Nat} (hk : k < 24) :
    (v.flashWrite (d + o) bytes).flash (d' + k) = v.flash (d' + k) := by
  obtain ⟨b', i', -, hb', hi', rfl⟩ := hd'
  rw [Nat.add_assoc, flashWrite_inside hL v hd o ho hb' (by omega), put_of_not_mem]
  obtain ⟨b, i, -, hb, hi, rfl⟩ := hd
  unfold Layout.getBlock MBFS_BLOCK_SIZE at *
  rcases Nat.lt_trichotomy b b' with h | rfl | h
  · omega
  · rcases Nat.lt_trichotomy i i' with h | rfl | h
    · omega
    · exact absurd rfl hne
    · omega
  · omega

/-- and the table. -/
theorem flashWrite_inside_table (hL : L.Sound) (v : Volume L) (hd : L.Slot d) (o : Nat) (ho : o + bytes.length ≤ 24)
    (he : e < L.fileSystemSize) : (v.flashWrite (d + o) bytes).table e = v.table e := by
  have hentry := hL.entry_lt he
  have htable := hL.table_lt
  refine entry_congr fun j hj => ?_
  rw [flashWrite_inside hL v hd o ho (by omega) (by omega), put_of_not_mem]
  obtain ⟨b, i, htb, hb, hi, rfl⟩ := hd
  unfold Layout.getBlock MBFS_BLOCK_SIZE
  omega

/-- A write to an entry of a directory: the entry is what was written, -/
theorem flashWrite_slot_self (hL : L.Sound) (v : Volume L) (hd : L.Slot d) (hbytes : bytes.length = 24) {k : Nat}
    (hk : k < 24) : (v.flashWrite d bytes).flash (d + k) = bytes.getD k 0 := by
  obtain ⟨b, i, -, hb, hi, rfl⟩ := hd
  rw [Nat.add_assoc, flashWrite_block hL v hb (by omega) hb (by omega), ← Nat.add_assoc, put_add _ _ _ _ (by omega),
    List.getD_eq_getElem _ _ (by omega)]

/-- other entries are as they were, -/
theorem flashWrite_slot_other (hL : L.Sound) (v : Volume L) (hd : L.Slot d) (hbytes : bytes.length = 24) (hd' : L.Slot d')
    (hne : d' ≠ d) {k : Nat} (hk : k < 24) : (v.flashWrite d bytes).flash (d' + k) = v.flash (d' + k) :=
  flashWrite_inside_other hL v hd 0 (by omega) hd' hne hk

/-- and so is the table. -/
theorem flashWrite_slot_table (hL : L.Sound) (v : Volume L) (hd : L.Slot d) (hbytes : bytes.length = 24)
    (he : e < L.fileSystemSize) : (v.flashWrite d bytes).table e = v.table e :=
  flashWrite_inside_table hL v hd 0 (by omega) he

/-- Two bytes give back their number. -/
theorem u16Bytes_toNat {n : Nat} (h : n < 2 ^ 16) :
    ((u16Bytes n).getD 0 0).toNat + 2 ^ 8 * ((u16Bytes n).getD 1 0).toNat = n := by
  change (UInt8.ofNat n).toNat + 2 ^ 8 * (UInt8.ofNat (n / 2 ^ 8)).toNat = n
  rw [UInt8.toNat_ofNat', UInt8.toNat_ofNat']
  omega

/-- A write to the table, as one of two bytes to the flash. -/
theorem fileTableWrite_eq (v : Volume L) (e value : Nat) :
    v.fileTableWrite e value = v.flashWrite (L.getBlock (e / 128) + 2 * (e % 128)) (u16Bytes value) := by
  unfold fileTableWrite Layout.getBlock MBFS_BLOCK_SIZE
  rw [show L.fileSystemTable + 2 * e = L.fileSystemTable + e / 128 * 256 + 2 * (e % 128) by omega]

/-- A write to an entry of the table. -/
theorem fileTableWrite_table (hL : L.Sound) (v : Volume L) (he : e < L.fileSystemSize) (he' : e' < L.fileSystemSize)
    {value : Nat} (hv : value < 2 ^ 16) : (v.fileTableWrite e value).table e' = if e' = e then value else v.table e' := by
  have hentry := hL.entry_lt he
  have hentry' := hL.entry_lt he'
  have htable := hL.table_lt
  have hbyte : ∀ j < 2, (v.fileTableWrite e value).flash (L.getBlock (e' / 128) + 2 * (e' % 128) + j) =
      if e' = e then (u16Bytes value).getD j 0 else v.flash (L.getBlock (e' / 128) + 2 * (e' % 128) + j) := by
    intro j hj
    have hlen : (u16Bytes value).length = 2 := rfl
    rw [fileTableWrite_eq, Nat.add_assoc, flashWrite_block hL v (by omega) (by omega) (by omega) (by omega)]
    by_cases h : e' = e
    · rw [if_pos h, h, ← Nat.add_assoc, put_add _ _ _ _ (by omega), List.getD_eq_getElem _ _ (by omega)]
    · rw [if_neg h, put_of_not_mem]
      unfold Layout.getBlock MBFS_BLOCK_SIZE
      omega
  unfold table
  rw [entry_eq, entry_eq]
  unfold readU16
  have h0 := hbyte 0 (by omega)
  have h1 := hbyte 1 (by omega)
  rw [Nat.add_zero] at h0
  rw [h0, h1]
  split
  · exact u16Bytes_toNat hv
  · rfl

/-- It leaves the blocks behind the table as they were, -/
theorem fileTableWrite_block (hL : L.Sound) (v : Volume L) (he : e < L.fileSystemSize) (value : Nat) {b k : Nat}
    (hb : L.fileSystemTableSize ≤ b) (hb' : b < L.fileSystemSize) (hk : k < 256) :
    (v.fileTableWrite e value).flash (L.getBlock b + k) = v.flash (L.getBlock b + k) := by
  have hentry := hL.entry_lt he
  have htable := hL.table_lt
  have hlen : (u16Bytes value).length = 2 := rfl
  rw [fileTableWrite_eq, flashWrite_block hL v (by omega) (by omega) hb' hk, put_of_not_mem]
  unfold Layout.getBlock MBFS_BLOCK_SIZE
  omega

/-- and so the entries of directories. -/
theorem fileTableWrite_slot (hL : L.Sound) (v : Volume L) (he : e < L.fileSystemSize) (value : Nat) (hd : L.Slot d) {k : Nat}
    (hk : k < 24) : (v.fileTableWrite e value).flash (d + k) = v.flash (d + k) := by
  obtain ⟨b, i, htb, hb, hi, rfl⟩ := hd
  rw [Nat.add_assoc]
  exact fileTableWrite_block hL v he value htb hb (by omega)

/-! ## What an entry says -/

section

variable {m m' : Memory}

/-- The first block in an entry depends on its own bytes only. -/
theorem firstBlockAt_congr (h : ∀ k < 24, m (d + k) = m' (d + k)) : firstBlockAt m d = firstBlockAt m' d :=
  readU16_congr fun k hk => by
    rw [Nat.add_assoc]
    exact h (16 + k) (by omega)

/-- The name in an entry depends on its own bytes only. -/
theorem nameIs_congr {name : List UInt8} (hn : name.length ≤ 15) (h : ∀ k < 24, m (d + k) = m' (d + k)) :
    nameIs m d name = nameIs m' d name := by
  unfold nameIs
  rw [slice_congr fun x hx hx' => ?_]
  have := h (x - d) (by omega)
  rwa [Nat.add_sub_cancel' hx] at this

/-- An entry was written as it lies in memory. -/
structure Holds (m : Memory) (d : Nat) (entry : DirectoryEntry) : Prop where
  name : entry.fileName.length = 16
  bytes : ∀ k < 24, m (d + k) = entry.bytes.getD k 0

/-- An entry has 24 bytes. -/
theorem bytes_length {entry : DirectoryEntry} (h : entry.fileName.length = 16) : entry.bytes.length = 24 := by
  unfold DirectoryEntry.bytes
  rw [List.length_append, List.length_append, List.length_append, h]
  rfl

/-- A 16-bit member of the entry. -/
theorem Holds.halfword {entry : DirectoryEntry} (h : Holds m d entry) {o n : Nat} (ho : o + 1 < 24)
    (h0 : entry.bytes.getD o 0 = n.toUInt8) (h1 : entry.bytes.getD (o + 1) 0 = (n / 2 ^ 8).toUInt8) :
    readU16 m (d + o) = n % 2 ^ 16 := by
  unfold readU16
  rw [h.bytes o (by omega), Nat.add_assoc, h.bytes (o + 1) ho, h0, h1]
  change (UInt8.ofNat _).toNat + 2 ^ 8 * (UInt8.ofNat _).toNat = _
  rw [UInt8.toNat_ofNat', UInt8.toNat_ofNat']
  omega

/-- The first block of the entry held. -/
theorem Holds.firstBlock {entry : DirectoryEntry} (h : Holds m d entry) :
    firstBlockAt m d = entry.firstBlock % 2 ^ 16 := by
  have hn := h.name
  refine h.halfword (by omega) ?_ ?_ <;> unfold DirectoryEntry.bytes <;>
    simp [List.getD_eq_getElem?_getD, hn, u16Bytes, u32Bytes]

/-- The flags of the entry held. -/
theorem Holds.flags {entry : DirectoryEntry} (h : Holds m d entry) : flagsAt m d = entry.flags % 2 ^ 16 := by
  have hn := h.name
  refine h.halfword (by omega) ?_ ?_ <;> unfold DirectoryEntry.bytes <;>
    simp [List.getD_eq_getElem?_getD, hn, u16Bytes, u32Bytes]

/-- The name of the entry held. -/
theorem Holds.slice_eq {entry : DirectoryEntry} (h : Holds m d entry) : slice m d 16 = entry.fileName := by
  rw [slice_eq_iff]
  refine ⟨h.name, fun k hk => ?_⟩
  have hn := h.name
  have hk' : k < 16 := by omega
  rw [h.bytes k (by omega)]
  unfold DirectoryEntry.bytes
  simp [List.getD_eq_getElem?_getD, List.getElem?_append, hn, hk']

/-- The length of the entry held. -/
theorem Holds.length_eq {entry : DirectoryEntry} (h : Holds m d entry) : lengthAt m d = entry.length % 2 ^ 32 := by
  have hn := h.name
  have hbyte : ∀ k < 4, m (d + 20 + k) = (u32Bytes entry.length).getD k 0 := by
    intro k hk
    rw [Nat.add_assoc, h.bytes (20 + k) (by omega)]
    unfold DirectoryEntry.bytes
    have : k = 0 ∨ k = 1 ∨ k = 2 ∨ k = 3 := by omega
    rcases this with rfl | rfl | rfl | rfl <;>
      simp [List.getD_eq_getElem?_getD, hn, u16Bytes, u32Bytes]
  have h0 := hbyte 0 (by omega)
  rw [Nat.add_zero] at h0
  unfold lengthAt readU32 readU16
  rw [h0, hbyte 1 (by omega), show d + 20 + 2 + 1 = d + 20 + 3 from rfl, hbyte 2 (by omega), hbyte 3 (by omega)]
  change (UInt8.ofNat _).toNat + 2 ^ 8 * (UInt8.ofNat _).toNat +
    2 ^ 16 * ((UInt8.ofNat _).toNat + 2 ^ 8 * (UInt8.ofNat _).toNat) = _
  simp only [UInt8.toNat_ofNat']
  omega

/-- The name of an entry is the text it starts with, where that ends inside the name. -/
theorem Holds.nameIs_of_prefix {entry : DirectoryEntry} (h : Holds m d entry) {name : List UInt8}
    (hp : name ++ [0] <+: entry.fileName) : nameIs m d name = true := by
  have hlen := hp.length_le
  rw [List.length_append, List.length_singleton, h.name] at hlen
  obtain ⟨n, hn⟩ : ∃ n, 16 = name.length + 1 + n := ⟨15 - name.length, by omega⟩
  have hs := h.slice_eq
  rw [hn, slice_add] at hs
  rw [← hs] at hp
  unfold nameIs
  rw [beq_iff_eq]
  have := List.prefix_iff_eq_take.mp hp
  rw [this, List.length_append, List.length_singleton, List.take_left' (slice_length _ _ _)]

end

end Volume

end CodalMicrobit

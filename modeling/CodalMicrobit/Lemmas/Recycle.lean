import CodalMicrobit.Lemmas.Pages
import CodalMicrobit.Theorems.FlashWrite

/-!
# Refreshing a page

`recycleBlock` copies a page to a scratch page, less what can be given back, erases the page and copies the scratch page to
it. What was not copied is in the end what the scratch page held there at the start: the default scratch page is erased
before, a page of the file system without a live block is not.
-/

namespace CodalMicrobit

open Nor MicroBitFlash

namespace Volume

variable {L : Layout}

/-! ## Bytes of a block -/

/-- Where a byte of a block lies in the page of the block. -/
theorem page_bounds (hL : L.Sound) (b : Nat) {k : Nat} (hk : k < 256) :
    L.getPage b % MICROBIT_CODEPAGESIZE = 0 ∧ L.getPage b ≤ L.getBlock b + k ∧
      L.getBlock b + k < L.getPage b + MICROBIT_CODEPAGESIZE ∧ L.getBlock b + k - L.getPage b = 256 * (b % 16) + k ∧
      (L.getBlock b + k) % MICROBIT_CODEPAGESIZE = 256 * (b % 16) + k := by
  have hal := hL.aligned
  rw [hL.getPage_eq]
  unfold Layout.getBlock MBFS_BLOCK_SIZE MICROBIT_CODEPAGESIZE at *
  omega

/-- No block of the file system lies in the scratch page. -/
theorem getBlock_not_mem_scratch (hL : L.Sound) {b k : Nat} (hb : b < L.fileSystemSize) (hk : k < 256) :
    ¬(L.MICROBIT_DEFAULT_SCRATCH_PAGE ≤ L.getBlock b + k ∧
      L.getBlock b + k < L.MICROBIT_DEFAULT_SCRATCH_PAGE + MICROBIT_CODEPAGESIZE) := by
  have := hL.outside
  unfold Layout.getBlock MBFS_BLOCK_SIZE at *
  omega

/-- A half word depends on its two bytes only. -/
theorem readU16_congr {m m' : Memory} {a : Nat} (h : ∀ k < 2, m (a + k) = m' (a + k)) : readU16 m a = readU16 m' a := by
  unfold readU16
  rw [show m a = m' a from h 0 (by omega), h 1 (by omega)]

/-- The flags of an entry depend on its own bytes only. -/
theorem flagsAt_congr {m m' : Memory} {a : Nat} (h : ∀ k < 24, m (a + k) = m' (a + k)) : flagsAt m a = flagsAt m' a :=
  readU16_congr fun k hk => by
    rw [Nat.add_assoc]
    exact h (18 + k) (by omega)

/-- Whether an entry is valid depends on its own bytes only. -/
theorem isValid_congr {m m' : Memory} {a : Nat} (h : ∀ k < 24, m (a + k) = m' (a + k)) : isValid m a = isValid m' a := by
  unfold isValid
  rw [flagsAt_congr h]

/-- The entry of a block in the table, counted from the block of the table that holds it. -/
theorem entry_eq (m : Memory) (e : Nat) :
    L.getNextFileBlock m e = readU16 m (L.getBlock (e / 128) + 2 * (e % 128)) := by
  unfold Layout.getNextFileBlock Layout.getBlock MBFS_BLOCK_SIZE
  rw [show L.fileSystemTable + 2 * e = L.fileSystemTable + e / 128 * 256 + 2 * (e % 128) by omega]

/-- Bytes of an entry that agree. -/
theorem entry_congr {m m' : Memory} {e : Nat}
    (h : ∀ j < 2, m (L.getBlock (e / 128) + (2 * (e % 128) + j)) = m' (L.getBlock (e / 128) + (2 * (e % 128) + j))) :
    L.getNextFileBlock m e = L.getNextFileBlock m' e := by
  rw [entry_eq, entry_eq]
  exact readU16_congr fun j hj => by
    rw [Nat.add_assoc]
    exact h j hj

/-! ## Writing -/

/-- A write inside a page. The default scratch page may be lost, unless it is the page that is written to and is blank
there. -/
theorem flashWrite_apply (hL : L.Sound) (v : Volume L) {page a : Nat} {bytes : List UInt8}
    (hp : page % MICROBIT_CODEPAGESIZE = 0) (ha : page ≤ a) (hin : a + bytes.length ≤ page + MICROBIT_CODEPAGESIZE)
    (hblank : page = L.MICROBIT_DEFAULT_SCRATCH_PAGE → Blank v.flash a (a + bytes.length)) {x : Nat}
    (hx : page ≠ L.MICROBIT_DEFAULT_SCRATCH_PAGE →
      ¬(L.MICROBIT_DEFAULT_SCRATCH_PAGE ≤ x ∧ x < L.MICROBIT_DEFAULT_SCRATCH_PAGE + MICROBIT_CODEPAGESIZE)) :
    (v.flashWrite a bytes).flash x = put v.flash a bytes x := by
  have hscratch := hL.scratch
  unfold flashWrite
  cases he : needErase bytes v.flash a with
  | false => rw [flashWrite_in_place hL.scratch he]
  | true =>
    have hne : page ≠ L.MICROBIT_DEFAULT_SCRATCH_PAGE := by
      intro h
      have : needErase bytes v.flash a = false := (needErase_eq_false _ _ _).mpr fun k hk => by
        rw [hblank h (a + k) (by omega) (by omega)]
        exact legal_blank _
      rw [this] at he
      nomatch he
    have hlen : bytes ≠ [] := by
      rintro rfl
      nomatch he
    have hpos := List.length_pos_of_ne_nil hlen
    unfold MICROBIT_CODEPAGESIZE at *
    exact (flashWrite_erasing hscratch hL.scratch_ne (by unfold MICROBIT_CODEPAGESIZE; omega)
      (by unfold MICROBIT_CODEPAGESIZE; omega) he (hx hne)).2

/-! ## Copying a page -/

/-- The places of a copy: a page of the file system and the page it is copied to. -/
structure CopyPlaces (L : Layout) (m : Memory) (page scratch : Nat) : Prop where
  page_mod : page % MICROBIT_CODEPAGESIZE = 0
  scratch_mod : scratch % MICROBIT_CODEPAGESIZE = 0
  page_ne : page ≠ L.MICROBIT_DEFAULT_SCRATCH_PAGE
  blank : scratch = L.MICROBIT_DEFAULT_SCRATCH_PAGE → Blank m scratch (scratch + MICROBIT_CODEPAGESIZE)

/-- The volume `v` in the course of the copy that began with `u`: the bytes at the offsets `c` are copied. -/
structure Copied (u : Volume L) (page scratch : Nat) (c : Nat → Prop) (v : Volume L) : Prop where
  copied : ∀ k < MICROBIT_CODEPAGESIZE, c k → v.flash (scratch + k) = u.flash (page + k)
  left : ∀ k < MICROBIT_CODEPAGESIZE, ¬c k → v.flash (scratch + k) = u.flash (scratch + k)
  outside : ∀ x, ¬(scratch ≤ x ∧ x < scratch + MICROBIT_CODEPAGESIZE) →
    ¬(L.MICROBIT_DEFAULT_SCRATCH_PAGE ≤ x ∧ x < L.MICROBIT_DEFAULT_SCRATCH_PAGE + MICROBIT_CODEPAGESIZE) →
      v.flash x = u.flash x

variable {u v : Volume L} {page scratch : Nat} {c : Nat → Prop}

theorem Copied.refl (u : Volume L) (page scratch : Nat) : Copied u page scratch (fun _ => False) u :=
  ⟨fun _ _ h => h.elim, fun _ _ _ => rfl, fun _ _ _ => rfl⟩

/-- The bytes copied may be named by any condition that says the same. -/
theorem Copied.congr (h : Copied u page scratch c v) {c' : Nat → Prop} (hc : ∀ k < MICROBIT_CODEPAGESIZE, c k ↔ c' k) :
    Copied u page scratch c' v :=
  ⟨fun k hk hck => h.copied k hk ((hc k hk).mpr hck), fun k hk hck => h.left k hk fun h' => hck ((hc k hk).mp h'),
    h.outside⟩

/-- The page is as it was, also if it is copied to itself. -/
theorem Copied.source (hp : CopyPlaces L u.flash page scratch) (hL : L.Sound) (h : Copied u page scratch c v) {k : Nat}
    (hk : k < MICROBIT_CODEPAGESIZE) : v.flash (page + k) = u.flash (page + k) := by
  have h1 := hp.page_mod
  have h2 := hp.scratch_mod
  have h3 := hp.page_ne
  have h4 := hL.scratch
  by_cases heq : page = scratch
  · subst heq
    by_cases hc : c k
    · exact h.copied k hk hc
    · exact h.left k hk hc
  · unfold MICROBIT_CODEPAGESIZE at *
    exact h.outside _ (by unfold MICROBIT_CODEPAGESIZE; omega) (by unfold MICROBIT_CODEPAGESIZE; omega)

/-- Some bytes more are copied. -/
theorem Copied.slot (hp : CopyPlaces L u.flash page scratch) (hL : L.Sound) (h : Copied u page scratch c v) {o n : Nat}
    (hon : o + n ≤ MICROBIT_CODEPAGESIZE) (hc : ∀ k, o ≤ k → k < o + n → ¬c k) :
    Copied u page scratch (fun k => c k ∨ o ≤ k ∧ k < o + n)
      (v.flashWrite (scratch + o) (slice v.flash (page + o) n)) := by
  have hput : ∀ x, (scratch ≠ L.MICROBIT_DEFAULT_SCRATCH_PAGE →
      ¬(L.MICROBIT_DEFAULT_SCRATCH_PAGE ≤ x ∧ x < L.MICROBIT_DEFAULT_SCRATCH_PAGE + MICROBIT_CODEPAGESIZE)) →
      (v.flashWrite (scratch + o) (slice v.flash (page + o) n)).flash x =
        put v.flash (scratch + o) (slice v.flash (page + o) n) x := by
    intro x hx
    refine flashWrite_apply hL v hp.scratch_mod (Nat.le_add_right _ _) (by rw [slice_length]; omega) (fun hs y hy hy' => ?_) hx
    rw [slice_length] at hy'
    have hleft := h.left (y - scratch) (by omega) (hc _ (by omega) (by omega))
    rw [show scratch + (y - scratch) = y by omega] at hleft
    rw [hleft]
    exact hp.blank hs y (by omega) (by omega)
  have hout : ∀ k < MICROBIT_CODEPAGESIZE, scratch ≠ L.MICROBIT_DEFAULT_SCRATCH_PAGE →
      ¬(L.MICROBIT_DEFAULT_SCRATCH_PAGE ≤ scratch + k ∧
        scratch + k < L.MICROBIT_DEFAULT_SCRATCH_PAGE + MICROBIT_CODEPAGESIZE) := by
    have h2 := hp.scratch_mod
    have h4 := hL.scratch
    unfold MICROBIT_CODEPAGESIZE at *
    omega
  refine ⟨fun k hk hck => ?_, fun k hk hck => ?_, fun x hx hxd => ?_⟩
  · rw [hput _ (hout k hk)]
    by_cases hin : o ≤ k ∧ k < o + n
    · rw [put_of_mem _ _ (by omega) (by rw [slice_length]; omega), slice_getElem,
        show page + o + (scratch + k - (scratch + o)) = page + k by omega]
      exact h.source hp hL hk
    · rw [put_of_not_mem _ _ (by rw [slice_length]; omega)]
      exact h.copied k hk (hck.resolve_right hin)
  · rw [hput _ (hout k hk), put_of_not_mem _ _ (by rw [slice_length]; omega)]
    exact h.left k hk fun h' => hck (Or.inl h')
  · rw [hput x fun _ => hxd, put_of_not_mem _ _ (by rw [slice_length]; omega)]
    exact h.outside x hx hxd

/-- A turn of a loop that copies the slots of a stretch that pass a test. -/
def copySlot (test : Memory → Nat → Prop) [∀ m a, Decidable (test m a)] (source target width : Nat) (v : Volume L)
    (e : Nat) : Volume L :=
  if test v.flash (source + width * e) then v.flashWrite (target + width * e) (slice v.flash (source + width * e) width)
  else v

/-- Such a loop. The test reads the slot only. -/
theorem Copied.slots (hp : CopyPlaces L u.flash page scratch) (hL : L.Sound) (h : Copied u page scratch c v)
    (test : Memory → Nat → Prop) [∀ m a, Decidable (test m a)] {o : Nat} (width : Nat) (hw : 0 < width)
    (htest : ∀ {m m' : Memory} {a : Nat}, (∀ k < width, m (a + k) = m' (a + k)) → (test m a ↔ test m' a))
    (hc : ∀ k, o ≤ k → ¬c k) (n : Nat) (hon : o + width * n ≤ MICROBIT_CODEPAGESIZE) :
    Copied u page scratch
      (fun k => c k ∨ o ≤ k ∧ k < o + width * n ∧ test u.flash (page + o + width * ((k - o) / width)))
      ((List.range n).foldl (copySlot test (page + o) (scratch + o) width) v) := by
  induction n with
  | zero => exact h.congr fun k _ => ⟨Or.inl, fun hk => hk.resolve_right fun h' => by omega⟩
  | succ n ih =>
    rw [Nat.mul_succ] at hon
    have ih := ih (by omega)
    rw [List.range_succ, List.foldl_append, List.foldl_cons, List.foldl_nil]
    generalize (List.range n).foldl (copySlot test (page + o) (scratch + o) width) v = w at ih ⊢
    unfold copySlot
    have hsame : test w.flash (page + o + width * n) ↔ test u.flash (page + o + width * n) := htest fun k hk => by
      rw [show page + o + width * n + k = page + (o + width * n + k) by omega]
      exact ih.source hp hL (by omega)
    have hslot : ∀ k, o + width * n ≤ k → k < o + width * n + width → (k - o) / width = n := by
      intro k hk hk'
      rw [show k - o = k - (o + width * n) + width * n by omega, Nat.add_mul_div_left _ _ hw, Nat.div_eq_of_lt (by omega),
        Nat.zero_add]
    by_cases ht : test u.flash (page + o + width * n)
    · rw [if_pos (hsame.mpr ht)]
      have hnext := ih.slot hp hL (o := o + width * n) (n := width) (by omega) fun k hk hk' => by
        rintro (hck | ⟨-, hlt, -⟩)
        · exact hc k (by omega) hck
        · omega
      rw [← Nat.add_assoc, ← Nat.add_assoc] at hnext
      refine hnext.congr fun k _ => ⟨?_, ?_⟩
      · rintro ((hck | ⟨h1, h2, h3⟩) | ⟨h1, h2⟩)
        · exact Or.inl hck
        · exact Or.inr ⟨h1, by rw [Nat.mul_succ]; omega, h3⟩
        · exact Or.inr ⟨by omega, by rw [Nat.mul_succ]; omega, by rwa [hslot k h1 h2]⟩
      · rintro (hck | ⟨h1, h2, h3⟩)
        · exact Or.inl (Or.inl hck)
        · rw [Nat.mul_succ] at h2
          by_cases hin : o + width * n ≤ k
          · exact Or.inr ⟨hin, by omega⟩
          · exact Or.inl (Or.inr ⟨h1, by omega, h3⟩)
    · rw [if_neg fun h' => ht (hsame.mp h')]
      refine ih.congr fun k _ => or_congr_right ⟨fun ⟨h1, h2, h3⟩ => ⟨h1, by rw [Nat.mul_succ]; omega, h3⟩, ?_⟩
      rintro ⟨h1, h2, h3⟩
      rw [Nat.mul_succ] at h2
      refine ⟨h1, ?_, h3⟩
      by_contra hge
      rw [hslot k (by omega) (by omega)] at h3
      exact ht h3

/-- What `recycleBlock` copies of the page that starts with block `first`, by the offset in the page: all of a block in use,
but of the directory it is asked to recycle the valid entries only, and of the file table the entries that are not deleted. -/
def Keeps (L : Layout) (m : Memory) (block : Nat) (type : BlockType) (first k : Nat) : Prop :=
  ¬L.Reusable m (first + k / 256) ∧
    if first + k / 256 = block ∧ type = .DIRECTORY then
      k % 256 < 240 ∧ isValid m (L.getBlock (first + k / 256) + 24 * (k % 256 / 24)) = true
    else first + k / 256 < L.fileSystemTableSize →
      readU16 m (L.getBlock (first + k / 256) + 2 * (k % 256 / 2)) ≠ MBFS_DELETED

/-- Which bytes of a page are kept, read off the block they lie in. -/
theorem keeps_iff {m : Memory} {block : Nat} {type : BlockType} {first i k : Nat} (h : 256 * i ≤ k) (h' : k < 256 * (i + 1)) :
    Keeps L m block type first k ↔ ¬L.Reusable m (first + i) ∧
      if first + i = block ∧ type = .DIRECTORY then
        k - 256 * i < 240 ∧ isValid m (L.getBlock (first + i) + 24 * ((k - 256 * i) / 24)) = true
      else first + i < L.fileSystemTableSize →
        readU16 m (L.getBlock (first + i) + 2 * ((k - 256 * i) / 2)) ≠ MBFS_DELETED := by
  have hdiv : k / 256 = i := by omega
  have hmod : k % 256 = k - 256 * i := by omega
  unfold Keeps
  rw [hdiv, hmod]

/-- Blocks lie one behind the other. -/
theorem getBlock_add (first i : Nat) : L.getBlock (first + i) = L.getBlock first + 256 * i := by
  unfold Layout.getBlock MBFS_BLOCK_SIZE
  omega

/-- Block `i` of the page is copied. -/
theorem Copied.block (hL : L.Sound) {block first i : Nat} {type : BlockType}
    (hp : CopyPlaces L u.flash (L.getBlock first) scratch)
    (hi : i < 16) (hlt : first + i < L.fileSystemSize) (htable : v.table (first + i) = u.table (first + i))
    (h : Copied u (L.getBlock first) scratch (fun k => k < 256 * i ∧ Keeps L u.flash block type first k) v) :
    Copied u (L.getBlock first) scratch (fun k => k < 256 * (i + 1) ∧ Keeps L u.flash block type first k)
      (copyBlock block type first scratch v i) := by
  have hsize := hL.size_lt
  have hb : (first + i) % 2 ^ 16 = first + i := Nat.mod_eq_of_lt (by omega)
  have hwrite : scratch + i * MBFS_BLOCK_SIZE = scratch + 256 * i := by
    rw [Nat.mul_comm]
    rfl
  have hroot : L.getBlock (first + i) < L.rootDirectory ↔ first + i < L.fileSystemTableSize := by
    rw [hL.root]
    unfold Layout.getBlock MBFS_BLOCK_SIZE
    omega
  -- what is copied of the block is what is kept of it
  have hnext : ∀ {w : Volume L} (rest : Nat → Prop),
      Copied u (L.getBlock first) scratch
        (fun k => (k < 256 * i ∧ Keeps L u.flash block type first k) ∨ 256 * i ≤ k ∧ k < 256 * (i + 1) ∧ rest k) w →
      (∀ k, 256 * i ≤ k → k < 256 * (i + 1) → (rest k ↔ Keeps L u.flash block type first k)) →
      Copied u (L.getBlock first) scratch (fun k => k < 256 * (i + 1) ∧ Keeps L u.flash block type first k) w := by
    intro w rest hw hrest
    refine hw.congr fun k _ => ⟨?_, fun ⟨h1, h2⟩ => ?_⟩
    · rintro (⟨h1, h2⟩ | ⟨h1, h2, h3⟩)
      · exact ⟨by omega, h2⟩
      · exact ⟨h2, (hrest k h1 h2).mp h3⟩
    · by_cases hk : k < 256 * i
      · exact Or.inl ⟨hk, h2⟩
      · exact Or.inr ⟨by omega, h1, (hrest k (by omega) h1).mpr h2⟩
  have hc : ∀ k, 256 * i ≤ k → ¬(k < 256 * i ∧ Keeps L u.flash block type first k) := fun k hk h => by omega
  unfold copyBlock
  simp only [hb, hwrite, hroot, htable]
  by_cases hdead : u.table (first + i) = MBFS_DELETED ∨ u.table (first + i) = MBFS_UNUSED
  · rw [if_pos hdead]
    refine hnext (fun _ => False) (h.congr fun k _ => by simp) fun k hk hk' => ?_
    rw [keeps_iff hk hk']
    exact iff_of_false id fun h => h.1 hdead.symm
  · have hlive : ¬L.Reusable u.flash (first + i) := fun h => hdead h.symm
    rw [if_neg hdead]
    by_cases hdir : first + i = block ∧ type = .DIRECTORY
    · rw [if_pos hdir]
      have hslots := h.slots hp hL (fun m a => isValid m a = true) (o := 256 * i) 24 (by decide)
        (fun hm => by rw [isValid_congr hm]) hc 10 (by unfold MICROBIT_CODEPAGESIZE; omega)
      rw [← getBlock_add] at hslots
      refine hnext (fun k => k - 256 * i < 240 ∧
        isValid u.flash (L.getBlock (first + i) + 24 * ((k - 256 * i) / 24)) = true)
        (hslots.congr fun k _ => or_congr_right ?_) fun k hk hk' => ?_
      · exact ⟨fun ⟨h1, h2, h3⟩ => ⟨h1, by omega, by omega, h3⟩, fun ⟨h1, h2, h3, h4⟩ => ⟨h1, by omega, h4⟩⟩
      · rw [keeps_iff hk hk', if_pos hdir]
        exact (and_iff_right hlive).symm
    · rw [if_neg hdir]
      by_cases htab : first + i < L.fileSystemTableSize
      · rw [if_pos htab]
        have hslots := h.slots hp hL (fun m a => readU16 m a ≠ MBFS_DELETED) (o := 256 * i) 2 (by decide)
          (fun hm => by rw [readU16_congr hm]) hc 128 (by unfold MICROBIT_CODEPAGESIZE; omega)
        rw [← getBlock_add] at hslots
        refine hnext (fun k => readU16 u.flash (L.getBlock (first + i) + 2 * ((k - 256 * i) / 2)) ≠ MBFS_DELETED)
          hslots fun k hk hk' => ?_
        rw [keeps_iff hk hk', if_neg hdir]
        exact ⟨fun h => ⟨hlive, fun _ => h⟩, fun h => h.2 htab⟩
      · rw [if_neg htab]
        have hslot := h.slot hp hL (o := 256 * i) (n := 256) (by unfold MICROBIT_CODEPAGESIZE; omega) fun k hk _ => hc k hk
        rw [← getBlock_add] at hslot
        refine hnext (fun _ => True) (hslot.congr fun k _ => or_congr_right ?_) fun k hk hk' => ?_
        · exact ⟨fun ⟨h1, h2⟩ => ⟨h1, by omega, trivial⟩, fun ⟨h1, h2, _⟩ => ⟨h1, by omega⟩⟩
        · rw [keeps_iff hk hk', if_neg hdir]
          exact ⟨fun _ => ⟨hlive, fun h => absurd h htab⟩, fun _ => trivial⟩

/-! ## The table during a copy -/

/-- The entries of the table do not lie in the default scratch page. -/
theorem entry_not_mem_scratch (hL : L.Sound) {e j : Nat} (he : e < 128 * L.fileSystemTableSize) (hj : j < 2) :
    ¬(L.MICROBIT_DEFAULT_SCRATCH_PAGE ≤ L.fileSystemTable + 2 * e + j ∧
      L.fileSystemTable + 2 * e + j < L.MICROBIT_DEFAULT_SCRATCH_PAGE + MICROBIT_CODEPAGESIZE) := by
  have h1 := hL.outside
  have h2 := hL.table_lt
  unfold Layout.getBlock MBFS_BLOCK_SIZE at h1
  omega

/-- On the given page nothing is kept: a block in use that lies there is blank. -/
def Quiet (L : Layout) (m : Memory) (scratch : Nat) : Prop :=
  ∀ b < L.fileSystemSize, ¬L.Reusable m b → L.getPage b = scratch → Blank m (L.getBlock b) (L.getBlock b + 256)

/-- The blocks of the table are in use. -/
def Tabled (L : Layout) (m : Memory) : Prop := ∀ b < L.fileSystemTableSize, ¬L.Reusable m b

/-- A block whose entry in the table is blank can be used again. -/
theorem reusable_of_blank {m : Memory} {b : Nat} (h : Blank m (L.fileSystemTable + 2 * b) (L.fileSystemTable + 2 * b + 2)) :
    L.Reusable m b := by
  refine Or.inl ?_
  unfold Layout.getNextFileBlock readU16
  rw [h _ (by omega) (by omega), h _ (by omega) (by omega)]
  rfl

/-- A page with a block in use has its entries of the table on another page. -/
theorem entries_apart (hL : L.Sound) {m : Memory} (hq : Quiet L m scratch) (ht : Tabled L m)
    (hs : scratch % MICROBIT_CODEPAGESIZE = 0) {first : Nat} (hfirst : first % 16 = 0) (hin : first + 16 ≤ L.fileSystemSize)
    (hlive : ∃ i < 16, ¬L.Reusable m (first + i)) {i j : Nat} (hi : i < 16) (hj : j < 2) :
    ¬(scratch ≤ L.fileSystemTable + 2 * (first + i) + j ∧
      L.fileSystemTable + 2 * (first + i) + j < scratch + MICROBIT_CODEPAGESIZE) := by
  intro hx
  obtain ⟨i', hi', hl⟩ := hlive
  have hal := hL.aligned
  have hlt := hL.table_lt
  have he := hL.entry_lt (show first + i < L.fileSystemSize by omega)
  -- the block of the table with these entries
  have htb : (first + i) / 128 < L.fileSystemTableSize := by omega
  have hpage : L.getPage ((first + i) / 128) = scratch := by
    rw [hL.getPage_eq]
    unfold Layout.getBlock MBFS_BLOCK_SIZE MICROBIT_CODEPAGESIZE at *
    omega
  refine hl (reusable_of_blank fun x hx hx' => hq _ (by omega) (ht _ htb) hpage x ?_ ?_)
  · unfold Layout.getBlock MBFS_BLOCK_SIZE
    omega
  · unfold Layout.getBlock MBFS_BLOCK_SIZE
    omega

/-- Copying keeps the table of the page's blocks as it was. -/
theorem Copied.table_eq (hL : L.Sound) {block first : Nat} {type : BlockType} (hq : Quiet L u.flash scratch)
    (ht : Tabled L u.flash) (hs : scratch % MICROBIT_CODEPAGESIZE = 0) (hfirst : first % 16 = 0)
    (hin : first + 16 ≤ L.fileSystemSize) (h : Copied u page scratch c v)
    (hc : ∀ k, c k → Keeps L u.flash block type first k) {i : Nat} (hi : i < 16) :
    v.table (first + i) = u.table (first + i) := by
  refine readU16_congr fun j hj => ?_
  have hout := entry_not_mem_scratch hL (hL.entry_lt (show first + i < L.fileSystemSize by omega)) hj
  by_cases hlive : ∃ i < 16, ¬L.Reusable u.flash (first + i)
  · exact h.outside _ (entries_apart hL hq ht hs hfirst hin hlive hi hj) hout
  · -- nothing is copied
    by_cases hx : scratch ≤ L.fileSystemTable + 2 * (first + i) + j ∧
        L.fileSystemTable + 2 * (first + i) + j < scratch + MICROBIT_CODEPAGESIZE
    · have hleft := h.left (L.fileSystemTable + 2 * (first + i) + j - scratch) (by omega) fun hck => by
        have := (hc _ hck).1
        unfold MICROBIT_CODEPAGESIZE at hx
        exact hlive ⟨_, by omega, this⟩
      rwa [show scratch + (L.fileSystemTable + 2 * (first + i) + j - scratch) = L.fileSystemTable + 2 * (first + i) + j by
        omega] at hleft
    · exact h.outside _ hx hout

/-- The loop over the blocks of a page. -/
theorem copyPage (hL : L.Sound) {block first : Nat} {type : BlockType} (hp : CopyPlaces L u.flash (L.getBlock first) scratch)
    (hq : Quiet L u.flash scratch) (ht : Tabled L u.flash) (hfirst : first % 16 = 0) (hin : first + 16 ≤ L.fileSystemSize)
    (n : Nat) (hn : n ≤ 16) :
    Copied u (L.getBlock first) scratch (fun k => k < 256 * n ∧ Keeps L u.flash block type first k)
      ((List.range n).foldl (copyBlock block type first scratch) u) := by
  induction n with
  | zero => exact (Copied.refl u _ _).congr fun k _ => ⟨False.elim, fun h => by omega⟩
  | succ n ih =>
    rw [List.range_succ, List.foldl_append, List.foldl_cons, List.foldl_nil]
    have ih := ih (by omega)
    exact ih.block hL hp (by omega) (by omega)
      (ih.table_eq hL hq ht hp.scratch_mod hfirst hin (fun k hk => hk.2) (by omega))

/-! ## The page is put back -/

/-- The page is refreshed: of the volume `u`, what is at the offsets `c` is kept, and in the place of the rest is what the
scratch page held. -/
structure Refreshed (u : Volume L) (page scratch : Nat) (c : Nat → Prop) (w : Volume L) : Prop where
  erased : Blank w.flash scratch (scratch + MICROBIT_CODEPAGESIZE)
  kept : page ≠ scratch → ∀ k < MICROBIT_CODEPAGESIZE, c k → w.flash (page + k) = u.flash (page + k)
  dropped : page ≠ scratch → ∀ k < MICROBIT_CODEPAGESIZE, ¬c k → w.flash (page + k) = u.flash (scratch + k)
  outside : ∀ x, ¬(page ≤ x ∧ x < page + MICROBIT_CODEPAGESIZE) → ¬(scratch ≤ x ∧ x < scratch + MICROBIT_CODEPAGESIZE) →
    ¬(L.MICROBIT_DEFAULT_SCRATCH_PAGE ≤ x ∧ x < L.MICROBIT_DEFAULT_SCRATCH_PAGE + MICROBIT_CODEPAGESIZE) →
      w.flash x = u.flash x

/-- The end of `recycleBlock`. -/
def putBack (v : Volume L) (page scratch : Nat) : Volume L :=
  ((v.erasePage page).flashWrite page (slice (v.erasePage page).flash scratch MICROBIT_CODEPAGESIZE)).erasePage scratch

/-- Behind the copy the scratch page is blank. -/
theorem putBack_blank (v : Volume L) (page scratch : Nat) :
    Blank (v.putBack page scratch).flash scratch (scratch + MICROBIT_CODEPAGESIZE) :=
  fun _ hx hx' => if_pos ⟨hx, hx'⟩

/-- Copying back leaves the last block allocated alone. -/
theorem putBack_last (v : Volume L) (page scratch : Nat) : (v.putBack page scratch).lastBlockAllocated = v.lastBlockAllocated :=
  rfl

/-- What was copied to the scratch page is copied back. -/
theorem Copied.putBack (hL : L.Sound) (hp : CopyPlaces L u.flash page scratch) (h : Copied u page scratch c v) :
    Refreshed u page scratch c (v.putBack page scratch) := by
  have h1 := hp.page_mod
  have h2 := hp.scratch_mod
  have h3 := hp.page_ne
  have h4 := hL.scratch
  have hout : ∀ x, ¬(scratch ≤ x ∧ x < scratch + MICROBIT_CODEPAGESIZE) →
      ¬(L.MICROBIT_DEFAULT_SCRATCH_PAGE ≤ x ∧ x < L.MICROBIT_DEFAULT_SCRATCH_PAGE + MICROBIT_CODEPAGESIZE) →
      (v.putBack page scratch).flash x =
        put (v.erasePage page).flash page (slice (v.erasePage page).flash scratch MICROBIT_CODEPAGESIZE) x := by
    intro x hx hxd
    refine (if_neg hx : (v.putBack page scratch).flash x = _).trans ?_
    exact flashWrite_apply hL _ h1 (Nat.le_refl _) (by rw [slice_length]) (fun h' => absurd h' h3) fun _ => hxd
  -- a byte of the page comes from the scratch page
  have hpage : page ≠ scratch → ∀ k < MICROBIT_CODEPAGESIZE,
      (v.putBack page scratch).flash (page + k) = v.flash (scratch + k) := by
    intro hne k hk
    have hdisj : page + MICROBIT_CODEPAGESIZE ≤ scratch ∨ scratch + MICROBIT_CODEPAGESIZE ≤ page := by
      unfold MICROBIT_CODEPAGESIZE at *
      omega
    have hdisj' : page + MICROBIT_CODEPAGESIZE ≤ L.MICROBIT_DEFAULT_SCRATCH_PAGE ∨
        L.MICROBIT_DEFAULT_SCRATCH_PAGE + MICROBIT_CODEPAGESIZE ≤ page := by
      unfold MICROBIT_CODEPAGESIZE at *
      omega
    rw [hout _ (by omega) (by omega), put_of_mem _ _ (Nat.le_add_right _ _) (by rw [slice_length]; omega), slice_getElem,
      Nat.add_sub_cancel_left]
    exact if_neg (by omega)
  refine ⟨putBack_blank v page scratch, fun hne k hk hck => ?_, fun hne k hk hck => ?_, fun x hx hxs hxd => ?_⟩
  · rw [hpage hne k hk]
    exact h.copied k hk hck
  · rw [hpage hne k hk]
    exact h.left k hk hck
  · rw [hout x hxs hxd, put_of_not_mem _ _ (by rwa [slice_length])]
    exact (if_neg hx).trans (h.outside x hxs hxd)

end Volume

end CodalMicrobit

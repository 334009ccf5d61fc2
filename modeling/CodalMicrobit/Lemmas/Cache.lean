import CodalMicrobit.FSCache
import Mathlib.Tactic.Linarith

/-!
# What the cache operations do

The proofs about the cache do not look at entries. They look at the blocks a cache holds (`Loaded`), and at the part of
the address space on which those blocks agree with the flash (`Coherent`): `cachePage` adds at most one block, fresh from
flash, and `write` changes one block and the flash under it. Everything else about the entries only decides which block
is forgotten.
-/

namespace CodalMicrobit

open Nor

namespace FSCache

variable {g : Geometry} {bs n : Nat}

/-- The cache holds the block at address `a`, with the bytes `p`. -/
def Loaded (c : FSCache g bs n) (a : Nat) (p : Nat → UInt8) : Prop :=
  ∃ i, (c.cache i).address = a ∧ (c.cache i).page = some p

/-- No block is cached twice. -/
def Nodup (c : FSCache g bs n) : Prop :=
  ∀ i j, (c.cache i).page.isSome → (c.cache j).page.isSome → (c.cache i).address = (c.cache j).address → i = j

/-- Every byte of a cached block, at a block address, is in the relation `r` to the flash's, on the addresses in `R`. -/
def Agrees (r : UInt8 → UInt8 → Prop) (c : FSCache g bs n) (R : Nat → Prop) : Prop :=
  ∀ a p, bs ∣ a → c.Loaded a p → ∀ k, k < bs → R (a + k) → r (p k) (c.flash.mem (a + k))

/-- Every cached block, at a block address, agrees with the flash on the addresses in `R`. -/
def Coherent (c : FSCache g bs n) (R : Nat → Prop) : Prop := Agrees Eq c R

/-- The block at address `b` meets the `len` bytes from `a` on. -/
def Touches (bs a len b : Nat) : Prop := bs ∣ b ∧ b < a + len ∧ a < b + bs

/-- With every address in one entry at most, an address has one page in the cache. -/
theorem Nodup.loaded_unique {c : FSCache g bs n} (h : c.Nodup) {a : Nat} {p q : Nat → UInt8} (hp : c.Loaded a p)
    (hq : c.Loaded a q) : p = q := by
  obtain ⟨i, hi, hpi⟩ := hp
  obtain ⟨j, hj, hqj⟩ := hq
  have hij : i = j := h i j (by simp [hpi]) (by simp [hqj]) (hi.trans hj.symm)
  subst hij
  exact Option.some.inj (hpi.symm.trans hqj)

/-- Agreement on a set of addresses is agreement on a smaller one. -/
theorem Agrees.mono {r : UInt8 → UInt8 → Prop} {c : FSCache g bs n} {R S : Nat → Prop} (h : Agrees r c R)
    (hs : ∀ x, S x → R x) : Agrees r c S :=
  fun a p hd hp k hk hx => h a p hd hp k hk (hs _ hx)

/-- Agreement is kept where the flash stays as it was and the blocks that are newly cached lie elsewhere. -/
theorem Agrees.frame {r : UInt8 → UInt8 → Prop} {c c' : FSCache g bs n} {R : Nat → Prop} (h : Agrees r c R)
    (hmem : ∀ x, R x → c'.flash.mem x = c.flash.mem x)
    (hl : ∀ b q, bs ∣ b → c'.Loaded b q → c.Loaded b q ∨ ∀ k, k < bs → ¬R (b + k)) : Agrees r c' R := by
  intro b q hd hq k hk hx
  rw [hmem _ hx]
  rcases hl b q hd hq with hq | hout
  · exact h b q hd hq k hk hx
  · exact absurd hx (hout k hk)

/-! ## Finding an entry -/

/-- The two caches have the same flash and the same block in every entry. -/
def SameBlocks (c c' : FSCache g bs n) : Prop :=
  c'.flash = c.flash ∧ ∀ j, (c'.cache j).address = (c.cache j).address ∧ (c'.cache j).page = (c.cache j).page

/-- Entries that differ only in their stamps hold the same pages. -/
theorem SameBlocks.loaded {c c' : FSCache g bs n} (h : SameBlocks c c') {a : Nat} {p : Nat → UInt8} :
    c'.Loaded a p ↔ c.Loaded a p := by
  simp only [Loaded, (h.2 _).1, (h.2 _).2]

/-- Entries that differ only in their stamps keep their addresses apart. -/
theorem SameBlocks.nodup {c c' : FSCache g bs n} (h : SameBlocks c c') (hn : c.Nodup) : c'.Nodup := by
  intro i j
  simp only [(h.2 _).1, (h.2 _).2]
  exact hn i j

/-- The entry found has the address looked for and holds a page. -/
theorem find_eq_some {c : FSCache g bs n} {a : Nat} {i : Fin n} (h : c.find a = some i) :
    (c.cache i).address = a ∧ (c.cache i).page.isSome := by
  have hi := List.find?_some h
  simpa only [Bool.and_eq_true, beq_iff_eq] using hi

/-- An address that is not found is not in the cache. -/
theorem find_eq_none {c : FSCache g bs n} {a : Nat} (h : c.find a = none) (p : Nat → UInt8) : ¬c.Loaded a p := by
  rintro ⟨i, hi, hp⟩
  have hf := List.find?_eq_none.mp h i (List.mem_finRange i)
  simp [hi, hp] at hf

/-- A lookup that misses leaves the cache as it was. -/
theorem getCacheEntry_none {c c' : FSCache g bs n} {a : Nat} (h : c.getCacheEntry a = (none, c')) :
    c' = c ∧ ∀ p, ¬c.Loaded a p := by
  unfold getCacheEntry at h
  split at h
  · rename_i hf
    obtain ⟨-, rfl⟩ := Prod.mk.inj h
    exact ⟨rfl, find_eq_none hf⟩
  · nomatch h

/-- A lookup that hits changes no block, only when the entry was used. -/
theorem getCacheEntry_some {c c' : FSCache g bs n} {a : Nat} {i : Fin n} (h : c.getCacheEntry a = (some i, c')) :
    SameBlocks c c' ∧ (c.cache i).address = a ∧ (c.cache i).page.isSome := by
  unfold getCacheEntry at h
  split at h
  · nomatch h
  · rename_i j hf
    obtain ⟨hj, rfl⟩ := Prod.mk.inj h
    obtain rfl := Option.some.inj hj
    refine ⟨⟨rfl, fun k => ?_⟩, find_eq_some hf⟩
    by_cases hk : k = j
    · subst hk
      simp
    · simp [hk]

/-! ## Paging in a block -/

/-- What a call of `cachePage` leaves: entry `i` of `c'` holds the block at `b` with the bytes `p`, which the cache held
before or which are fresh from flash; the other blocks of `c'` were cached before. -/
structure Paged (c : FSCache g bs n) (b : Nat) (i : Fin n) (p : Nat → UInt8) (c' : FSCache g bs n) : Prop where
  flash_eq : c'.flash = c.flash
  nodup : c'.Nodup
  address : (c'.cache i).address = b
  page : (c'.cache i).page = some p
  origin : c.Loaded b p ∨ (∀ q, ¬c.Loaded b q) ∧ ∃ d, p = c.flash.read d b (bs / 4)
  others : ∀ a q, c'.Loaded a q → a = b ∧ q = p ∨ a ≠ b ∧ c.Loaded a q

/-- `cachePage` gives an entry that holds the block, fetched from flash where it was not there yet. -/
theorem cachePage_paged [NeZero n] (c : FSCache g bs n) (hn : c.Nodup) (b : Nat) :
    ∃ i p c', c.cachePage b = (i, c') ∧ Paged c b i p c' := by
  unfold cachePage
  split
  · rename_i i c' h
    obtain ⟨hs, ha, hp⟩ := getCacheEntry_some h
    obtain ⟨p, hp⟩ := Option.isSome_iff_exists.mp hp
    have hl : c.Loaded b p := ⟨i, ha, hp⟩
    refine ⟨i, p, c', rfl, hs.1, hs.nodup hn, (hs.2 i).1.trans ha, (hs.2 i).2.trans hp, Or.inl hl, ?_⟩
    intro a q hq
    rw [hs.loaded] at hq
    by_cases hab : a = b
    · subst hab
      exact Or.inl ⟨rfl, hn.loaded_unique hq hl⟩
    · exact Or.inr ⟨hab, hq⟩
  · rename_i c' h
    obtain ⟨rfl, hmiss⟩ := getCacheEntry_none h
    have hne : ∀ j, (c'.cache j).page.isSome → (c'.cache j).address ≠ b := by
      intro j hj hb
      obtain ⟨q, hq⟩ := Option.isSome_iff_exists.mp hj
      exact hmiss q ⟨j, hb, hq⟩
    refine ⟨c'.victim, c'.flash.read ((c'.cache c'.victim).page.getD c'.heap) b (bs / 4), _, rfl, rfl, ?_, by simp,
      by simp, Or.inr ⟨hmiss, _, rfl⟩, ?_⟩
    · intro j k hj hk hjk
      by_cases hjv : j = c'.victim <;> by_cases hkv : k = c'.victim <;>
        simp only [hjv, hkv, ne_eq, not_false_eq_true, Function.update_of_ne, Function.update_self] at hj hk hjk
      · exact hjv.trans hkv.symm
      · exact absurd hjk.symm (hne k hk)
      · exact absurd hjk (hne j hj)
      · exact hn j k hj hk hjk
    · rintro a q ⟨j, hja, hjq⟩
      by_cases hjv : j = c'.victim
      · subst hjv
        simp only [Function.update_self] at hja hjq
        exact Or.inl ⟨hja.symm, (Option.some.inj hjq).symm⟩
      · simp only [ne_eq, hjv, not_false_eq_true, Function.update_of_ne] at hja hjq
        refine Or.inr ⟨?_, j, hja, hjq⟩
        rw [← hja]
        exact hne j (by simp [hjq])

/-- The entry given back holds the page that `Paged` names. -/
theorem Paged.page_eq {c c' : FSCache g bs n} {b : Nat} {i : Fin n} {p : Nat → UInt8} (h : Paged c b i p c') :
    c'.page i = p := by
  simp [FSCache.page, h.page]

/-- A block read from inside the storage holds the flash's bytes. -/
theorem read_block {f : Flash g} {d : Nat → UInt8} {b k : Nat} (h4 : 4 ∣ bs) (hr : b + bs ≤ g.getFlashEnd)
    (hk : k < bs) : f.read d b (bs / 4) k = f.mem (b + k) := by
  have hbs : 4 * (bs / 4) = bs := Nat.mul_div_cancel' h4
  unfold Flash.read
  rw [hbs, if_pos hr, if_pos hk]

/-- Paging in a block never makes a coherent cache incoherent. -/
theorem Paged.coherent {c c' : FSCache g bs n} {b : Nat} {i : Fin n} {p : Nat → UInt8} {R : Nat → Prop}
    (h : Paged c b i p c') (h4 : 4 ∣ bs) (hr : b + bs ≤ g.getFlashEnd) (hc : c.Coherent R) : c'.Coherent R := by
  intro a q hd hq k hk hx
  rw [h.flash_eq]
  rcases h.others a q hq with ⟨rfl, rfl⟩ | ⟨-, hq⟩
  · rcases h.origin with hl | ⟨-, d, rfl⟩
    · exact hc a q hd hl k hk hx
    · exact read_block h4 hr hk
  · exact hc a q hd hq k hk hx

/-- In a coherent cache the paged block holds the flash's bytes. -/
theorem Paged.bytes {c c' : FSCache g bs n} {b : Nat} {i : Fin n} {p : Nat → UInt8} {R : Nat → Prop}
    (h : Paged c b i p c') (h4 : 4 ∣ bs) (hr : b + bs ≤ g.getFlashEnd) (hc : c.Coherent R) (hd : bs ∣ b) {k : Nat}
    (hk : k < bs) (hx : R (b + k)) : p k = c.flash.mem (b + k) := by
  rcases h.origin with hl | ⟨-, d, rfl⟩
  · exact hc b p hd hl k hk hx
  · exact read_block h4 hr hk

/-- Replacing the bytes of the block that was paged in. -/
theorem Paged.setPage {c c' : FSCache g bs n} {b : Nat} {i : Fin n} {p : Nat → UInt8} (h : Paged c b i p c')
    (q : Nat → UInt8) :
    (c'.setPage i q).Nodup ∧
      ∀ a r, (c'.setPage i q).Loaded a r → a = b ∧ r = q ∨ a ≠ b ∧ c.Loaded a r := by
  have hsome : (c'.cache i).page.isSome := by simp [h.page]
  constructor
  · intro j k hj hk hjk
    refine h.nodup j k ?_ ?_ ?_
    · by_cases hji : j = i
      · rw [hji]; exact hsome
      · simpa [FSCache.setPage, hji] using hj
    · by_cases hki : k = i
      · rw [hki]; exact hsome
      · simpa [FSCache.setPage, hki] using hk
    · by_cases hji : j = i
      · by_cases hki : k = i
        · rw [hji, hki]
        · simpa [FSCache.setPage, hji, hki] using hjk
      · by_cases hki : k = i <;> simpa [FSCache.setPage, hji, hki] using hjk
  · rintro a r ⟨j, hja, hjr⟩
    by_cases hji : j = i
    · subst hji
      simp only [FSCache.setPage, Function.update_self] at hja hjr
      exact Or.inl ⟨hja.symm.trans h.address, (Option.some.inj hjr).symm⟩
    · simp only [FSCache.setPage, ne_eq, hji, not_false_eq_true, Function.update_of_ne] at hja hjr
      have hab : a ≠ b := by
        intro hab
        have hj : j = i := h.nodup j i (by simp [hjr]) hsome (by rw [hja, hab, h.address])
        exact hji hj
      rcases h.others a r ⟨j, hja, hjr⟩ with ⟨hab', -⟩ | hr
      · exact absurd hab' hab
      · exact Or.inr hr

/-! ## Block arithmetic -/

/-- The block that the loops page in next, and the part of the request that lies in it. -/
theorem block_facts {a : Nat} (hbs : 0 < bs) :
    bs ∣ a / bs * bs ∧ a / bs * bs + a % bs = a ∧ a % bs < bs := by
  refine ⟨Nat.dvd_mul_left _ _, ?_, Nat.mod_lt _ hbs⟩
  rw [Nat.mul_comm]
  exact Nat.div_add_mod a bs

/-- A block that starts inside the storage ends inside it. -/
theorem block_le_end {b : Nat} (hd : bs ∣ b) (hdiv : bs ∣ g.getFlashEnd) (hb : b < g.getFlashEnd) :
    b + bs ≤ g.getFlashEnd := by
  obtain ⟨k, rfl⟩ := hd
  obtain ⟨m, hm⟩ := hdiv
  rw [hm] at hb ⊢
  have hkm : k < m := Nat.lt_of_mul_lt_mul_left hb
  calc bs * k + bs = bs * (k + 1) := (Nat.mul_succ bs k).symm
    _ ≤ bs * m := Nat.mul_le_mul_left bs hkm

/-- Two block addresses are equal or a block apart. -/
theorem block_disjoint {b b' : Nat} (hd : bs ∣ b) (hd' : bs ∣ b') (hne : b ≠ b') : b + bs ≤ b' ∨ b' + bs ≤ b := by
  obtain ⟨k, rfl⟩ := hd
  obtain ⟨m, rfl⟩ := hd'
  rcases Nat.lt_trichotomy k m with h | h | h
  · left
    calc bs * k + bs = bs * (k + 1) := (Nat.mul_succ bs k).symm
      _ ≤ bs * m := Nat.mul_le_mul_left bs h
  · exact absurd (by rw [h]) hne
  · right
    calc bs * m + bs = bs * (m + 1) := (Nat.mul_succ bs m).symm
      _ ≤ bs * k := Nat.mul_le_mul_left bs h

/-! ## Reading -/

/-- `c'` holds the blocks of `c` (not all, maybe), and besides only blocks among those the `len` bytes from `a` on meet,
fresh from the flash, which is the same. -/
structure Fetched (c : FSCache g bs n) (a len : Nat) (c' : FSCache g bs n) : Prop where
  flash_eq : c'.flash = c.flash
  nodup : c'.Nodup
  loaded : ∀ b q, c'.Loaded b q →
    c.Loaded b q ∨ Touches bs a len b ∧ ∀ k, k < bs → q k = c.flash.mem (b + k)

theorem Fetched.refl {c : FSCache g bs n} (hn : c.Nodup) (a len : Nat) : Fetched c a len c :=
  ⟨rfl, hn, fun _ _ h => Or.inl h⟩

/-- Fetched pages are copies of the flash, so a reflexive relation between the two survives. -/
theorem Fetched.agrees {r : UInt8 → UInt8 → Prop} {c c' : FSCache g bs n} {a len : Nat} {R : Nat → Prop}
    (h : Fetched c a len c') (hr : ∀ x, r x x) (hc : Agrees r c R) : Agrees r c' R := by
  intro b q hd hq k hk hx
  rw [h.flash_eq]
  rcases h.loaded b q hq with hq | ⟨-, hf⟩
  · exact hc b q hd hq k hk hx
  · rw [hf k hk]
    exact hr _

/-- Fetching pages keeps the cache coherent. -/
theorem Fetched.coherent {c c' : FSCache g bs n} {a len : Nat} {R : Nat → Prop} (h : Fetched c a len c')
    (hc : c.Coherent R) : c'.Coherent R :=
  h.agrees (fun _ => rfl) hc

/-- One turn of a loop, then the rest of it. -/
theorem Fetched.step {c c₁ c₂ : FSCache g bs n} {a len l : Nat} {i : Fin n} {p : Nat → UInt8} (hbs : 0 < bs)
    (h4 : 4 ∣ bs) (hdiv : bs ∣ g.getFlashEnd) (hl : l = min len (bs - a % bs)) (hlen : 0 < len)
    (ha : a + len ≤ g.getFlashEnd) (h₁ : Paged c (a / bs * bs) i p c₁) (h₂ : Fetched c₁ (a + l) (len - l) c₂) :
    Fetched c a len c₂ := by
  obtain ⟨hd, hsum, hlt⟩ := block_facts (a := a) hbs
  have hend : a / bs * bs + bs ≤ g.getFlashEnd := block_le_end hd hdiv (by omega)
  refine ⟨h₂.flash_eq.trans h₁.flash_eq, h₂.nodup, fun b q hq => ?_⟩
  rcases h₂.loaded b q hq with hq | ⟨ht, hf⟩
  · rcases h₁.others b q hq with ⟨rfl, rfl⟩ | ⟨-, hq⟩
    · rcases h₁.origin with hq | ⟨-, d, rfl⟩
      · exact Or.inl hq
      · exact Or.inr ⟨⟨hd, by omega, by omega⟩, fun k hk => read_block h4 hend hk⟩
    · exact Or.inl hq
  · rw [h₁.flash_eq] at hf
    exact Or.inr ⟨⟨ht.1, by have := ht.2.1; omega, by have := ht.2.2; omega⟩, hf⟩

/-- `read`'s loop fetches the blocks it crosses and does nothing else. -/
theorem readLoop_fetched [NeZero n] (hbs : 0 < bs) (h4 : 4 ∣ bs) (hdiv : bs ∣ g.getFlashEnd) (fuel : Nat) :
    ∀ (c : FSCache g bs n) (a len : Nat), c.Nodup → a + len ≤ g.getFlashEnd →
      Fetched c a len (c.readLoop a len fuel).2 := by
  induction fuel with
  | zero => exact fun c a len hn _ => Fetched.refl hn a len
  | succ fuel ih =>
    intro c a len hn ha
    by_cases hlen : len = 0
    · simp only [readLoop, hlen, if_true]
      exact Fetched.refl hn a 0
    · obtain ⟨i, p, c₁, hp, h₁⟩ := cachePage_paged c hn (a / bs * bs)
      have hw : u32 (a + min len (bs - a % bs)) = a + min len (bs - a % bs) := by
        have := g.getFlashEnd_lt
        exact u32_of_lt (by omega)
      simp only [readLoop, hlen, if_false, hp, hw]
      exact Fetched.step hbs h4 hdiv rfl (by omega) ha h₁ (ih c₁ _ _ h₁.nodup (by omega))

/-- Where the blocks it meets are coherent, the loop of `read` returns the flash's bytes. -/
theorem readLoop_bytes [NeZero n] (hbs : 0 < bs) (h4 : 4 ∣ bs) (hdiv : bs ∣ g.getFlashEnd) {R : Nat → Prop}
    (fuel : Nat) :
    ∀ (c : FSCache g bs n) (a len : Nat), c.Nodup → c.Coherent R → a + len ≤ g.getFlashEnd → len ≤ fuel →
      (∀ x, a ≤ x → x < a + len → R x) → (c.readLoop a len fuel).1 = slice c.flash.mem a len := by
  induction fuel with
  | zero =>
    intro c a len _ _ _ hf _
    obtain rfl : len = 0 := by omega
    rfl
  | succ fuel ih =>
    intro c a len hn hc ha hf hR
    by_cases hlen : len = 0
    · simp [readLoop, hlen]
    · obtain ⟨i, p, c₁, hp, h₁⟩ := cachePage_paged c hn (a / bs * bs)
      obtain ⟨hd, hsum, hlt⟩ := block_facts (a := a) hbs
      have hend : a / bs * bs + bs ≤ g.getFlashEnd := block_le_end hd hdiv (by omega)
      obtain ⟨l, hl⟩ : ∃ l, l = min len (bs - a % bs) := ⟨_, rfl⟩
      have hw : u32 (a + l) = a + l := by
        have := g.getFlashEnd_lt
        exact u32_of_lt (by omega)
      have hseg : slice p (a % bs) l = slice c.flash.mem a l := by
        rw [slice_eq_iff]
        refine ⟨by simp, fun k hk => ?_⟩
        rw [slice_length] at hk
        rw [slice_getElem, h₁.bytes h4 hend hc hd (by omega) (hR _ (by omega) (by omega))]
        congr 1
        omega
      have hrest := ih c₁ (a + l) (len - l) h₁.nodup (h₁.coherent h4 hend hc) (by omega) (by omega)
        (fun x h1 h2 => hR x (by omega) (by omega))
      simp only [readLoop, hlen, if_false, hp, ← hl, hw, h₁.page_eq, hrest, hseg, h₁.flash_eq]
      rw [← slice_add]
      congr 1
      omega

/-- A request that stays below the end of the storage passes the test. -/
theorem outOfLimits_eq_false {a len : Nat} (h : a + len < g.getFlashEnd) : outOfLimits g a len = false := by
  have := g.getFlashEnd_lt
  unfold outOfLimits
  rw [u32_of_lt (by omega)]
  simp only [Geometry.getFlashStart, Nat.not_lt_zero, decide_false, Bool.false_or, decide_eq_false_iff_not]
  omega

/-- `read` below the end of the storage: it succeeds, the cache has only fetched blocks, and where it is coherent the
bytes are the flash's. -/
theorem read_spec [NeZero n] (hbs : 0 < bs) (h4 : 4 ∣ bs) (hdiv : bs ∣ g.getFlashEnd) {R : Nat → Prop}
    (c : FSCache g bs n) {a len : Nat} (hn : c.Nodup) (hc : c.Coherent R) (ha : a + len < g.getFlashEnd)
    (hR : ∀ x, a ≤ x → x < a + len → R x) :
    ∃ c', c.read a len = (.DEVICE_OK, slice c.flash.mem a len, c') ∧ Fetched c a len c' := by
  refine ⟨(c.readLoop a len len).2, ?_, readLoop_fetched hbs h4 hdiv len c a len hn (by omega)⟩
  unfold FSCache.read
  rw [outOfLimits_eq_false ha, ← readLoop_bytes hbs h4 hdiv len c a len hn hc (by omega) (Nat.le_refl _) hR]
  rfl

/-! ## Validating a write -/

/-- `NEEDS_ERASE` is false exactly where the new byte can be programmed over the old one. -/
theorem needsErase_eq_false (b1 b2 : UInt8) : needsErase b1 b2 = false ↔ Legal b1 b2 := by
  rw [legal_iff_xor]
  unfold needsErase
  simp

/-- The test whether an erase is needed fetches blocks and does nothing else. -/
theorem validateLoop_fetched [NeZero n] (hbs : 0 < bs) (h4 : 4 ∣ bs) (hdiv : bs ∣ g.getFlashEnd) (fuel : Nat) :
    ∀ (c : FSCache g bs n) (a : Nat) (t : List UInt8), c.Nodup → a + t.length ≤ g.getFlashEnd →
      Fetched c a t.length (c.validateLoop a t fuel).2 := by
  induction fuel with
  | zero => exact fun c a t hn _ => Fetched.refl hn a t.length
  | succ fuel ih =>
    intro c a t hn ha
    by_cases ht : t = []
    · simp only [validateLoop, ht, if_true]
      exact Fetched.refl hn a _
    · have hlen : 0 < t.length := List.length_pos_iff.mpr ht
      obtain ⟨i, p, c₁, hp, h₁⟩ := cachePage_paged c hn (a / bs * bs)
      have hw : u32 (a + min t.length (bs - a % bs)) = a + min t.length (bs - a % bs) := by
        have := g.getFlashEnd_lt
        exact u32_of_lt (by omega)
      simp only [validateLoop, ht, if_false, hp, hw]
      split
      · -- the loop stops after this block: what it fetched is part of what the whole request meets
        refine Fetched.step hbs h4 hdiv rfl hlen ha h₁ (Fetched.refl h₁.nodup _ _)
      · refine Fetched.step hbs h4 hdiv rfl hlen ha h₁ ?_
        have hdrop := ih c₁ (a + min t.length (bs - a % bs)) (t.drop (min t.length (bs - a % bs))) h₁.nodup
          (by rw [List.length_drop]; omega)
        rwa [List.length_drop] at hdrop

/-- Where the blocks it meets are coherent, validation answers whether the flash can take every byte. -/
theorem validateLoop_iff [NeZero n] (hbs : 0 < bs) (h4 : 4 ∣ bs) (hdiv : bs ∣ g.getFlashEnd) {R : Nat → Prop}
    (fuel : Nat) :
    ∀ (c : FSCache g bs n) (a : Nat) (t : List UInt8), c.Nodup → c.Coherent R → a + t.length ≤ g.getFlashEnd →
      t.length ≤ fuel → (∀ x, a ≤ x → x < a + t.length → R x) →
      ((c.validateLoop a t fuel).1 = true ↔ ∀ k (h : k < t.length), Legal (c.flash.mem (a + k)) t[k]) := by
  induction fuel with
  | zero =>
    intro c a t _ _ _ hf _
    have ht : t.length = 0 := by omega
    refine ⟨fun _ k hk => absurd hk (by omega), fun _ => rfl⟩
  | succ fuel ih =>
    intro c a t hn hc ha hf hR
    by_cases ht : t = []
    · subst ht
      simp [validateLoop]
    · have hlen : 0 < t.length := List.length_pos_iff.mpr ht
      obtain ⟨i, p, c₁, hp, h₁⟩ := cachePage_paged c hn (a / bs * bs)
      obtain ⟨hd, hsum, hlt⟩ := block_facts (a := a) hbs
      have hend : a / bs * bs + bs ≤ g.getFlashEnd := block_le_end hd hdiv (by omega)
      obtain ⟨l, hl⟩ : ∃ l, l = min t.length (bs - a % bs) := ⟨_, rfl⟩
      have hw : u32 (a + l) = a + l := by
        have := g.getFlashEnd_lt
        exact u32_of_lt (by omega)
      have hbyte : ∀ k, k < l → p (a % bs + k) = c.flash.mem (a + k) := by
        intro k hk
        rw [h₁.bytes h4 hend hc hd (by omega) (hR _ (by omega) (by omega))]
        congr 1
        omega
      have hrest := ih c₁ (a + l) (t.drop l) h₁.nodup (h₁.coherent h4 hend hc) (by rw [List.length_drop]; omega)
        (by rw [List.length_drop]; omega) (fun x h1 h2 => hR x (by omega) (by rw [List.length_drop] at h2; omega))
      simp only [validateLoop, ht, if_false, hp, ← hl, hw, h₁.page_eq]
      have hseg : ((List.range l).any fun k => needsErase (p (a % bs + k)) (t.getD k 0)) = false ↔
          ∀ k (_ : k < t.length), k < l → Legal (c.flash.mem (a + k)) t[k] := by
        rw [List.any_eq_false]
        refine ⟨fun h k _ hk => ?_, fun h k hk => ?_⟩
        · have hb := h k (List.mem_range.mpr hk)
          rw [Bool.not_eq_true, needsErase_eq_false, hbyte k hk, List.getD_eq_getElem _ _ (by omega)] at hb
          exact hb
        · have hk := List.mem_range.mp hk
          rw [Bool.not_eq_true, needsErase_eq_false, hbyte k hk, List.getD_eq_getElem _ _ (by omega)]
          exact h k (by omega) hk
      cases hany : (List.range l).any fun k => needsErase (p (a % bs + k)) (t.getD k 0)
      · rw [if_neg (by simp), hrest, h₁.flash_eq]
        rw [hany] at hseg
        have hseg := hseg.mp rfl
        constructor
        · intro h k hk
          by_cases hkl : k < l
          · exact hseg k hk hkl
          · have hk' := h (k - l) (by rw [List.length_drop]; omega)
            rw [List.getElem_drop] at hk'
            simpa only [show a + l + (k - l) = a + k by omega, show l + (k - l) = k by omega] using hk'
        · intro h k hk
          rw [List.length_drop] at hk
          rw [List.getElem_drop]
          have hk' := h (l + k) (by omega)
          rwa [← Nat.add_assoc] at hk'
      · rw [if_pos rfl]
        rw [hany] at hseg
        refine ⟨fun h => absurd h (by simp), fun h => ?_⟩
        exact absurd (hseg.mpr fun k hk _ => h k hk) (by simp)

/-! ## Writing through -/

/-- The first and the last address of the words that cover the `len` bytes from `a` on. -/
def wordStart (a : Nat) : Nat := a / 4 * 4

def wordEnd (b : Nat) : Nat := b / 4 * 4 + if b % 4 ≠ 0 then 4 else 0

/-- The word that holds an address starts at most three bytes before it. -/
theorem wordStart_le (a : Nat) : wordStart a ≤ a ∧ a < wordStart a + 4 ∧ 4 ∣ wordStart a := by
  unfold wordStart
  omega

/-- The words that cover a range end at most three bytes behind it. -/
theorem wordEnd_ge (b : Nat) : b ≤ wordEnd b ∧ wordEnd b < b + 4 ∧ 4 ∣ wordEnd b := by
  unfold wordEnd
  split <;> omega

/-- What a write of `len` bytes at `a` does to a cache, whatever it holds: the flash operations lie in the words that
cover the bytes, and only blocks that the bytes meet are loaded or changed. -/
structure Wrote (c : FSCache g bs n) (a len : Nat) (ops : List Op) (c' : FSCache g bs n) : Prop where
  after : c.flash.After ops c'.flash
  nodup : c'.Nodup
  within : ∀ o ∈ ops, ∀ x, o.Covers x → wordStart a ≤ x ∧ x < wordEnd (a + len)
  loaded : ∀ b q, c'.Loaded b q → c.Loaded b q ∨ Touches bs a len b

theorem Wrote.refl {c : FSCache g bs n} (hn : c.Nodup) (a len : Nat) : Wrote c a len [] c :=
  ⟨Flash.After.refl _, hn, by simp, fun _ _ h => Or.inl h⟩

/-- Fetching pages is writing nothing. -/
theorem Fetched.wrote {c c' : FSCache g bs n} {a len : Nat} (h : Fetched c a len c') : Wrote c a len [] c' := by
  refine ⟨?_, h.nodup, by simp, fun b q hq => ?_⟩
  · rw [h.flash_eq]
    exact Flash.After.refl _
  · rcases h.loaded b q hq with hq | ⟨ht, -⟩
    · exact Or.inl hq
    · exact Or.inr ht

theorem Wrote.trans {c c₁ c₂ : FSCache g bs n} {a len : Nat} {ops ops' : List Op} (h : Wrote c a len ops c₁)
    (h' : Wrote c₁ a len ops' c₂) : Wrote c a len (ops ++ ops') c₂ := by
  refine ⟨h.after.trans h'.after, h'.nodup, fun o ho => ?_, fun b q hq => ?_⟩
  · rcases List.mem_append.mp ho with ho | ho
    · exact h.within o ho
    · exact h'.within o ho
  · rcases h'.loaded b q hq with hq | ht
    · exact h.loaded b q hq
    · exact Or.inr ht

/-- A write at the end of a longer one. -/
theorem Wrote.widen {c c' : FSCache g bs n} {a len l : Nat} {ops : List Op} (h : Wrote c (a + l) (len - l) ops c')
    (hl : l ≤ len) : Wrote c a len ops c' := by
  refine ⟨h.after, h.nodup, fun o ho x hx => ?_, fun b q hq => ?_⟩
  · have hw := h.within o ho x hx
    rw [show a + l + (len - l) = a + len by omega] at hw
    have h1 := wordStart_le (a + l)
    have h2 := wordStart_le a
    refine ⟨?_, hw.2⟩
    unfold wordStart at hw ⊢
    omega
  · rcases h.loaded b q hq with hq | ht
    · exact Or.inl hq
    · exact Or.inr ⟨ht.1, by have := ht.2.1; omega, by have := ht.2.2; omega⟩

/-- Bytes outside the written words keep their value. -/
theorem Wrote.mem_eq {c c' : FSCache g bs n} {a len : Nat} {ops : List Op} (h : Wrote c a len ops c') {x : Nat}
    (hx : ¬(wordStart a ≤ x ∧ x < wordEnd (a + len))) : c'.flash.mem x = c.flash.mem x := by
  rw [h.after.1]
  exact replay_of_not_covers _ fun o ho hc => hx (h.within o ho x hc)

/-- The words that cover bytes between two block addresses lie between them too. -/
theorem words_within {a l lo hi : Nat} (hlo : 4 ∣ lo) (hhi : 4 ∣ hi) (h1 : lo ≤ a) (h2 : a + l ≤ hi) :
    lo ≤ wordStart a ∧ wordEnd (a + l) ≤ hi := by
  have hs := wordStart_le a
  have he := wordEnd_ge (a + l)
  omega

/-- A write between two block addresses leaves the cache in agreement with the flash outside them. -/
theorem Wrote.agrees {r : UInt8 → UInt8 → Prop} {c c' : FSCache g bs n} {a len lo hi : Nat} {ops : List Op}
    {R : Nat → Prop} (h : Wrote c a len ops c') (hc : Agrees r c R) (h4 : 4 ∣ bs) (hlo : bs ∣ lo) (hhi : bs ∣ hi)
    (h1 : lo ≤ a) (h2 : a + len ≤ hi) (hR : ∀ x, R x → x < lo ∨ hi ≤ x) : Agrees r c' R := by
  intro b q hd hq k hk hx
  have hout := hR _ hx
  have hw := words_within (h4.trans hlo) (h4.trans hhi) h1 h2
  rw [h.mem_eq (by omega)]
  rcases h.loaded b q hq with hq | ⟨-, ht1, ht2⟩
  · exact hc b q hd hq k hk hx
  · exfalso
    have hlob : b = lo ∨ b + bs ≤ lo ∨ lo + bs ≤ b := by
      by_cases hbl : b = lo
      · exact Or.inl hbl
      · exact Or.inr (block_disjoint hd hlo hbl)
    have hhib : b = hi ∨ b + bs ≤ hi ∨ hi + bs ≤ b := by
      by_cases hbh : b = hi
      · exact Or.inl hbh
      · exact Or.inr (block_disjoint hd hhi hbh)
    omega

/-- The operations one turn of the write loop issues. -/
def turnOps (bs a l : Nat) (p : Nat → UInt8) : List Op :=
  programWords 4 (wordStart a) ((wordEnd (a + l) - wordStart a) / 4) fun k => p (wordStart a % bs + k)

/-- The words one turn writes through lie in the block it paged in. -/
theorem turn_words {a l : Nat} (hbs : 0 < bs) (h4 : 4 ∣ bs) (hl : l ≤ bs - a % bs) :
    a / bs * bs ≤ wordStart a ∧ wordEnd (a + l) ≤ a / bs * bs + bs ∧
      a / bs * bs + wordStart a % bs = wordStart a ∧
      wordStart a + 4 * ((wordEnd (a + l) - wordStart a) / 4) = wordEnd (a + l) := by
  obtain ⟨hd, hsum, hlt⟩ := block_facts (a := a) hbs
  have hd' : bs ∣ a / bs * bs + bs := Nat.dvd_add hd (Nat.dvd_refl bs)
  have hle : a + l ≤ a / bs * bs + bs := by omega
  obtain ⟨h1, h2⟩ := words_within (h4.trans hd) (h4.trans hd') (by omega) hle
  have hs := wordStart_le a
  have he := wordEnd_ge (a + l)
  have hdiv : wordStart a / bs = a / bs := by
    refine Nat.div_eq_of_lt_le (by rw [Nat.mul_comm, Nat.mul_comm] at *; omega) ?_
    rw [Nat.succ_mul]
    omega
  have hmod := Nat.div_add_mod (wordStart a) bs
  rw [hdiv, Nat.mul_comm] at hmod
  refine ⟨h1, h2, hmod, ?_⟩
  omega

/-- One turn of the write loop: `c'` is `c` with the bytes `t` at `a` in the block that was paged in, written through. -/
def turn (c : FSCache g bs n) (i : Fin n) (a l : Nat) (p : Nat → UInt8) : FSCache g bs n :=
  { c.setPage i p with
    flash := c.flash.write (wordStart a) (fun k => p (wordStart a % bs + k)) ((wordEnd (a + l) - wordStart a) / 4) }

/-- One turn of `write`'s loop, on a block that `cachePage` gave it. -/
theorem turn_wrote {c c₁ : FSCache g bs n} {a l : Nat} {i : Fin n} {p : Nat → UInt8} (hbs : 0 < bs) (h4 : 4 ∣ bs)
    (hdiv : bs ∣ g.getFlashEnd) (h₁ : Paged c (a / bs * bs) i p c₁) (hl : l ≤ bs - a % bs) (hpos : 0 < l)
    (ha : a + l ≤ g.getFlashEnd) (q : Nat → UInt8) :
    Wrote c a l (turnOps bs a l q) (turn c₁ i a l q) := by
  obtain ⟨hd, hsum, hlt⟩ := block_facts (a := a) hbs
  have hend : a / bs * bs + bs ≤ g.getFlashEnd := block_le_end hd hdiv (by omega)
  obtain ⟨hw1, hw2, -, hw4⟩ := turn_words hbs h4 hl
  obtain ⟨hn, hl'⟩ := h₁.setPage q
  refine ⟨?_, hn, fun o ho x hx => ?_, fun b r hr => ?_⟩
  · rw [← h₁.flash_eq]
    exact Flash.after_write c₁.flash _ (by omega)
  · have := covers_of_mem_programWords ho hx
    omega
  · rcases hl' b r hr with ⟨rfl, -⟩ | ⟨-, hr⟩
    · exact Or.inr ⟨hd, by omega, by omega⟩
    · exact Or.inl hr

theorem writeLoop_succ [NeZero n] {c c₁ : FSCache g bs n} {a fuel : Nat} {t : List UInt8} {i : Fin n}
    {p : Nat → UInt8} (ht : t ≠ []) (hp : c.cachePage (a / bs * bs) = (i, c₁)) (h₁ : Paged c (a / bs * bs) i p c₁)
    (ha : a + t.length ≤ g.getFlashEnd) {l : Nat} (hl : l = min t.length (bs - a % bs)) :
    c.writeLoop a t (fuel + 1) =
      (turn c₁ i a l (put p (a % bs) (t.take l))).writeLoop (a + l) (t.drop l) fuel := by
  have hw : u32 (a + l) = a + l := by
    have := g.getFlashEnd_lt
    exact u32_of_lt (by omega)
  simp only [writeLoop, ht, if_false, hp, ← hl, hw, h₁.page_eq]
  rfl

/-- The whole loop changes the range asked for and programs whole words only. -/
theorem writeLoop_wrote [NeZero n] (hbs : 0 < bs) (h4 : 4 ∣ bs) (hdiv : bs ∣ g.getFlashEnd) (fuel : Nat) :
    ∀ (c : FSCache g bs n) (a : Nat) (t : List UInt8), c.Nodup → a + t.length ≤ g.getFlashEnd →
      ∃ ops, Wrote c a t.length ops (c.writeLoop a t fuel) := by
  induction fuel with
  | zero => exact fun c a t hn _ => ⟨[], Wrote.refl hn a t.length⟩
  | succ fuel ih =>
    intro c a t hn ha
    by_cases ht : t = []
    · simp only [writeLoop, ht, if_true]
      exact ⟨[], Wrote.refl hn a _⟩
    · have hlen : 0 < t.length := List.length_pos_iff.mpr ht
      obtain ⟨i, p, c₁, hp, h₁⟩ := cachePage_paged c hn (a / bs * bs)
      obtain ⟨hd, hsum, hlt⟩ := block_facts (a := a) hbs
      obtain ⟨l, hl⟩ : ∃ l, l = min t.length (bs - a % bs) := ⟨_, rfl⟩
      rw [writeLoop_succ ht hp h₁ ha hl]
      have hturn := turn_wrote hbs h4 hdiv h₁ (l := l) (by omega) (by omega) (by omega)
        (put p (a % bs) (t.take l))
      obtain ⟨ops, hops⟩ := ih _ (a + l) (t.drop l) hturn.nodup (by rw [List.length_drop]; omega)
      rw [List.length_drop] at hops
      refine ⟨turnOps bs a l (put p (a % bs) (t.take l)) ++ ops, Wrote.trans ?_ (hops.widen (by omega))⟩
      -- the first turn alone is a write of the first `l` bytes
      refine ⟨hturn.after, hturn.nodup, fun o ho x hx => ?_, fun b q hq => ?_⟩
      · have hw := hturn.within o ho x hx
        have h1 := wordEnd_ge (a + l)
        have h2 := wordEnd_ge (a + t.length)
        omega
      · rcases hturn.loaded b q hq with hq | ht'
        · exact Or.inl hq
        · exact Or.inr ⟨ht'.1, by have := ht'.2.1; omega, ht'.2.2⟩

/-! ## Writing where the cache is coherent -/

/-- One turn in a coherent block: at every word the flash holds the old bytes with a beginning of the new ones put over
them, and at the end all of them. -/
theorem turn_put {c c₁ : FSCache g bs n} {a l : Nat} {i : Fin n} {p : Nat → UInt8} {R : Nat → Prop} {t : List UInt8}
    (hbs : 0 < bs) (h4 : 4 ∣ bs) (hdiv : bs ∣ g.getFlashEnd) (h₁ : Paged c (a / bs * bs) i p c₁)
    (hc : c.Coherent R) (hl : l ≤ bs - a % bs) (hpos : 0 < l) (ht : t.length = l) (ha : a + l ≤ g.getFlashEnd)
    (hR : ∀ k, k < bs → R (a / bs * bs + k)) (hleg : ∀ k (h : k < t.length), Legal (c.flash.mem (a + k)) t[k]) :
    (∀ k, ∃ j, replay c.flash.mem ((turnOps bs a l (put p (a % bs) t)).take k) = put c.flash.mem a (t.take j)) ∧
      (turn c₁ i a l (put p (a % bs) t)).flash.mem = put c.flash.mem a t ∧
      (turn c₁ i a l (put p (a % bs) t)).Coherent R := by
  obtain ⟨hd, hsum, hlt⟩ := block_facts (a := a) hbs
  have hend : a / bs * bs + bs ≤ g.getFlashEnd := block_le_end hd hdiv (by omega)
  obtain ⟨hw1, hw2, hw3, hw4⟩ := turn_words hbs h4 hl
  have hbyte : ∀ y, y < bs → put p (a % bs) t y = put c.flash.mem a t (a / bs * bs + y) := by
    intro y hy
    rw [put_shift t (h₁.bytes h4 hend hc hd hy (hR y hy)), hsum]
  have hcut : ∀ k, replay c.flash.mem ((turnOps bs a l (put p (a % bs) t)).take k) =
      put c.flash.mem a
        (t.take (wordStart a + 4 * min k ((wordEnd (a + l) - wordStart a) / 4) - a)) := by
    intro k
    rw [turnOps, programWords_take, replay_programWords]
    refine program_copy (wordStart_le a).1 (fun y hy => ?_) hleg
    have hy' : y < 4 * ((wordEnd (a + l) - wordStart a) / 4) := by omega
    rw [hbyte _ (by omega)]
    congr 1
    omega
  have hall : (turn c₁ i a l (put p (a % bs) t)).flash.mem = put c.flash.mem a t := by
    have hw := turn_wrote hbs h4 hdiv h₁ hl hpos ha (put p (a % bs) t)
    have hk := hcut ((wordEnd (a + l) - wordStart a) / 4)
    rw [List.take_of_length_le (by rw [turnOps, programWords_length])] at hk
    rw [hw.after.1, hk, Nat.min_self, hw4, List.take_of_length_le]
    have := wordEnd_ge (a + l)
    omega
  refine ⟨fun k => ⟨_, hcut k⟩, hall, ?_⟩
  obtain ⟨-, hload⟩ := h₁.setPage (put p (a % bs) t)
  intro b q hdb hq k hk hx
  rw [hall]
  rcases hload b q hq with ⟨rfl, rfl⟩ | ⟨hne, hq⟩
  · exact hbyte k hk
  · rw [put_of_not_mem, hc b q hdb hq k hk hx]
    have := block_disjoint hdb hd hne
    omega

/-- The write loop where the blocks it meets are coherent and every byte can be written. -/
theorem writeLoop_put [NeZero n] (hbs : 0 < bs) (h4 : 4 ∣ bs) (hdiv : bs ∣ g.getFlashEnd) {R : Nat → Prop}
    (fuel : Nat) :
    ∀ (c : FSCache g bs n) (a : Nat) (t : List UInt8), c.Nodup → c.Coherent R → a + t.length ≤ g.getFlashEnd →
      t.length ≤ fuel → (∀ b, Touches bs a t.length b → ∀ k, k < bs → R (b + k)) →
      (∀ k (h : k < t.length), Legal (c.flash.mem (a + k)) t[k]) →
      ∃ ops, Wrote c a t.length ops (c.writeLoop a t fuel) ∧
        (c.writeLoop a t fuel).flash.mem = put c.flash.mem a t ∧ (c.writeLoop a t fuel).Coherent R ∧
        ∀ k, ∃ j, replay c.flash.mem (ops.take k) = put c.flash.mem a (t.take j) := by
  induction fuel with
  | zero =>
    intro c a t hn hc _ hf _ _
    have ht : t = [] := List.eq_nil_of_length_eq_zero (by omega)
    subst ht
    exact ⟨[], Wrote.refl hn a _, by simp [writeLoop], hc, fun k => ⟨0, by simp⟩⟩
  | succ fuel ih =>
    intro c a t hn hc ha hf hR hleg
    by_cases ht : t = []
    · subst ht
      simp only [writeLoop, if_true]
      exact ⟨[], Wrote.refl hn a _, by simp, hc, fun k => ⟨0, by simp⟩⟩
    · have hlen : 0 < t.length := List.length_pos_iff.mpr ht
      obtain ⟨i, p, c₁, hp, h₁⟩ := cachePage_paged c hn (a / bs * bs)
      obtain ⟨hd, hsum, hlt⟩ := block_facts (a := a) hbs
      obtain ⟨l, hl⟩ : ∃ l, l = min t.length (bs - a % bs) := ⟨_, rfl⟩
      have hseg : (t.take l).length = l := by rw [List.length_take]; omega
      have htouch : Touches bs a t.length (a / bs * bs) := ⟨hd, by omega, by omega⟩
      obtain ⟨hcut, hmem, hcoh⟩ := turn_put (t := t.take l) hbs h4 hdiv h₁ hc (by omega) (by omega) hseg (by omega)
        (hR _ htouch) (fun k hk => by rw [List.getElem_take]; exact hleg k (by omega))
      have hturn := turn_wrote hbs h4 hdiv h₁ (l := l) (by omega) (by omega) (by omega) (put p (a % bs) (t.take l))
      rw [writeLoop_succ ht hp h₁ ha hl]
      have hdrop : (t.drop l).length = t.length - l := List.length_drop
      obtain ⟨ops, hops, hmem', hcoh', hcut'⟩ := ih (turn c₁ i a l (put p (a % bs) (t.take l))) (a + l) (t.drop l)
        hturn.nodup hcoh (by omega) (by omega)
        (fun b hb => hR b ⟨hb.1, by have := hb.2.1; omega, by have := hb.2.2; omega⟩)
        (fun k hk => by
          rw [hmem, put_of_le _ _ (by omega), List.getElem_drop, Nat.add_assoc]
          exact hleg (l + k) (by omega))
      rw [hmem] at hmem' hcut'
      have hglue : ∀ u, put (put c.flash.mem a (t.take l)) (a + l) u = put c.flash.mem a (t.take l ++ u) := by
        intro u
        rw [put_append, hseg]
      rw [hdrop] at hops
      refine ⟨turnOps bs a l (put p (a % bs) (t.take l)) ++ ops, ?_, ?_, hcoh', fun k => ?_⟩
      · refine Wrote.trans ⟨hturn.after, hturn.nodup, fun o ho x hx => ?_, fun b q hq => ?_⟩ (hops.widen (by omega))
        · have hw := hturn.within o ho x hx
          have h1 := wordEnd_ge (a + l)
          have h2 := wordEnd_ge (a + t.length)
          omega
        · rcases hturn.loaded b q hq with hq | ht'
          · exact Or.inl hq
          · exact Or.inr ⟨ht'.1, by have := ht'.2.1; omega, ht'.2.2⟩
      · rw [hmem', hglue, List.take_append_drop]
      · rw [List.take_append, replay_append]
        rcases Nat.le_total k (turnOps bs a l (put p (a % bs) (t.take l))).length with hk | hk
        · rw [Nat.sub_eq_zero_of_le hk, List.take_zero, replay_nil]
          obtain ⟨j, hj⟩ := hcut k
          exact ⟨min j l, by rw [hj, List.take_take]⟩
        · rw [List.take_of_length_le hk, ← hturn.after.1, hmem]
          obtain ⟨j, hj⟩ := hcut' (k - (turnOps bs a l (put p (a % bs) (t.take l))).length)
          refine ⟨l + j, ?_⟩
          rw [hj, hglue, List.take_add]

/-! ## The two specifications of `write` -/

/-- `write` below the end of the storage, whatever the cache holds. -/
theorem write_wrote [NeZero n] (hbs : 0 < bs) (h4 : 4 ∣ bs) (hdiv : bs ∣ g.getFlashEnd) (c : FSCache g bs n)
    {a : Nat} {t : List UInt8} (hn : c.Nodup) (ha : a + t.length < g.getFlashEnd) :
    ∃ ops, Wrote c a t.length ops (c.write a t).2 := by
  have hv := validateLoop_fetched hbs h4 hdiv t.length c a t hn (by omega)
  unfold FSCache.write
  rw [outOfLimits_eq_false ha, if_neg (by simp)]
  split
  · rename_i c₁ h
    rw [h] at hv
    exact ⟨[], hv.wrote⟩
  · rename_i c₁ h
    rw [h] at hv
    obtain ⟨ops, hops⟩ := writeLoop_wrote hbs h4 hdiv t.length c₁ a t hv.nodup (by omega)
    exact ⟨[] ++ ops, hv.wrote.trans hops⟩

/-- `write` of bytes the flash can take, where the cache is coherent: it succeeds, the flash and the cache hold the new
bytes, and a power cut leaves a beginning of them. -/
theorem write_put [NeZero n] (hbs : 0 < bs) (h4 : 4 ∣ bs) (hdiv : bs ∣ g.getFlashEnd) {R : Nat → Prop}
    (c : FSCache g bs n) {a : Nat} {t : List UInt8} (hn : c.Nodup) (hc : c.Coherent R)
    (ha : a + t.length < g.getFlashEnd) (hR : ∀ b, Touches bs a t.length b → ∀ k, k < bs → R (b + k))
    (hleg : ∀ k (h : k < t.length), Legal (c.flash.mem (a + k)) t[k]) :
    ∃ ops c', c.write a t = (.DEVICE_OK, c') ∧ Wrote c a t.length ops c' ∧ c'.flash.mem = put c.flash.mem a t ∧
      c'.Coherent R ∧ ∀ k, ∃ j, replay c.flash.mem (ops.take k) = put c.flash.mem a (t.take j) := by
  have hRx : ∀ x, a ≤ x → x < a + t.length → R x := by
    intro x h1 h2
    obtain ⟨hd, hsum, hlt⟩ := block_facts (a := x) hbs
    have hx := hR (x / bs * bs) ⟨hd, by omega, by omega⟩ (x % bs) hlt
    rwa [hsum] at hx
  have hv := validateLoop_fetched hbs h4 hdiv t.length c a t hn (by omega)
  have hiff := validateLoop_iff hbs h4 hdiv t.length c a t hn hc (by omega) (Nat.le_refl _) hRx
  obtain ⟨c₁, h₁⟩ : ∃ c₁, c.validateLoop a t t.length = (true, c₁) := ⟨_, Prod.ext (hiff.mpr hleg) rfl⟩
  rw [h₁] at hv
  obtain ⟨ops, hops, hmem, hcoh, hcut⟩ := writeLoop_put hbs h4 hdiv t.length c₁ a t hv.nodup (hv.coherent hc) (by omega)
    (Nat.le_refl _) hR (by rw [hv.flash_eq]; exact hleg)
  rw [hv.flash_eq] at hmem hcut
  refine ⟨ops, _, ?_, ?_, hmem, hcoh, hcut⟩
  · unfold FSCache.write
    rw [outOfLimits_eq_false ha, if_neg (by simp), h₁]
  · exact hv.wrote.trans hops

/-- `write` of bytes the flash cannot take, where the cache is coherent: it is refused and changes nothing. -/
theorem write_refused [NeZero n] (hbs : 0 < bs) (h4 : 4 ∣ bs) (hdiv : bs ∣ g.getFlashEnd) {R : Nat → Prop}
    (c : FSCache g bs n) {a : Nat} {t : List UInt8} (hn : c.Nodup) (hc : c.Coherent R)
    (ha : a + t.length < g.getFlashEnd) (hR : ∀ x, a ≤ x → x < a + t.length → R x)
    (hleg : ¬∀ k (h : k < t.length), Legal (c.flash.mem (a + k)) t[k]) :
    ∃ c', c.write a t = (.DEVICE_NOT_SUPPORTED, c') ∧ Fetched c a t.length c' := by
  have hv := validateLoop_fetched hbs h4 hdiv t.length c a t hn (by omega)
  have hiff := validateLoop_iff hbs h4 hdiv t.length c a t hn hc (by omega) (Nat.le_refl _) hR
  obtain ⟨c₁, h₁⟩ : ∃ c₁, c.validateLoop a t t.length = (false, c₁) :=
    ⟨_, Prod.ext (Bool.eq_false_iff.mpr fun h => hleg (hiff.mp h)) rfl⟩
  rw [h₁] at hv
  refine ⟨c₁, ?_, hv⟩
  unfold FSCache.write
  rw [outOfLimits_eq_false ha, if_neg (by simp), h₁]

/-! ## Any read -/

/-- Every block address of the storage is cached at most once, and then with the flash's bytes. -/
def Faithful (c : FSCache g bs n) : Prop := c.Nodup ∧ c.Coherent fun x => x < g.getFlashEnd

/-- A cache with no page in it is faithful. -/
theorem faithful_of_empty {c : FSCache g bs n} (h : ∀ i, (c.cache i).page = none) : c.Faithful := by
  constructor
  · intro i j hi
    simp [h i] at hi
  · rintro a p - ⟨i, -, hp⟩
    simp [h i] at hp

/-- Paging in any address, a block address or not, keeps the cache faithful. -/
theorem cachePage_faithful [NeZero n] {c : FSCache g bs n} (h4 : 4 ∣ bs) (hdiv : bs ∣ g.getFlashEnd)
    (h : c.Faithful) {b : Nat} {i : Fin n} {c' : FSCache g bs n} (hp : c.cachePage b = (i, c')) : c'.Faithful := by
  obtain ⟨j, p, c₁, hp', h₁⟩ := cachePage_paged c h.1 b
  obtain ⟨rfl, rfl⟩ := Prod.mk.inj (hp.symm.trans hp')
  refine ⟨h₁.nodup, fun a q hd hq k hk hx => ?_⟩
  have hin : a < g.getFlashEnd := by omega
  rw [h₁.flash_eq]
  rcases h₁.others a q hq with ⟨rfl, rfl⟩ | ⟨-, hq⟩
  · exact h₁.bytes h4 (block_le_end hd hdiv hin) h.2 hd hk hx
  · exact h.2 a q hd hq k hk hx

/-- A read, of whatever range, keeps the cache faithful and leaves the flash alone. -/
theorem readLoop_faithful [NeZero n] (h4 : 4 ∣ bs) (hdiv : bs ∣ g.getFlashEnd) (fuel : Nat) :
    ∀ (c : FSCache g bs n) (a len : Nat), c.Faithful →
      (c.readLoop a len fuel).2.flash = c.flash ∧ (c.readLoop a len fuel).2.Faithful := by
  induction fuel with
  | zero => exact fun c a len h => ⟨rfl, h⟩
  | succ fuel ih =>
    intro c a len h
    unfold readLoop
    split
    · exact ⟨rfl, h⟩
    · obtain ⟨i, p, c₁, hp, h₁⟩ := cachePage_paged c h.1 (a / bs * bs)
      obtain ⟨hflash, hf⟩ := ih c₁ (u32 (a + min len (bs - a % bs))) (len - min len (bs - a % bs))
        (cachePage_faithful h4 hdiv h hp)
      simp only [hp]
      exact ⟨hflash.trans h₁.flash_eq, hf⟩

/-- A read leaves the flash alone and keeps the cached pages copies of it. -/
theorem read_faithful [NeZero n] (h4 : 4 ∣ bs) (hdiv : bs ∣ g.getFlashEnd) {c : FSCache g bs n} (h : c.Faithful)
    (a len : Nat) : (c.read a len).2.2.flash = c.flash ∧ (c.read a len).2.2.Faithful := by
  unfold FSCache.read
  split
  · exact ⟨rfl, h⟩
  · exact readLoop_faithful h4 hdiv len c a len h

/-! ## The flash, whatever the cache holds and the range is -/

/-- Looking an entry up does not touch the flash. -/
theorem getCacheEntry_flash (c : FSCache g bs n) (a : Nat) : (c.getCacheEntry a).2.flash = c.flash := by
  unfold getCacheEntry
  split <;> rfl

/-- Fetching a page does not touch the flash. -/
theorem cachePage_flash [NeZero n] (c : FSCache g bs n) (a : Nat) : (c.cachePage a).2.flash = c.flash := by
  have h := getCacheEntry_flash c a
  unfold cachePage
  split
  · rename_i heq
    rw [heq] at h
    exact h
  · rename_i heq
    rw [heq] at h
    exact h

/-- `erase` clears entries of the cache; the flash stays as it is. -/
theorem erase_flash (c : FSCache g bs n) (a : Nat) : (c.erase a).flash = c.flash := by
  have h := getCacheEntry_flash c a
  unfold FSCache.erase
  split
  · rename_i heq
    rw [heq] at h
    exact h
  · rename_i heq
    rw [heq] at h
    exact h

/-- `read`'s loop does not touch the flash. -/
theorem readLoop_flash [NeZero n] (fuel : Nat) : ∀ (c : FSCache g bs n) (a len : Nat),
    (c.readLoop a len fuel).2.flash = c.flash := by
  induction fuel with
  | zero => exact fun _ _ _ => rfl
  | succ fuel ih =>
    intro c a len
    unfold readLoop
    split
    · rfl
    · exact (ih _ _ _).trans (cachePage_flash c _)

/-- A read does not touch the flash. -/
theorem read_flash [NeZero n] (c : FSCache g bs n) (a len : Nat) : (c.read a len).2.2.flash = c.flash := by
  unfold FSCache.read
  split
  · rfl
  · exact readLoop_flash len c a len

/-- The test whether an erase is needed does not touch the flash. -/
theorem validateLoop_flash [NeZero n] (fuel : Nat) : ∀ (c : FSCache g bs n) (a : Nat) (t : List UInt8),
    (c.validateLoop a t fuel).2.flash = c.flash := by
  induction fuel with
  | zero => exact fun _ _ _ => rfl
  | succ fuel ih =>
    intro c a t
    unfold validateLoop
    split
    · rfl
    · dsimp only
      split
      · exact cachePage_flash c _
      · exact (ih _ _ _).trans (cachePage_flash c _)

/-- `write`'s loop changes the flash by programming operations only. -/
theorem writeLoop_after [NeZero n] (fuel : Nat) : ∀ (c : FSCache g bs n) (a : Nat) (t : List UInt8),
    ∃ ops, c.flash.After ops (c.writeLoop a t fuel).flash := by
  induction fuel with
  | zero => exact fun c _ _ => ⟨[], Flash.After.refl _⟩
  | succ fuel ih =>
    intro c a t
    unfold writeLoop
    split
    · exact ⟨[], Flash.After.refl _⟩
    · have hpage := cachePage_flash c (a / bs * bs)
      obtain ⟨i, c₁, hc₁⟩ : ∃ i c₁, c.cachePage (a / bs * bs) = (i, c₁) := ⟨_, _, rfl⟩
      rw [hc₁] at hpage
      dsimp only
      rw [hc₁, ← hpage]
      exact Flash.After.exists_trans (Flash.write_after c₁.flash _ _ _) (ih _ _ _)

/-- A write changes the flash by programming operations only. -/
theorem write_after [NeZero n] (c : FSCache g bs n) (a : Nat) (t : List UInt8) :
    ∃ ops, c.flash.After ops (c.write a t).2.flash := by
  have hval := validateLoop_flash t.length c a t
  unfold FSCache.write
  split
  · exact ⟨[], Flash.After.refl _⟩
  · split
    · rename_i heq
      rw [heq] at hval
      exact ⟨[], hval ▸ Flash.After.refl _⟩
    · rename_i heq
      rw [heq] at hval
      rw [← hval]
      exact writeLoop_after t.length _ a t

/-- No write caches a block twice, wherever it goes. -/
theorem validateLoop_nodup [NeZero n] (fuel : Nat) : ∀ (c : FSCache g bs n) (a : Nat) (t : List UInt8), c.Nodup →
    (c.validateLoop a t fuel).2.Nodup := by
  induction fuel with
  | zero => exact fun _ _ _ h => h
  | succ fuel ih =>
    intro c a t h
    obtain ⟨i, p, c₁, hc₁, h₁⟩ := cachePage_paged c h (a / bs * bs)
    unfold validateLoop
    split
    · exact h
    · dsimp only
      rw [hc₁]
      dsimp only
      split
      · exact h₁.nodup
      · exact ih _ _ _ h₁.nodup

/-- `write`'s loop keeps the addresses in the cache apart. -/
theorem writeLoop_nodup [NeZero n] (fuel : Nat) : ∀ (c : FSCache g bs n) (a : Nat) (t : List UInt8), c.Nodup →
    (c.writeLoop a t fuel).Nodup := by
  induction fuel with
  | zero => exact fun _ _ _ h => h
  | succ fuel ih =>
    intro c a t h
    obtain ⟨i, p, c₁, hc₁, h₁⟩ := cachePage_paged c h (a / bs * bs)
    unfold writeLoop
    split
    · exact h
    · dsimp only
      rw [hc₁]
      exact ih _ _ _ (h₁.setPage _).1

/-- A write keeps the addresses in the cache apart. -/
theorem write_nodup [NeZero n] (c : FSCache g bs n) (h : c.Nodup) (a : Nat) (t : List UInt8) : (c.write a t).2.Nodup := by
  have hval := validateLoop_nodup t.length c a t h
  unfold FSCache.write
  split
  · exact h
  · split
    · rename_i heq
      rw [heq] at hval
      exact hval
    · rename_i heq
      rw [heq] at hval
      exact writeLoop_nodup t.length _ a t hval

end FSCache

end CodalMicrobit

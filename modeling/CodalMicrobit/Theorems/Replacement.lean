import CodalMicrobit.Lemmas.Cache

/-!
# Which block makes room

A use of an entry is stamped with a 16-bit counter, and the scan for a victim starts from entry 0 whatever its flags. So the
entry that is replaced is the one used longest ago among those not pinned only while the stamps are in the order of the uses
and entry 0, if it is pinned, is not the oldest.
-/

namespace CodalMicrobit

namespace FSCache

variable {g : Geometry} {bs n : Nat}

/-- The entry is not pinned. -/
def Unpinned (c : FSCache g bs n) (i : Fin n) : Prop := (c.cache i).flags &&& FSCACHE_FLAG_PINNED = 0

instance (c : FSCache g bs n) (i : Fin n) : Decidable (c.Unpinned i) := inferInstanceAs (Decidable (_ = _))

/-- Every entry holds a block. -/
def Full (c : FSCache g bs n) : Prop := ∀ i, (c.cache i).page.isSome

/-- The stamp of an entry. -/
def stamp (c : FSCache g bs n) (i : Fin n) : Nat := (c.cache i).lastUsed.toNat

/-! ## The scan -/

/-- An entry is older exactly when it is not pinned and its stamp is smaller. -/
theorem older_iff (c : FSCache g bs n) (i lru : Fin n) :
    c.older i lru = true ↔ c.Unpinned i ∧ c.stamp i < c.stamp lru := by
  unfold older Unpinned stamp
  rw [Bool.and_eq_true, beq_iff_eq, decide_eq_true_eq]
  refine and_congr_right fun _ => ?_
  omega

/-- The scan of a full cache stays with the entry it starts from, unless an unpinned entry has a smaller stamp; it then ends
at the first of those with the smallest. -/
theorem victimFrom_spec (c : FSCache g bs n) (hfull : c.Full) (l : List (Fin n)) (hl : l.Pairwise (· < ·)) :
    ∀ lru, c.stamp (c.victimFrom lru l) ≤ c.stamp lru ∧
      (∀ i ∈ l, c.Unpinned i → c.stamp (c.victimFrom lru l) ≤ c.stamp i) ∧
      (c.victimFrom lru l ≠ lru → c.victimFrom lru l ∈ l ∧ c.Unpinned (c.victimFrom lru l) ∧
        c.stamp (c.victimFrom lru l) < c.stamp lru ∧
        ∀ i ∈ l, c.Unpinned i → i < c.victimFrom lru l → c.stamp (c.victimFrom lru l) < c.stamp i) := by
  induction l with
  | nil => exact fun lru => ⟨Nat.le_refl _, by simp, fun h => absurd rfl h⟩
  | cons j rest ih =>
    intro lru
    obtain ⟨hj, hrest⟩ := List.pairwise_cons.mp hl
    have ih := ih hrest
    have hsome : (c.cache j).page.isNone = false := by
      rw [← Option.not_isSome, hfull j]
      rfl
    rw [victimFrom, hsome]
    simp only [Bool.false_eq_true, if_false]
    by_cases hold : c.older j lru = true
    · obtain ⟨hu, hlt⟩ := (older_iff c j lru).mp hold
      obtain ⟨h1, h2, h3⟩ := ih j
      rw [if_pos hold]
      refine ⟨by omega, fun i hi hui => ?_, fun hne => ?_⟩
      · rcases List.mem_cons.mp hi with rfl | hi
        · exact h1
        · exact h2 i hi hui
      · by_cases hv : c.victimFrom j rest = j
        · rw [hv]
          refine ⟨List.mem_cons_self, hu, hlt, fun i hi _ hij => ?_⟩
          rcases List.mem_cons.mp hi with rfl | hi
          · exact absurd hij (lt_irrefl _)
          · exact absurd (hj i hi) (lt_asymm hij)
        · obtain ⟨hm, hvu, hvlt, hfirst⟩ := h3 hv
          refine ⟨List.mem_cons_of_mem _ hm, hvu, by omega, fun i hi hui hiv => ?_⟩
          rcases List.mem_cons.mp hi with rfl | hi
          · exact hvlt
          · exact hfirst i hi hui hiv
    · have hno : c.Unpinned j → c.stamp lru ≤ c.stamp j := fun hu =>
        Nat.le_of_not_lt fun hlt => hold ((older_iff c j lru).mpr ⟨hu, hlt⟩)
      obtain ⟨h1, h2, h3⟩ := ih lru
      rw [if_neg hold]
      refine ⟨h1, fun i hi hui => ?_, fun hne => ?_⟩
      · rcases List.mem_cons.mp hi with rfl | hi
        · exact h1.trans (hno hui)
        · exact h2 i hi hui
      · obtain ⟨hm, hvu, hvlt, hfirst⟩ := h3 hne
        refine ⟨List.mem_cons_of_mem _ hm, hvu, hvlt, fun i hi hui hiv => ?_⟩
        rcases List.mem_cons.mp hi with rfl | hi
        · exact Nat.lt_of_lt_of_le hvlt (hno hui)
        · exact hfirst i hi hui hiv

/-! ## Histories -/

/-- An access to the cache. `page` is what `read` and `write` do for each block, and `store` is what a write then changes,
in an entry that holds a block. -/
inductive Access (g : Geometry) (n : Nat) where
  | page (address : Nat)
  | pin (address : Nat)
  | unpin (address : Nat)
  | erase (address : Nat)
  | clear
  | store (i : Fin n) (p : Nat → UInt8) (flash : Flash g)

/-- When each entry was last used, in uses since the cache was last cleared: what the stamps stand for. -/
structure Clock (n : Nat) where
  time : Nat := 0
  used : Fin n → Nat := fun _ => 0

/-- A use of an entry. -/
def Clock.use (k : Clock n) (i : Fin n) : Clock n where
  time := k.time + 1
  used := Function.update k.used i (k.time + 1)

variable [NeZero n]

/-- The cache after an access. -/
def access (c : FSCache g bs n) : Access g n → FSCache g bs n
  | .page address => (c.cachePage address).2
  | .pin address => (c.pin address).2
  | .unpin address => (c.unpin address).2
  | .erase address => c.erase address
  | .clear => c.clear
  | .store i p flash => if (c.cache i).page.isSome then { c.setPage i p with flash } else c

/-- The uses an access makes. `erase` stamps the entry twice. -/
def tick (c : FSCache g bs n) (k : Clock n) : Access g n → Clock n
  | .page address | .pin address => k.use (c.cachePage address).1
  | .unpin address =>
    match c.find address with
    | none => k
    | some i => k.use i
  | .erase address =>
    match c.find address with
    | none => k
    | some i => (k.use i).use i
  | .clear => {}
  | .store _ _ _ => k

/-- The cache and the clock after a history. -/
def history (s : FSCache g bs n × Clock n) (l : List (Access g n)) : FSCache g bs n × Clock n :=
  l.foldl (fun s a => (s.1.access a, s.1.tick s.2 a)) s

/-! ### Reads and writes are histories -/

/-- `c'` is what a history makes of `c`. -/
def Leads (c c' : FSCache g bs n) : Prop := ∀ k, ∃ l, (history (c, k) l).1 = c'

theorem Leads.refl (c : FSCache g bs n) : Leads c c := fun _ => ⟨[], rfl⟩

/-- One access, and then the others. -/
theorem Leads.cons {c c' : FSCache g bs n} (a : Access g n) (h : Leads (c.access a) c') : Leads c c' := by
  intro k
  obtain ⟨l, hl⟩ := h (c.tick k a)
  exact ⟨a :: l, hl⟩

/-- Storing bytes in a page of the cache is no access. -/
theorem Leads.store {c c' : FSCache g bs n} {i : Fin n} (hi : (c.cache i).page.isSome) {p : Nat → UInt8} {flash : Flash g}
    (h : Leads { c.setPage i p with flash } c') : Leads c c' := by
  refine Leads.cons (.store i p flash) ?_
  rwa [access, if_pos hi]

theorem Leads.trans {c c' c'' : FSCache g bs n} (h : Leads c c') (h' : Leads c' c'') : Leads c c'' := by
  intro k
  obtain ⟨l, hl⟩ := h k
  obtain ⟨l', hl'⟩ := h' (history (c, k) l).2
  refine ⟨l ++ l', ?_⟩
  rw [history, List.foldl_append]
  rw [← hl] at hl'
  exact hl'

/-- The entry that `cachePage` gives holds a page. -/
theorem cachePage_isSome (c : FSCache g bs n) (a : Nat) : ((c.cachePage a).2.cache (c.cachePage a).1).page.isSome := by
  unfold cachePage
  split
  · rename_i i c' h
    obtain ⟨hs, -, hsome⟩ := getCacheEntry_some h
    rw [(hs.2 i).2]
    exact hsome
  · simp

/-- `read`'s loop is made of accesses. -/
theorem readLoop_leads (fuel : Nat) : ∀ (c : FSCache g bs n) (a len : Nat), Leads c (c.readLoop a len fuel).2 := by
  induction fuel with
  | zero => exact fun c _ _ => Leads.refl c
  | succ fuel ih =>
    intro c a len
    unfold readLoop
    split
    · exact Leads.refl c
    · exact Leads.cons (.page _) (ih _ _ _)

/-- The test whether an erase is needed is made of accesses. -/
theorem validateLoop_leads (fuel : Nat) : ∀ (c : FSCache g bs n) (a : Nat) (data : List UInt8),
    Leads c (c.validateLoop a data fuel).2 := by
  induction fuel with
  | zero => exact fun c _ _ => Leads.refl c
  | succ fuel ih =>
    intro c a data
    unfold validateLoop
    split
    · exact Leads.refl c
    · dsimp only
      split
      · exact Leads.cons (.page _) (Leads.refl _)
      · exact Leads.cons (.page _) (ih _ _ _)

/-- `write`'s loop is made of accesses and stores. -/
theorem writeLoop_leads (fuel : Nat) : ∀ (c : FSCache g bs n) (a : Nat) (data : List UInt8),
    Leads c (c.writeLoop a data fuel) := by
  induction fuel with
  | zero => exact fun c _ _ => Leads.refl c
  | succ fuel ih =>
    intro c a data
    unfold writeLoop
    split
    · exact Leads.refl c
    · dsimp only
      exact Leads.cons (.page (a / bs * bs)) (Leads.store (cachePage_isSome c _) (ih _ _ _))

/-- A read pages in one block after another. -/
theorem read_leads (c : FSCache g bs n) (a len : Nat) : Leads c (c.read a len).2.2 := by
  unfold FSCache.read
  split
  · exact Leads.refl c
  · exact readLoop_leads len c a len

/-- A write pages in one block after another, twice, and stores the second time. -/
theorem write_leads (c : FSCache g bs n) (a : Nat) (data : List UInt8) : Leads c (c.write a data).2 := by
  have hval := validateLoop_leads data.length c a data
  unfold FSCache.write
  split
  · exact Leads.refl c
  · split
    · rename_i c' h
      rwa [h] at hval
    · rename_i c' h
      rw [h] at hval
      exact hval.trans (writeLoop_leads _ _ _ _)

/-- The block at `address` takes the place of the right one: in an entry that is not pinned, and of these the one used
longest ago. Where every entry is pinned there is none. -/
def EvictsRight (c : FSCache g bs n) (k : Clock n) (address : Nat) : Prop :=
  (∃ i, c.Unpinned i) →
    c.Unpinned (c.cachePage address).1 ∧ ∀ i, c.Unpinned i → k.used (c.cachePage address).1 ≤ k.used i

/-- The condition: among the entries that are not pinned, the one used longest ago has the smallest stamp (of several with
that stamp it is the first), and entry 0 is not pinned or has a larger one. -/
def StampsInOrder (c : FSCache g bs n) (k : Clock n) : Prop :=
  (∃ i, c.Unpinned i) → ∃ m, c.Unpinned m ∧ (∀ i, c.Unpinned i → k.used m ≤ k.used i) ∧
    (c.Unpinned 0 ∨ k.used m % 2 ^ 16 < k.used 0 % 2 ^ 16) ∧
    ∀ i, c.Unpinned i → i ≠ m →
      k.used m % 2 ^ 16 < k.used i % 2 ^ 16 ∨ k.used m % 2 ^ 16 = k.used i % 2 ^ 16 ∧ m < i

/-- The stamps are the uses, as far as 16 bits go. -/
structure Stamped (c : FSCache g bs n) (k : Clock n) : Prop where
  count : c.operationCount.toNat = k.time % 2 ^ 16
  stamp : ∀ i, (c.cache i).page.isSome → c.stamp i = k.used i % 2 ^ 16

/-! ## The stamps -/

section

omit [NeZero n]

/-- `c'` is `c` after a use of entry `i`, which may have changed what else that entry holds. -/
structure Used (c : FSCache g bs n) (i : Fin n) (c' : FSCache g bs n) : Prop where
  count : c'.operationCount = c.operationCount + 1
  stamp : (c'.cache i).lastUsed = c.operationCount + 1
  others : ∀ j, j ≠ i → c'.cache j = c.cache j

variable {c c' : FSCache g bs n} {k : Clock n}

/-- A use moves the clock on and stamps the entry with it. -/
theorem Used.stamped {i : Fin n} (h : Used c i c') (hs : Stamped c k) : Stamped c' (k.use i) := by
  have hcount : (c.operationCount + 1).toNat = (k.time + 1) % 2 ^ 16 := by
    rw [UInt16.toNat_add, hs.count]
    simp only [UInt16.reduceToNat]
    omega
  refine ⟨by rw [h.count]; exact hcount, fun j hj => ?_⟩
  by_cases hji : j = i
  · subst hji
    rw [FSCache.stamp, h.stamp, hcount]
    simp [Clock.use]
  · rw [FSCache.stamp, h.others j hji]
    rw [h.others j hji] at hj
    simpa [Clock.use, hji, FSCache.stamp] using hs.stamp j hj

/-- Changing the flags or the bytes of an entry leaves the stamps. -/
theorem Stamped.update (hs : Stamped c k) (i : Fin n) {e : CacheEntry} (hstamp : e.lastUsed = (c.cache i).lastUsed)
    (hpage : e.page.isSome → (c.cache i).page.isSome) (flash : Flash g) :
    Stamped ({ c with cache := Function.update c.cache i e, flash := flash } : FSCache g bs n) k := by
  refine ⟨hs.count, fun j hj => ?_⟩
  by_cases hji : j = i
  · subst hji
    simp only [Function.update_self] at hj
    simp only [FSCache.stamp, Function.update_self, hstamp]
    exact hs.stamp j (hpage hj)
  · simp only [Function.update_of_ne hji] at hj
    simp only [FSCache.stamp, Function.update_of_ne hji]
    exact hs.stamp j hj

/-- Finding a page uses its entry. -/
theorem getCacheEntry_used {a : Nat} {i : Fin n} (h : c.find a = some i) :
    ∃ c', c.getCacheEntry a = (some i, c') ∧ Used c i c' := by
  unfold getCacheEntry
  rw [h]
  exact ⟨_, rfl, rfl, by simp, fun j hj => by simp [hj]⟩

/-- Where no page is found, nothing changes. -/
theorem getCacheEntry_missing {a : Nat} (h : c.find a = none) : c.getCacheEntry a = (none, c) := by
  unfold getCacheEntry
  rw [h]

end

/-- `cachePage` uses the entry it gives. -/
theorem cachePage_used (c : FSCache g bs n) (a : Nat) : Used c (c.cachePage a).1 (c.cachePage a).2 := by
  unfold cachePage
  cases h : c.find a with
  | some i =>
    obtain ⟨c', hc', hu⟩ := getCacheEntry_used h
    rw [hc']
    exact hu
  | none =>
    rw [getCacheEntry_missing h]
    exact ⟨rfl, by simp, fun j hj => by simp [hj]⟩

/-- One access keeps the stamps in step with the uses. -/
theorem access_stamped {c : FSCache g bs n} {k : Clock n} (hs : Stamped c k) (a : Access g n) :
    Stamped (c.access a) (c.tick k a) := by
  cases a with
  | page address => exact (cachePage_used c address).stamped hs
  | pin address =>
    refine Stamped.update ((cachePage_used c address).stamped hs) _ ?_ ?_ _
    · rfl
    · exact id
  | unpin address =>
    simp only [access, unpin, tick]
    cases h : c.find address with
    | none =>
      rw [getCacheEntry_missing h]
      exact hs
    | some i =>
      obtain ⟨c', hc', hu⟩ := getCacheEntry_used h
      rw [hc']
      refine Stamped.update (hu.stamped hs) i ?_ ?_ _
      · rfl
      · exact id
  | erase address =>
    simp only [access, erase, tick]
    cases h : c.find address with
    | none =>
      rw [getCacheEntry_missing h]
      exact hs
    | some i =>
      obtain ⟨c', hc', hu⟩ := getCacheEntry_used h
      rw [hc']
      refine Used.stamped ?_ (hu.stamped hs)
      exact ⟨rfl, by simp, fun j hj => by simp [hj]⟩
  | clear => exact ⟨rfl, fun i hi => by simp [access, FSCache.clear] at hi⟩
  | store i p flash =>
    simp only [access, tick]
    split
    · rename_i hi
      refine Stamped.update hs i ?_ (fun _ => hi) flash
      rfl
    · exact hs

/-- Through any accesses the stamps are those of the clock. -/
theorem history_stamped {s : FSCache g bs n × Clock n} (hs : Stamped s.1 s.2) (l : List (Access g n)) :
    Stamped (history s l).1 (history s l).2 := by
  induction l generalizing s with
  | nil => exact hs
  | cons a l ih => exact ih (access_stamped hs a)

/-! ## The victim -/

/-- A page that is not in the cache takes the place of the victim. -/
theorem cachePage_victim {c : FSCache g bs n} {a : Nat} (h : c.find a = none) : (c.cachePage a).1 = c.victim := by
  unfold cachePage
  rw [getCacheEntry_missing h]

/-- The entry the scan ends at is determined by what the condition says of it. -/
theorem evictsRight_iff {c : FSCache g bs n} {k : Clock n} (hs : Stamped c k) (hfull : c.Full) {address : Nat}
    (hmiss : c.find address = none) : EvictsRight c k address ↔ StampsInOrder c k := by
  obtain ⟨hle0, hle, hne⟩ := victimFrom_spec c hfull (List.finRange n) (List.pairwise_lt_finRange n) 0
  have hle : ∀ i, c.Unpinned i → c.stamp c.victim ≤ c.stamp i := fun i => hle i (List.mem_finRange i)
  have hne : c.victim ≠ 0 → c.Unpinned c.victim ∧ c.stamp c.victim < c.stamp 0 ∧
      ∀ i, c.Unpinned i → i < c.victim → c.stamp c.victim < c.stamp i := fun h =>
    ⟨(hne h).2.1, (hne h).2.2.1, fun i => (hne h).2.2.2 i (List.mem_finRange i)⟩
  have hst : ∀ i, k.used i % 2 ^ 16 = c.stamp i := fun i => (hs.stamp i (hfull i)).symm
  unfold EvictsRight StampsInOrder
  rw [cachePage_victim hmiss]
  refine imp_congr_right fun _ => ?_
  simp only [hst]
  constructor
  · rintro ⟨hv, hold⟩
    refine ⟨c.victim, hv, hold, ?_, fun i hi hiv => ?_⟩
    · by_cases h0 : c.victim = 0
      · rw [h0] at hv
        exact Or.inl hv
      · exact Or.inr (hne h0).2.1
    · rcases Nat.lt_or_eq_of_le (hle i hi) with hlt | heq
      · exact Or.inl hlt
      · refine Or.inr ⟨heq, lt_of_le_of_ne (not_lt.mp fun hlt => ?_) hiv.symm⟩
        have h0 : c.victim ≠ 0 := fun h0 => by
          rw [h0] at hlt
          exact absurd hlt (Fin.not_lt_zero i)
        exact absurd ((hne h0).2.2 i hi hlt) (by omega)
  · rintro ⟨m, hm, hold, h0, hfirst⟩
    have hvm : c.victim = m := by
      by_contra hvm
      by_cases hv : c.Unpinned c.victim
      · rcases hfirst _ hv hvm with hlt | ⟨heq, hlt⟩
        · exact absurd (hle m hm) (by omega)
        · have hv0 : c.victim ≠ 0 := fun hv0 => by
            rw [hv0] at hlt
            exact absurd hlt (Fin.not_lt_zero m)
          exact absurd ((hne hv0).2.2 m hm hlt) (by omega)
      · -- a pinned victim is entry 0, and no unpinned entry has a smaller stamp
        have hv0 : c.victim = 0 := by
          by_contra hv0
          exact hv (hne hv0).1
        rw [hv0] at hv hle
        have := h0.resolve_left hv
        exact absurd (hle m hm) (by omega)
    rw [hvm]
    exact ⟨hm, hold⟩

/-- The constructor: no block is cached. -/
def empty (bs n : Nat) (flash : Flash g) (heap : Nat → UInt8) : FSCache g bs n := { flash, heap }

/-- The replacement policy. After every history of accesses that leaves all entries occupied, a block that is not cached
takes the place of that of the unpinned entry used longest ago exactly when the stamps are in order. -/
theorem replacement_policy (flash : Flash g) (heap : Nat → UInt8) (l : List (Access g n)) (address : Nat)
    (hfull : (history (empty bs n flash heap, {}) l).1.Full)
    (hmiss : (history (empty bs n flash heap, {}) l).1.find address = none) :
    EvictsRight (history (empty bs n flash heap, {}) l).1 (history (empty bs n flash heap, {}) l).2 address ↔
      StampsInOrder (history (empty bs n flash heap, {}) l).1 (history (empty bs n flash heap, {}) l).2 := by
  have hs : Stamped (empty bs n flash heap) {} := ⟨rfl, fun i hi => by simp [empty] at hi⟩
  exact evictsRight_iff (history_stamped (s := (empty bs n flash heap, {})) hs l) hfull hmiss

/-- The block size of the example fits in 16 bits. -/
theorem sixBlocks_blockSize_lt : 256 < 2 ^ 16 := by decide

/-- A storage of six blocks of 256 bytes. -/
def sixBlocks : Geometry := ⟨256, 6, sixBlocks_blockSize_lt, by decide⟩

/-- A cache of four entries on that storage. -/
def smallCache : FSCache sixBlocks 256 4 := empty 256 4 ⟨fun _ => 0, []⟩ fun _ => 0

/-- `replacement_policy` for four blocks read in turn, the first of them again: the second makes room. -/
theorem replacement_policy_four_blocks :
    EvictsRight (history (smallCache, {}) [.page 0, .page 256, .page 512, .page 768, .page 0]).1
      (history (smallCache, {}) [.page 0, .page 256, .page 512, .page 768, .page 0]).2 1024 :=
  (@replacement_policy sixBlocks 256 4 _ (⟨fun _ => 0, []⟩ : Flash sixBlocks) (fun _ => 0)
    [.page 0, .page 256, .page 512, .page 768, .page 0] 1024 (by unfold Full; decide) (by decide)).mpr
    fun _ => ⟨1, by decide, by decide, by decide, by decide⟩

/-- The page at 0 is pinned in entry 0 and has the smallest stamp: it makes room although three entries are not pinned. -/
theorem pinned_page_evicted :
    ¬EvictsRight (history (smallCache, {}) [.pin 0, .page 256, .page 512, .page 768]).1
      (history (smallCache, {}) [.pin 0, .page 256, .page 512, .page 768]).2 1024 := by
  intro h
  exact absurd (h ⟨1, by decide⟩).1 (by decide)

end FSCache

end CodalMicrobit

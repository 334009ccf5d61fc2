import CodalMicrobit.Lemmas.Cache

/-!
# The cache shows the flash

Whatever is asked of a cache, as long as the flash changes only through it, every block it holds is what the flash
holds, and a read returns the flash's bytes. The block must be one the cache itself would page in: `pin` takes any
address, and a page cached at an address between two blocks is not found again by `read` and `write`.
-/

namespace CodalMicrobit

open Nor

/-- A call on the cache. -/
inductive CacheCall where
  | read (address len : Nat)
  | write (address : Nat) (data : List UInt8)
  | pin (address : Nat)
  | unpin (address : Nat)
  | clear

/-- The call's range ends below 2^32, so that its limits test is not defeated by a 32-bit sum. -/
def CacheCall.NoWrap : CacheCall → Prop
  | .read address len => address + len < 2 ^ 32
  | .write address data => address + data.length < 2 ^ 32
  | _ => True

namespace FSCache

variable {g : Geometry} {bs n : Nat}

/-- The constructor: no block is cached. -/
def new (bs n : Nat) (flash : Flash g) (heap : Nat → UInt8) : FSCache g bs n := { flash, heap }

variable [NeZero n]

/-- The cache after a call. -/
def call (c : FSCache g bs n) : CacheCall → FSCache g bs n
  | .read address len => (c.read address len).2.2
  | .write address data => (c.write address data).2
  | .pin address => (c.pin address).2
  | .unpin address => (c.unpin address).2
  | .clear => c.clear

/-- The cache after a sequence of calls. -/
def calls (c : FSCache g bs n) (l : List CacheCall) : FSCache g bs n := l.foldl FSCache.call c

/-- A request that passes the limits test without wrapping ends below the end of the storage. -/
theorem lt_of_inLimits {a len : Nat} (hw : a + len < 2 ^ 32) (h : outOfLimits g a len = false) :
    a + len < g.getFlashEnd := by
  unfold outOfLimits at h
  rw [u32_of_lt hw] at h
  simp only [Bool.or_eq_false_iff, decide_eq_false_iff_not, Nat.not_le] at h
  omega

omit [NeZero n] in
/-- Changing the flags of an entry. -/
theorem setFlags_faithful {c : FSCache g bs n} (h : c.Faithful) (i : Fin n) (flags : UInt16) :
    ({ c with cache := Function.update c.cache i { c.cache i with flags := flags } } : FSCache g bs n).Faithful := by
  have hs : SameBlocks c { c with cache := Function.update c.cache i { c.cache i with flags := flags } } := by
    refine ⟨rfl, fun j => ?_⟩
    by_cases hj : j = i
    · subst hj
      simp
    · simp [hj]
  exact ⟨hs.nodup h.1, fun a p hd hp => h.2 a p hd (hs.loaded.mp hp)⟩

/-- One call keeps the cache faithful. -/
theorem call_faithful {c : FSCache g bs n} (hbs : 0 < bs) (h4 : 4 ∣ bs) (hdiv : bs ∣ g.getFlashEnd)
    (h : c.Faithful) (call : CacheCall) (hw : call.NoWrap) : (c.call call).Faithful := by
  cases call with
  | read address len =>
    exact (read_faithful h4 hdiv h address len).2
  | write address data =>
    by_cases hlim : outOfLimits g address data.length = true
    · simp only [FSCache.call, FSCache.write, hlim, if_true]
      exact h
    · have hin := lt_of_inLimits hw (Bool.not_eq_true _ ▸ hlim)
      by_cases hleg : ∀ k (hk : k < data.length), Legal (c.flash.mem (address + k)) data[k]
      · obtain ⟨ops, c', hc', hops, -, hcoh, -⟩ := write_put hbs h4 hdiv c h.1 h.2 hin
          (fun b hb k hk => by have := block_le_end hb.1 hdiv (by have := hb.2.1; omega); omega) hleg
        simp only [FSCache.call, hc']
        exact ⟨hops.nodup, hcoh⟩
      · obtain ⟨c', hc', hf⟩ := write_refused hbs h4 hdiv c h.1 h.2 hin (fun x h1 h2 => by omega) hleg
        simp only [FSCache.call, hc']
        exact ⟨hf.nodup, hf.coherent h.2⟩
  | pin address =>
    simp only [FSCache.call, FSCache.pin]
    exact setFlags_faithful (cachePage_faithful h4 hdiv h rfl) _ _
  | unpin address =>
    simp only [FSCache.call, FSCache.unpin]
    split
    · rename_i c' hg
      rw [(getCacheEntry_none hg).1]
      exact h
    · rename_i i c' hg
      obtain ⟨hs, -⟩ := getCacheEntry_some hg
      refine setFlags_faithful ⟨hs.nodup h.1, fun a p hd hp k hk hx => ?_⟩ i _
      rw [hs.1]
      exact h.2 a p hd (hs.loaded.mp hp) k hk hx
  | clear => exact faithful_of_empty (fun _ => rfl)

/-- A sequence of calls keeps the cache faithful. -/
theorem calls_faithful {c : FSCache g bs n} (hbs : 0 < bs) (h4 : 4 ∣ bs) (hdiv : bs ∣ g.getFlashEnd)
    (h : c.Faithful) (l : List CacheCall) (hl : ∀ call ∈ l, call.NoWrap) : (c.calls l).Faithful := by
  induction l generalizing c with
  | nil => exact h
  | cons call l ih =>
    exact ih (call_faithful hbs h4 hdiv h call (hl call List.mem_cons_self))
      fun call' hc' => hl call' (List.mem_cons_of_mem _ hc')

/-- Cache coherence. After any calls on a new cache, every page cached at a block address inside the storage is the
flash's content of that block, no address is cached twice, and a read that ends below the end of the storage returns
exactly the flash's bytes. -/
theorem cache_coherence (hbs : 0 < bs) (h4 : 4 ∣ bs) (hdiv : bs ∣ g.getFlashEnd) (flash : Flash g)
    (heap : Nat → UInt8) (l : List CacheCall) (hl : ∀ call ∈ l, call.NoWrap) :
    (∀ i p, (((new bs n flash heap).calls l).cache i).page = some p →
      bs ∣ (((new bs n flash heap).calls l).cache i).address →
      (((new bs n flash heap).calls l).cache i).address < g.getFlashEnd →
      ∀ k, k < bs → p k =
        ((new bs n flash heap).calls l).flash.mem ((((new bs n flash heap).calls l).cache i).address + k)) ∧
    (∀ i j, (((new bs n flash heap).calls l).cache i).page.isSome → (((new bs n flash heap).calls l).cache j).page.isSome →
      (((new bs n flash heap).calls l).cache i).address = (((new bs n flash heap).calls l).cache j).address → i = j) ∧
    ∀ address len, address + len < g.getFlashEnd →
      ∃ c', ((new bs n flash heap).calls l).read address len =
        (.DEVICE_OK, slice ((new bs n flash heap).calls l).flash.mem address len, c') := by
  have h : ((new bs n flash heap).calls l).Faithful :=
    calls_faithful hbs h4 hdiv (faithful_of_empty (fun _ => rfl)) l hl
  generalize (new bs n flash heap).calls l = c at h
  refine ⟨fun i p hp hd hin k hk => ?_, h.1, fun address len hlen => ?_⟩
  · have := block_le_end hd hdiv hin
    exact h.2 _ p hd ⟨i, rfl, hp⟩ k hk (by omega)
  · obtain ⟨c', hc', -⟩ := read_spec hbs h4 hdiv c h.1 h.2 hlen fun x _ hx => by omega
    exact ⟨c', hc'⟩

/-- A storage of four pages of 1024 bytes. -/
def fourPages : Geometry := ⟨1024, 4, by decide, by decide⟩

/-- An erased storage. -/
def erasedPages : Flash fourPages := ⟨fun _ => blank, []⟩

/-- `cache_coherence` for a write of three bytes and a pin, read back with the bytes around them. -/
theorem cache_coherence_three_bytes :
    ∃ c', ((new 256 4 erasedPages fun _ => 0).calls [.write 254 [1, 2, 3], .pin 512]).read 252 6 =
      (.DEVICE_OK, [blank, blank, 1, 2, 3, blank], c') := by
  have h := (@cache_coherence fourPages 256 4 _ (by decide) (by decide) (by decide) erasedPages (fun _ => 0)
    [.write 254 [1, 2, 3], .pin 512] (by simp [CacheCall.NoWrap])).2.2 252 6 (by decide)
  obtain ⟨c', hc'⟩ := h
  exact ⟨c', hc'.trans (by congr 1)⟩

/-- A page pinned between two blocks goes stale: `pin(100)` caches the bytes 100 to 355, and a write at 128 changes the
flash and the block at 0 but not that page. The last byte of the storage cannot be read, and a range that wraps around
the address space passes the test for the limits and gives what the heap holds. -/
theorem unaligned_pin_goes_stale :
    ¬((∀ i p, (((new 256 4 erasedPages fun _ => 0).calls [.pin 100, .write 128 [0]]).cache i).page = some p →
        ∀ k, k < 256 → p k = ((new 256 4 erasedPages fun _ => 0).calls [.pin 100, .write 128 [0]]).flash.mem
          ((((new 256 4 erasedPages fun _ => 0).calls [.pin 100, .write 128 [0]]).cache i).address + k)) ∨
      (∃ c', (new 256 4 erasedPages fun _ => 0).read 4095 1 = (.DEVICE_OK, [blank], c')) ∨
      ∃ c', (new 256 4 erasedPages fun _ => 0).read 0xFFFFFFFF 2 = (.DEVICE_OK, [blank, blank], c')) := by
  rintro (h | ⟨c', h⟩ | ⟨c', h⟩)
  · have hk := h 0 _ rfl 28 (by decide)
    exact absurd hk (by decide)
  · have hcode : _ = ErrorCode.DEVICE_OK := congrArg Prod.fst h
    exact absurd hcode (by decide)
  · have hbytes : _ = [blank, blank] := congrArg (·.2.1) h
    exact absurd hbytes (by decide +kernel)

/-! ## A write is all or nothing -/

/-- Writing the byte `new` over the byte `old` needs some bit to change from 0 to 1. -/
def SetsBit (old new : UInt8) : Prop := ∃ i, old.toBitVec.getLsbD i = false ∧ new.toBitVec.getLsbD i = true

omit [NeZero n] in
/-- A write sets a bit exactly when it is not legal. -/
theorem setsBit_iff (old new : UInt8) : SetsBit old new ↔ ¬Legal old new := by
  unfold SetsBit Legal
  rw [← UInt8.toBitVec_inj, UInt8.toBitVec_and]
  constructor
  · rintro ⟨i, ho, hn⟩ h
    have hi := congrArg (fun v : BitVec 8 => v.getLsbD i) h
    simp [ho, hn] at hi
  · intro h
    by_contra hno
    refine h (BitVec.eq_of_getLsbD_eq fun i _ => ?_)
    rw [BitVec.getLsbD_and]
    cases ho : old.toBitVec.getLsbD i <;> cases hn : new.toBitVec.getLsbD i <;> try rfl
    exact absurd ⟨i, ho, hn⟩ hno

/-- `write` is all or nothing: it is refused exactly when some byte would need a bit to be set, and then the flash is as
before; else it succeeds, the flash holds the data where it was written and is as before everywhere else. -/
def AllOrNothing (c : FSCache g bs n) (address : Nat) (data : List UInt8) : Prop :=
  ((c.write address data).1 = .DEVICE_NOT_SUPPORTED ↔
    ∃ k, ∃ hk : k < data.length, SetsBit (c.flash.mem (address + k)) data[k]) ∧
  ((c.write address data).1 = .DEVICE_NOT_SUPPORTED → (c.write address data).2.flash = c.flash) ∧
  ((c.write address data).1 ≠ .DEVICE_NOT_SUPPORTED →
    (c.write address data).1 = .DEVICE_OK ∧
    slice (c.write address data).2.flash.mem address data.length = data ∧
    ∀ x, ¬(address ≤ x ∧ x < address + data.length) → (c.write address data).2.flash.mem x = c.flash.mem x)

/-- On a cache that agrees with the flash, a write that ends below the end of the storage is all or nothing. -/
theorem allOrNothing_of_lt (hbs : 0 < bs) (h4 : 4 ∣ bs) (hdiv : bs ∣ g.getFlashEnd) (c : FSCache g bs n)
    (h : c.Faithful) (address : Nat) (data : List UInt8) (hin : address + data.length < g.getFlashEnd) :
    c.AllOrNothing address data := by
  have hsets : (∃ k, ∃ hk : k < data.length, SetsBit (c.flash.mem (address + k)) data[k]) ↔
      ¬∀ k (hk : k < data.length), Legal (c.flash.mem (address + k)) data[k] := by
    simp only [setsBit_iff, not_forall]
  unfold AllOrNothing
  by_cases hleg : ∀ k (hk : k < data.length), Legal (c.flash.mem (address + k)) data[k]
  · obtain ⟨ops, c', hc', -, hmem, -, -⟩ := write_put hbs h4 hdiv c h.1 h.2 hin
      (fun b hb k hk => by have := block_le_end hb.1 hdiv (by have := hb.2.1; omega); omega) hleg
    rw [hsets, hc']
    refine ⟨⟨nofun, fun hno => absurd hleg hno⟩, nofun, fun _ => ⟨rfl, ?_, fun x hx => ?_⟩⟩
    · rw [hmem]
      exact slice_put _ _ _
    · rw [hmem]
      exact put_of_not_mem _ _ hx
  · obtain ⟨c', hc', hf⟩ := write_refused hbs h4 hdiv c h.1 h.2 hin (fun x _ hx => by omega) hleg
    rw [hsets, hc']
    exact ⟨⟨fun _ => hleg, fun _ => rfl⟩, fun _ => hf.flash_eq, fun hno => absurd rfl hno⟩

/-- The limits test of `write` refuses a range that ends at the end of the storage or behind it. -/
theorem write_of_le {c : FSCache g bs n} {address : Nat} {data : List UInt8}
    (hend : g.getFlashEnd ≤ address + data.length) (hw : address + data.length < 2 ^ 32) :
    c.write address data = (.DEVICE_INVALID_PARAMETER, c) := by
  have hlim : outOfLimits g address data.length = true := by
    unfold outOfLimits
    rw [u32_of_lt hw]
    simp [hend]
  simp only [FSCache.write, hlim, if_true]

/-- On a cache that agrees with the flash, a write inside the storage is all or nothing exactly when it does not
reach the end of it: the limits test takes a range that ends there for one that leaves the storage. -/
theorem write_all_or_nothing (hbs : 0 < bs) (h4 : 4 ∣ bs) (hdiv : bs ∣ g.getFlashEnd) (c : FSCache g bs n)
    (h : c.Faithful) (address : Nat) (data : List UInt8) (hin : address + data.length ≤ g.getFlashEnd) :
    c.AllOrNothing address data ↔ address + data.length < g.getFlashEnd := by
  constructor
  · intro hall
    by_contra hend
    have hw : address + data.length < 2 ^ 32 := by
      have := g.getFlashEnd_lt
      omega
    obtain ⟨-, -, hok⟩ := hall
    rw [write_of_le (Nat.le_of_not_lt hend) hw] at hok
    exact absurd (hok nofun).1 nofun
  · intro hlt
    exact allOrNothing_of_lt hbs h4 hdiv c h address data hlt

/-- `write_all_or_nothing` for three bytes on either side of a block boundary. -/
theorem write_all_or_nothing_three_bytes :
    ((new 256 4 erasedPages fun _ => 0).write 254 [1, 2, 3]).1 = .DEVICE_OK ∧
      slice ((new 256 4 erasedPages fun _ => 0).write 254 [1, 2, 3]).2.flash.mem 254 3 = [1, 2, 3] := by
  have h := (@write_all_or_nothing fourPages 256 4 _ (by decide) (by decide) (by decide)
    (new 256 4 erasedPages fun _ => 0) (faithful_of_empty fun _ => rfl) 254 [1, 2, 3] (by decide)).mpr (by decide)
  obtain ⟨hcode, hbytes, -⟩ := h.2.2 (by decide)
  exact ⟨hcode, hbytes⟩

/-- The last word of an erased storage cannot be written, although no bit of it needs to be set. -/
theorem last_word_refused : ¬(new 256 4 erasedPages fun _ => 0).AllOrNothing 4092 [1, 2, 3, 4] := by
  intro h
  exact absurd (h.2.2 (by decide)).1 (by decide)

end FSCache

end CodalMicrobit

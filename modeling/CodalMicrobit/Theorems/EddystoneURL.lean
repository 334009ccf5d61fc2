import CodalMicrobit.Bluetooth.Eddystone

/-!
# What a beacon broadcasts

`getURL` rejects the empty URL only. Where the scheme is none of the four, or the URL is too long, it makes a frame of something
else.
-/

namespace CodalMicrobit

open CodeTable

namespace MicroBitEddystone

/-- What the body of a frame stands for: the scheme by its code, then the suffixes by theirs, and all other bytes literally. -/
def expandURL : List UInt8 → Option (List UInt8)
  | [] => none
  | b :: body => (EDDYSTONE_URL_PREFIXES[b.toNat]?).map (· ++ expand EDDYSTONE_URL_SUFFIXES body)

/-- The URL begins with a scheme of the table. -/
def KnownScheme (url : List UInt8) : Prop := ∃ p ∈ EDDYSTONE_URL_PREFIXES, p <+: url

instance (url : List UInt8) : Decidable (KnownScheme url) :=
  inferInstanceAs (Decidable (∃ p ∈ EDDYSTONE_URL_PREFIXES, p <+: url))

/-- There is a body for the URL. -/
def Fits (url : List UInt8) : Prop := ∃ body, body.length ≤ EDDYSTONE_URL_MAX_LENGTH ∧ expandURL body = some url

/-- What `getURL` is meant to do with a URL. -/
structure Encodes (url : List UInt8) (calibratedPower : Int8) : Prop where
  roundTrip : ∀ frame, getURL (some url) calibratedPower = (.DEVICE_OK, frame) → expandURL (frame.drop 4) = some url
  size : (getURL (some url) calibratedPower).2.length ≤ frameSizeURL
  rejected : ¬ KnownScheme url ∨ ¬ Fits url → (getURL (some url) calibratedPower).1 = .DEVICE_INVALID_PARAMETER

/-- The condition: behind the first scheme of the table that the URL begins with, 17 bytes are enough for the rest. -/
def RestFits (url : List UInt8) : Prop :=
  ∃ i, code EDDYSTONE_URL_PREFIXES url = some i ∧
    ∃ body, body.length < EDDYSTONE_URL_MAX_LENGTH ∧
      expand EDDYSTONE_URL_SUFFIXES body = url.drop (word EDDYSTONE_URL_PREFIXES i).length

/-- A URL of printable characters. -/
def Printable (url : List UInt8) : Prop := ∀ c ∈ url, 32 ≤ c.toNat ∧ c.toNat < 127

instance (url : List UInt8) : Decidable (Printable url) :=
  inferInstanceAs (Decidable (∀ c ∈ url, 32 ≤ c.toNat ∧ c.toNat < 127))

/-- The words of the suffixes all start with a full stop. -/
theorem suffixes_marked : Marked EDDYSTONE_URL_SUFFIXES 46 := by
  refine ⟨?_, ?_, ?_, ?_⟩ <;> decide +kernel

/-- A printable text has no byte that is a code. -/
theorem Printable.plain {url : List UInt8} (h : Printable url) : Plain EDDYSTONE_URL_SUFFIXES url := fun c hc =>
  Nat.le_trans (by decide +kernel) (h c hc).1

/-- The rest of a printable text is printable. -/
theorem Printable.drop {url : List UInt8} (h : Printable url) (n : Nat) : Printable (url.drop n) := fun c hc =>
  h c (List.mem_of_mem_drop hc)

variable {url : List UInt8} {calibratedPower : Int8} {i : Nat}

/-- The body that `getURL` makes. -/
def urlData (url : List UInt8) : List UInt8 :=
  (urlPrefix url).1 ++
    (encode EDDYSTONE_URL_SUFFIXES (EDDYSTONE_URL_MAX_LENGTH - (urlPrefix url).1.length) (urlPrefix url).2).1

/-- A URL that is not empty is never rejected. -/
theorem getURL_of_ne_nil (h : url ≠ []) (calibratedPower : Int8) : getURL (some url) calibratedPower =
    (.DEVICE_OK, EDDYSTONE_UUID ++ [EDDYSTONE_URL_FRAME_TYPE, calibratedPower.toUInt8] ++ urlData url) := by
  have hlen : ¬ url.length = 0 := fun h0 => h (List.length_eq_zero_iff.mp h0)
  unfold getURL
  dsimp only
  rw [if_neg hlen]
  rfl

/-- The data of a URL that starts with a prefix of the table. -/
theorem urlData_of_code (h : code EDDYSTONE_URL_PREFIXES url = some i) : urlData url =
    i.toUInt8 :: (encode EDDYSTONE_URL_SUFFIXES 17 (url.drop (word EDDYSTONE_URL_PREFIXES i).length)).1 := by
  rw [urlData, urlPrefix, h]
  rfl

/-- The body is never longer than it may be. -/
theorem urlData_length_le (url : List UInt8) : (urlData url).length ≤ EDDYSTONE_URL_MAX_LENGTH := by
  have hp : (urlPrefix url).1.length ≤ 1 := by
    unfold urlPrefix
    split
    · exact Nat.le_refl 1
    · exact Nat.zero_le 1
  have hmax : 1 ≤ EDDYSTONE_URL_MAX_LENGTH := by decide
  rw [urlData, List.length_append]
  calc (urlPrefix url).1.length + _
      ≤ (urlPrefix url).1.length + (EDDYSTONE_URL_MAX_LENGTH - (urlPrefix url).1.length) :=
        Nat.add_le_add_left (encode_length_le _ _) _
    _ = EDDYSTONE_URL_MAX_LENGTH := Nat.add_sub_of_le (Nat.le_trans hp hmax)

/-- The code of a prefix stands for it. -/
theorem expandURL_cons (h : code EDDYSTONE_URL_PREFIXES url = some i) (body : List UInt8) :
    expandURL (i.toUInt8 :: body) = some (word EDDYSTONE_URL_PREFIXES i ++ expand EDDYSTONE_URL_SUFFIXES body) := by
  obtain ⟨hi, -⟩ := code_eq_some_iff.mp h
  have hnat : i.toUInt8.toNat = i := UInt8.toNat_ofNat_of_lt' (Nat.lt_trans hi (by decide +kernel))
  rw [expandURL, hnat, List.getElem?_eq_getElem hi, word_of_lt hi]
  rfl

/-- The frame of a URL whose rest fits stands for it. -/
theorem RestFits.expandURL_urlData (hurl : Printable url) (h : RestFits url) : expandURL (urlData url) = some url := by
  obtain ⟨i, hcode, body, hlen, hbody⟩ := h
  have hrest := encode_complete suffixes_marked 17 _ ⟨body, Nat.le_of_lt_succ hlen, hbody⟩
  have hexp := expand_encode suffixes_marked.small 17 _ (hurl.drop (word EDDYSTONE_URL_PREFIXES i).length).plain
  rw [hrest, List.append_nil] at hexp
  rw [urlData_of_code hcode, expandURL_cons hcode, hexp, append_drop_of_code hcode]

/-- A URL whose body stands for it begins with a known scheme, and its rest fits. -/
theorem restFits_of_expandURL (hknown : KnownScheme url) (h : expandURL (urlData url) = some url) : RestFits url := by
  cases hcode : code EDDYSTONE_URL_PREFIXES url with
  | none =>
    obtain ⟨p, hp, hpre⟩ := hknown
    exact absurd hpre (code_eq_none_iff.mp hcode p hp)
  | some i =>
    have hle : (encode EDDYSTONE_URL_SUFFIXES 17 (url.drop (word EDDYSTONE_URL_PREFIXES i).length)).1.length ≤ 17 :=
      encode_length_le 17 _
    refine ⟨i, hcode, _, Nat.lt_succ_of_le hle, ?_⟩
    rw [urlData_of_code hcode, expandURL_cons hcode] at h
    exact List.append_cancel_left ((Option.some.inj h).trans (append_drop_of_code hcode).symm)

/-- `getURL` does what it should with a URL exactly if it is empty, or begins with a scheme of the table and the rest fits. -/
theorem getURL_encodes_iff (url : List UInt8) (hurl : Printable url) (calibratedPower : Int8) :
    Encodes url calibratedPower ↔ url = [] ∨ RestFits url := by
  by_cases hnil : url = []
  · subst hnil
    exact iff_of_true ⟨nofun, Nat.zero_le _, fun _ => rfl⟩ (Or.inl rfl)
  · have hget := getURL_of_ne_nil hnil calibratedPower
    refine ⟨fun h => Or.inr ?_, fun h => ?_⟩
    · have hknown : KnownScheme url := by
        by_contra hn
        have hrej := h.rejected (Or.inl hn)
        rw [hget] at hrej
        nomatch hrej
      exact restFits_of_expandURL hknown (h.roundTrip _ hget)
    · have hexp := (h.resolve_left hnil).expandURL_urlData hurl
      obtain ⟨i, hcode, -⟩ := h.resolve_left hnil
      obtain ⟨hi, hpre, -⟩ := code_eq_some_iff.mp hcode
      refine ⟨fun frame hframe => ?_, ?_, fun hrej => ?_⟩
      · rw [hget] at hframe
        rw [← (Prod.mk.inj hframe).2]
        exact hexp
      · rw [hget]
        change (EDDYSTONE_UUID ++ [EDDYSTONE_URL_FRAME_TYPE, calibratedPower.toUInt8] ++ urlData url).length ≤ 4 + 18
        rw [List.length_append]
        exact Nat.add_le_add_left (urlData_length_le url) 4
      · rcases hrej with hk | hf
        · exact absurd ⟨_, List.getElem_mem hi, hpre⟩ hk
        · exact absurd ⟨_, urlData_length_le url, hexp⟩ hf

/-- A URL that is short enough. -/
theorem getURL_encodes_short : Encodes (chars "http://www.microbit.org/") 0 :=
  (getURL_encodes_iff (chars "http://www.microbit.org/") (by decide +kernel) 0).mpr
    (Or.inr ⟨0, by decide +kernel, chars "microbit" ++ [1], by decide +kernel, by decide +kernel⟩)

/-- The end of a long URL gets lost; and a URL without a scheme is not rejected. -/
theorem getURL_cuts_off : ¬ Encodes (chars "https://www.abcdefghijklmnopqr") 0 ∧ ¬ Encodes (chars "microbit.org") 0 := by
  refine ⟨fun h => ?_, fun h => ?_⟩
  · have hexp := h.roundTrip (EDDYSTONE_UUID ++ [EDDYSTONE_URL_FRAME_TYPE, 0, 1] ++ chars "abcdefghijklmnopq") (by decide +kernel)
    exact absurd hexp (by decide +kernel)
  · have hrej := h.rejected (Or.inl (by decide +kernel))
    exact absurd hrej (by decide +kernel)

end MicroBitEddystone

end CodalMicrobit

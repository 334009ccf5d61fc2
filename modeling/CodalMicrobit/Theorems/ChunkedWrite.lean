import CodalMicrobit.Theorems.RegionErase

/-!
# A write in segments

The chip does not take more than 64 bytes in a write, so a longer write is sent in segments. What the chip receives is the
data cut into consecutive pieces, each under the address it belongs to, and the flash ends up as after one write of it all.
-/

namespace CodalMicrobit

open Nor Attempts

namespace USBFlashManager

/-- The segments of a write: addresses and payloads. -/
def segments (address : Nat) (data : List UInt8) : List (Nat × List UInt8) :=
  (List.range (chunks data.length)).map fun k =>
    (address + KL27_FLASH_MAX_WRITE_LENGTH * k,
      (data.drop (KL27_FLASH_MAX_WRITE_LENGTH * k)).take KL27_FLASH_MAX_WRITE_LENGTH)

/-- The request that carries a segment. -/
def writeRequest (segment : Nat × List UInt8) : List UInt8 :=
  header MICROBIT_USB_FLASH_WRITE_CMD segment.1 segment.2.length ++ segment.2

/-- The chip finds a WRITE command in the request, with the address, the length and the bytes of the segment. -/
structure Carries (request : List UInt8) (segment : Nat × List UInt8) : Prop where
  command : ntoh (request.take 1) = MICROBIT_USB_FLASH_WRITE_CMD
  address : ntoh ((request.drop 1).take 3) = segment.1
  length : ntoh ((request.drop 4).take 4) = segment.2.length
  payload : request.drop 8 = segment.2

/-- The segments follow each other from one address to another. -/
def Tiles : Nat → List (Nat × List UInt8) → Nat → Prop
  | a, [], b => a = b
  | a, segment :: rest, b => segment.1 = a ∧ Tiles (a + segment.2.length) rest b

/-- The first segment, as the loop computes it, and the others. -/
theorem segments_eq (address : Nat) {data : List UInt8} (hd : data ≠ []) :
    segments address data =
      (address, data.take (min KL27_FLASH_MAX_WRITE_LENGTH data.length)) ::
        segments (address + min KL27_FLASH_MAX_WRITE_LENGTH data.length)
          (data.drop (min KL27_FLASH_MAX_WRITE_LENGTH data.length)) := by
  unfold segments
  rw [chunks_eq (List.length_pos_of_ne_nil hd), List.range_succ_eq_map, List.map_cons, List.map_map, List.length_drop]
  have hfirst : (data.drop (KL27_FLASH_MAX_WRITE_LENGTH * 0)).take KL27_FLASH_MAX_WRITE_LENGTH =
      data.take (min KL27_FLASH_MAX_WRITE_LENGTH data.length) := by
    rw [Nat.mul_zero, List.drop_zero, List.take_eq_take_min]
  rw [hfirst, Nat.mul_zero, Nat.add_zero]
  refine congrArg _ (List.map_congr_left fun k hk => ?_)
  -- there are further segments only behind a full one
  have hfull : min KL27_FLASH_MAX_WRITE_LENGTH data.length = KL27_FLASH_MAX_WRITE_LENGTH := by
    rw [List.mem_range] at hk
    unfold chunks KL27_FLASH_MAX_WRITE_LENGTH at *
    omega
  simp only [Function.comp_apply, hfull, List.drop_drop]
  rw [Nat.mul_succ, Nat.add_comm (KL27_FLASH_MAX_WRITE_LENGTH * k), Nat.add_assoc]

/-- The payloads make up the data. -/
theorem segments_flatten (n : Nat) : ∀ (address : Nat) (data : List UInt8), data.length ≤ n →
    ((segments address data).map Prod.snd).flatten = data := by
  induction n with
  | zero =>
    intro address data h
    rw [List.length_eq_zero_iff.mp (Nat.le_zero.mp h)]
    rfl
  | succ n ih =>
    intro address data h
    by_cases hd : data = []
    · subst hd
      rfl
    · have hpos := List.length_pos_of_ne_nil hd
      rw [segments_eq address hd, List.map_cons, List.flatten_cons, ih _ _ (by
        rw [List.length_drop]
        unfold KL27_FLASH_MAX_WRITE_LENGTH
        omega)]
      exact List.take_append_drop _ _

/-- The segments cover the range of the data, each byte once and in order. -/
theorem segments_tiles (n : Nat) : ∀ (address : Nat) (data : List UInt8), data.length ≤ n →
    Tiles address (segments address data) (address + data.length) := by
  induction n with
  | zero =>
    intro address data h
    rw [List.length_eq_zero_iff.mp (Nat.le_zero.mp h)]
    rfl
  | succ n ih =>
    intro address data h
    by_cases hd : data = []
    · subst hd
      rfl
    · have hpos := List.length_pos_of_ne_nil hd
      have htake : (data.take (min KL27_FLASH_MAX_WRITE_LENGTH data.length)).length =
          min KL27_FLASH_MAX_WRITE_LENGTH data.length := by
        rw [List.length_take]
        omega
      have hrest := ih (address + min KL27_FLASH_MAX_WRITE_LENGTH data.length)
        (data.drop (min KL27_FLASH_MAX_WRITE_LENGTH data.length)) (by
          rw [List.length_drop]
          unfold KL27_FLASH_MAX_WRITE_LENGTH
          omega)
      rw [List.length_drop, show address + min KL27_FLASH_MAX_WRITE_LENGTH data.length +
        (data.length - min KL27_FLASH_MAX_WRITE_LENGTH data.length) = address + data.length by omega] at hrest
      rw [segments_eq address hd]
      refine ⟨rfl, ?_⟩
      rw [htake]
      exact hrest

/-- There are as many segments as chunks. -/
theorem segments_length (address : Nat) (data : List UInt8) : (segments address data).length = chunks data.length := by
  unfold segments
  rw [List.length_map, List.length_range]

/-- Every segment fits in a write. -/
theorem segment_length_le {address : Nat} {data : List UInt8} {segment : Nat × List UInt8}
    (h : segment ∈ segments address data) : segment.2.length ≤ KL27_FLASH_MAX_WRITE_LENGTH := by
  obtain ⟨k, -, rfl⟩ := List.mem_map.mp h
  rw [List.length_take]
  exact Nat.min_le_left _ _

/-- The request for a segment carries it. -/
theorem writeRequest_carries {address : Nat} {data : List UInt8} (hin : address + data.length < 2 ^ 24)
    {segment : Nat × List UInt8} (h : segment ∈ segments address data) : Carries (writeRequest segment) segment := by
  obtain ⟨k, hk, rfl⟩ := List.mem_map.mp h
  have haddr : address + KL27_FLASH_MAX_WRITE_LENGTH * k < 2 ^ 24 := by
    rw [List.mem_range] at hk
    unfold chunks KL27_FLASH_MAX_WRITE_LENGTH at *
    omega
  obtain ⟨hc, ha, hn, hd, -⟩ := header_fields MICROBIT_USB_FLASH_WRITE_CMD _ _
    ((data.drop (KL27_FLASH_MAX_WRITE_LENGTH * k)).take KL27_FLASH_MAX_WRITE_LENGTH) (by decide) haddr
    ((List.length_take_le _ _).trans_lt (by decide : KL27_FLASH_MAX_WRITE_LENGTH < 2 ^ 32))
  exact ⟨hc, ha, hn, hd⟩

variable {State : Type} {chip : InterfaceChip State} {g : Geometry} {mem : State → Memory} {script : State → Script}

/-- The requests of the loop are those of the segments, as far as it gets. -/
theorem writeLoop_logged (chip : InterfaceChip State) {stop : Nat} (fuel : Nat) :
    ∀ (log : List (List UInt8)) (s : State) (p : Nat) (data : List UInt8),
    stop = p + data.length → data.length ≤ fuel →
      ∃ k, writeLoop (logged chip) (log, s) p stop data fuel =
          ((writeLoop chip s p stop data fuel).1, log ++ ((segments p data).take k).map writeRequest,
            (writeLoop chip s p stop data fuel).2) ∧
        ((writeLoop chip s p stop data fuel).1 = .DEVICE_OK → k = (segments p data).length) := by
  induction fuel with
  | zero =>
    intro log s p data hstop hlen
    obtain rfl := List.length_eq_zero_iff.mp (Nat.le_zero.mp hlen)
    exact ⟨0, by rw [List.take_zero, List.map_nil, List.append_nil]; rfl, fun _ => rfl⟩
  | succ fuel ih =>
    intro log s p data hstop hlen
    by_cases hd : data = []
    · subst hd
      have hlt : ¬p < stop := by rw [hstop]; exact Nat.lt_irrefl p
      refine ⟨0, ?_, fun _ => rfl⟩
      rw [writeLoop, writeLoop, if_neg hlt, if_neg hlt, List.take_zero, List.map_nil, List.append_nil]
    · have hpos := List.length_pos_of_ne_nil hd
      have hlt : p < stop := by omega
      have hseq := segments_eq p hd
      have htake : (data.take (min KL27_FLASH_MAX_WRITE_LENGTH data.length)).length =
          min KL27_FLASH_MAX_WRITE_LENGTH data.length := by
        rw [List.length_take]
        omega
      obtain ⟨r, s₁, hs₁⟩ : ∃ r s₁, chip.transact s (header MICROBIT_USB_FLASH_WRITE_CMD p
          (min KL27_FLASH_MAX_WRITE_LENGTH data.length) ++ data.take (min KL27_FLASH_MAX_WRITE_LENGTH data.length)) 9 =
          (r, s₁) := ⟨_, _, rfl⟩
      have hlog : (logged chip).transact (log, s) (header MICROBIT_USB_FLASH_WRITE_CMD p
          (min KL27_FLASH_MAX_WRITE_LENGTH data.length) ++ data.take (min KL27_FLASH_MAX_WRITE_LENGTH data.length)) 9 =
          (r, log ++ [writeRequest (p, data.take (min KL27_FLASH_MAX_WRITE_LENGTH data.length))], s₁) := by
        simp only [logged, hs₁, writeRequest, htake]
      rw [writeLoop, writeLoop, if_pos hlt, if_pos hlt]
      simp only [hs₁, hlog]
      by_cases hr : r = []
      · rw [if_pos hr, if_pos hr]
        refine ⟨1, ?_, fun hok => ?_⟩
        · rw [hseq, List.take_succ_cons, List.take_zero]
          rfl
        · cases hok
      · rw [if_neg hr, if_neg hr]
        obtain ⟨k, hk, hok⟩ := ih (log ++ [writeRequest (p, data.take (min KL27_FLASH_MAX_WRITE_LENGTH data.length))]) s₁
          (p + min KL27_FLASH_MAX_WRITE_LENGTH data.length) (data.drop (min KL27_FLASH_MAX_WRITE_LENGTH data.length))
          (by rw [List.length_drop]; omega) (by
            rw [List.length_drop]
            unfold KL27_FLASH_MAX_WRITE_LENGTH
            omega)
        refine ⟨k + 1, ?_, fun h => ?_⟩
        · rw [hk, hseq, List.take_succ_cons, List.map_cons, List.append_assoc, List.singleton_append]
        · rw [hok h, hseq, List.length_cons]

/-- A write of whole words inside the storage sends its data in segments of at most 64 bytes, which cover the range once and in
order, and each of which the chip reads as it was meant. If all are answered, all have been sent and the flash is as after one
write of the whole range; if not, the write fails and a prefix of the data has been written. -/
theorem write_in_segments (hf : Follows chip g mem script) (s : State) (address length : Nat) (data : List UInt8)
    (ha : 4 ∣ address) (hl : 4 * length ≤ data.length) (hin : address + 4 * length ≤ g.getFlashEnd) :
    ∃ r k s', writeWords (logged chip) ([], s) address data length =
        (r, ((segments address (data.take (4 * length))).take k).map writeRequest, s') ∧
      (∀ segment ∈ segments address (data.take (4 * length)),
        segment.2.length ≤ 64 ∧ Carries (writeRequest segment) segment) ∧
      Tiles address (segments address (data.take (4 * length))) (address + 4 * length) ∧
      ((segments address (data.take (4 * length))).map Prod.snd).flatten = data.take (4 * length) ∧
      if answered (script s) (segments address (data.take (4 * length))).length then
        r = .DEVICE_OK ∧ k = (segments address (data.take (4 * length))).length ∧
          mem s' = program (mem s) address (4 * length) fun i => data.getD i 0
      else r = .DEVICE_I2C_ERROR ∧ ∃ n ≤ 4 * length, mem s' = program (mem s) address n fun i => data.getD i 0 := by
  have hend := g.getFlashEnd_lt
  have hlen : (data.take (4 * length)).length = 4 * length := by
    rw [List.length_take]
    omega
  have hu1 : u32 (length * 4) = 4 * length := by
    rw [Nat.mul_comm]
    exact u32_of_lt (by omega)
  have hu2 : u32 (address + 4 * length) = address + 4 * length := u32_of_lt (by omega)
  obtain ⟨k, hk, hok⟩ := writeLoop_logged chip (4 * length) [] s address (data.take (4 * length))
    (show address + 4 * length = _ by rw [hlen]) (by rw [hlen])
  obtain ⟨s', hs', -, hm⟩ := hf.writeWords s data length ha (by omega) (by omega)
  have hw : writeWords chip s address data length =
      writeLoop chip s address (address + 4 * length) (data.take (4 * length)) (4 * length) := by
    simp only [writeWords, hu1, hu2]
  rw [Nat.mul_comm length 4] at hs' hm
  rw [← hw, hs'] at hk hok
  have htiles := segments_tiles _ address (data.take (4 * length)) (Nat.le_refl _)
  rw [hlen] at htiles
  refine ⟨result (answered (script s) (chunks (4 * length))), k, s', ?_,
    fun segment h => ⟨segment_length_le h, writeRequest_carries (by omega) h⟩, htiles,
    segments_flatten _ address _ (Nat.le_refl _), ?_⟩
  · simp only [writeWords, hu1, hu2]
    exact hk
  · rw [segments_length, hlen]
    split
    · rename_i hall
      rw [hall] at hok ⊢
      rw [written_of_answered hall] at hm
      rw [segments_length, hlen] at hok
      exact ⟨rfl, hok rfl, hm⟩
    · rename_i hall
      rw [Bool.not_eq_true] at hall
      rw [hall]
      exact ⟨rfl, _, written_le _ _, hm⟩

/-- `write_in_segments` for a write of 20 words to a chip that never fails. -/
theorem write_in_segments_twenty_words :
    ∃ r k s', writeWords (logged (workingChip ⟨256, 2, by decide, by decide⟩)) ([], fun _ => 0xFF) 8 (List.replicate 80 7) 20 =
        (r, ((segments 8 ((List.replicate 80 7).take (4 * 20))).take k).map writeRequest, s') ∧
      r = .DEVICE_OK ∧ k = 2 ∧ s' 8 = 7 := by
  obtain ⟨r, k, s', h, -, -, -, hok⟩ := write_in_segments (workingChip_works ⟨256, 2, by decide, by decide⟩).follows
    (fun _ => 0xFF) 8 20 (List.replicate 80 7) (by decide) (by decide) (by decide)
  rw [if_pos (answered_of_done (fun _ => rfl) _)] at hok
  exact ⟨r, k, s', h, hok.1, hok.2.1, by rw [show s' = _ from hok.2.2]; decide⟩

end USBFlashManager

end CodalMicrobit

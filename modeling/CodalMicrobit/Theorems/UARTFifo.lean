import CodalMicrobit.Bluetooth.UARTService

/-!
# The UART service is a queue

Packets only move the head of the ring and only write the place it leaves, so what the reader has seen stays where it
is whatever arrives meanwhile. From this, each operation of the reader takes bytes off the front of the unread ones, and
the bytes taken so far with the unread ones are always the bytes accepted so far.
-/

namespace CodalMicrobit

open Ring

namespace UARTService

/-- A ring for `n` bytes, with its record: what was accepted is what was consumed and what is unread. -/
structure Sound (s : UARTService) (n : Nat) : Prop where
  size : s.rxBufferSize = n + 1
  tail_lt : s.rxBufferTail < s.rxBufferSize
  head_lt : s.rxBufferHead < s.rxBufferSize
  accepted : s.accepted = s.consumed ++ s.unread

/-- `s'` is `s` after the bytes `bs` were accepted. -/
structure Grew (s s' : UARTService) (bs : List UInt8) : Prop where
  size : s'.rxBufferSize = s.rxBufferSize
  tail : s'.rxBufferTail = s.rxBufferTail
  head_lt : s'.rxBufferHead < s'.rxBufferSize
  consumed : s'.consumed = s.consumed
  accepted : s'.accepted = s.accepted ++ bs
  unread : s'.unread = s.unread ++ bs

/-- The ring is never full to its last cell. -/
theorem Sound.count_lt {s : UARTService} {n : Nat} (h : s.Sound n) :
    count s.rxBufferSize s.rxBufferTail s.rxBufferHead < s.rxBufferSize :=
  Ring.count_lt h.tail_lt h.head_lt

/-- The unread bytes are no more than the ring was asked to hold. -/
theorem Sound.unread_length {s : UARTService} {n : Nat} (h : s.Sound n) : s.unread.length ≤ n := by
  have := h.count_lt
  have := h.size
  rw [UARTService.unread, cells_length]
  omega

theorem Grew.refl {s : UARTService} {n : Nat} (h : s.Sound n) : Grew s s [] :=
  ⟨rfl, rfl, h.head_lt, rfl, (List.append_nil _).symm, (List.append_nil _).symm⟩

theorem Grew.trans {s s' s'' : UARTService} {bs bs' : List UInt8} (h : Grew s s' bs) (h' : Grew s' s'' bs') :
    Grew s s'' (bs ++ bs') :=
  ⟨h'.size.trans h.size, h'.tail.trans h.tail, h'.head_lt, h'.consumed.trans h.consumed,
    by rw [h'.accepted, h.accepted, List.append_assoc], by rw [h'.unread, h.unread, List.append_assoc]⟩

/-- Arriving bytes keep the ring sound. -/
theorem Grew.sound {s s' : UARTService} {bs : List UInt8} {n : Nat} (h : Grew s s' bs) (hs : s.Sound n) :
    s'.Sound n := by
  refine ⟨h.size.trans hs.size, ?_, h.head_lt, ?_⟩
  · rw [h.tail, h.size]
    exact hs.tail_lt
  · rw [h.accepted, hs.accepted, h.consumed, h.unread, List.append_assoc]

/-! ## Packets -/

/-- A byte is accepted exactly when fewer than `n` bytes are unread, and goes behind them. -/
theorem receive_grew {s : UARTService} {n : Nat} (h : s.Sound n) (c : UInt8) :
    Grew s (s.receive c) (if s.unread.length < n then [c] else []) := by
  have ht := h.tail_lt
  have hh := h.head_lt
  have hsize := h.size
  have hlen : s.unread.length = count s.rxBufferSize s.rxBufferTail s.rxBufferHead := cells_length _ _ _ _
  have hfull := next_eq_tail ht hh
  unfold receive
  by_cases hf : (s.rxBufferHead + 1) % s.rxBufferSize = s.rxBufferTail
  · have hroom : ¬s.unread.length < n := by
      have := hfull.mp hf
      omega
    rw [if_neg hroom, if_neg (not_not.mpr hf)]
    exact ⟨rfl, rfl, hh, rfl, (List.append_nil _).symm, (List.append_nil _).symm⟩
  · have hlt := h.count_lt
    have hroom : s.unread.length < n := by
      have := mt hfull.mpr hf
      omega
    rw [if_pos hroom, if_pos hf]
    have hunread : cells (Function.update s.rxBuffer s.rxBufferHead c) s.rxBufferSize s.rxBufferTail
        (count s.rxBufferSize s.rxBufferTail ((s.rxBufferHead + 1) % s.rxBufferSize)) = s.unread ++ [c] := by
      have hplace := add_count ht hh
      have hold : cells (Function.update s.rxBuffer _ c) _ _ _ = s.unread := cells_update ht hlt c
      rw [hplace] at hold
      rw [count_next ht hh hf, cells_add, hold, hplace, cells_one _ _ hh, Function.update_self]
    have hhead : (s.rxBufferHead + 1) % s.rxBufferSize < s.rxBufferSize := Nat.mod_lt _ (by omega)
    dsimp only
    split
    · exact ⟨rfl, rfl, hhead, rfl, rfl, hunread⟩
    · exact ⟨rfl, rfl, hhead, rfl, rfl, hunread⟩

/-- A write of the peer adds bytes behind the unread ones. -/
theorem onDataWritten_grew (data : List UInt8) : ∀ {s : UARTService} {n : Nat}, s.Sound n →
    ∃ bs, Grew s (s.onDataWritten data) bs := by
  induction data with
  | nil => exact fun h => ⟨[], Grew.refl h⟩
  | cons c data ih =>
    intro s n h
    have hc := receive_grew h c
    obtain ⟨bs, hbs⟩ := ih (hc.sound h)
    exact ⟨_, hc.trans hbs⟩

/-- What arrives between two statements is added behind the unread bytes. -/
theorem arrive_grew (gap : Gap) : ∀ {s : UARTService} {n : Nat}, s.Sound n → ∃ bs, Grew s (s.arrive gap) bs := by
  induction gap with
  | nil => exact fun h => ⟨[], Grew.refl h⟩
  | cons data gap ih =>
    intro s n h
    obtain ⟨bs, hbs⟩ := onDataWritten_grew data h
    obtain ⟨bs', hbs'⟩ := ih (hbs.sound h)
    exact ⟨_, hbs.trans hbs'⟩

/-! ## Seeing and taking bytes -/

/-- An unread byte is where the ring has it. -/
theorem Sound.getElem {s : UARTService} {k : Nat} (hk : k < s.unread.length) :
    s.unread[k] = s.rxBuffer ((s.rxBufferTail + k) % s.rxBufferSize) := by
  simp [UARTService.unread, cells]

/-- Moving the tail takes bytes off the front of the unread ones. -/
theorem moveTail_spec {s : UARTService} {n k : Nat} (h : s.Sound n) (hk : k ≤ s.unread.length) :
    (s.moveTail k).Sound n ∧ (s.moveTail k).consumed = s.consumed ++ s.unread.take k ∧
      (s.moveTail k).unread = s.unread.drop k ∧ (s.moveTail k).accepted = s.accepted := by
  have hlen : s.unread.length = count s.rxBufferSize s.rxBufferTail s.rxBufferHead := cells_length _ _ _ _
  have hsplit : s.unread = cells s.rxBuffer s.rxBufferSize s.rxBufferTail k ++ (s.moveTail k).unread :=
    cells_count_split h.tail_lt h.head_lt (hlen ▸ hk)
  have htake : s.unread.take k = cells s.rxBuffer s.rxBufferSize s.rxBufferTail k := by
    rw [hsplit]
    exact List.take_left' (cells_length _ _ _ _)
  have hdrop : s.unread.drop k = (s.moveTail k).unread := by
    conv_lhs => rw [hsplit]
    exact List.drop_left' (cells_length _ _ _ _)
  have hconsumed : (s.moveTail k).consumed = s.consumed ++ s.unread.take k := by
    rw [htake]
    rfl
  refine ⟨⟨h.size, Nat.mod_lt _ (by have := h.size; exact Nat.lt_of_le_of_lt (Nat.zero_le _) h.tail_lt), h.head_lt, ?_⟩,
    hconsumed, hdrop.symm, rfl⟩
  rw [hconsumed, ← hdrop, List.append_assoc, List.take_append_drop]
  exact h.accepted

/-- What a call of the reader leaves: it took the bytes `taken` off the front of what was unread or arrived meanwhile. -/
structure Took (s s' : UARTService) (n : Nat) (taken : List UInt8) : Prop where
  sound : s'.Sound n
  consumed : s'.consumed = s.consumed ++ taken
  unread : ∃ bs, s'.accepted = s.accepted ++ bs ∧ s.unread ++ bs = taken ++ s'.unread

/-- Where bytes only arrive, none has been taken. -/
theorem Grew.took {s s' : UARTService} {n : Nat} {bs : List UInt8} (h : Grew s s' bs) (hs : s.Sound n) :
    Took s s' n [] :=
  ⟨h.sound hs, by rw [h.consumed, List.append_nil], bs, h.accepted, h.unread.symm⟩

theorem Took.trans {s s' s'' : UARTService} {n : Nat} {a b : List UInt8} (h : Took s s' n a) (h' : Took s' s'' n b) :
    Took s s'' n (a ++ b) := by
  obtain ⟨bs, hacc, hun⟩ := h.unread
  obtain ⟨bs', hacc', hun'⟩ := h'.unread
  refine ⟨h'.sound, by rw [h'.consumed, h.consumed, List.append_assoc], bs ++ bs', ?_, ?_⟩
  · rw [hacc', hacc, List.append_assoc]
  · rw [← List.append_assoc, hun, List.append_assoc, hun', List.append_assoc]

/-- Moving the tail takes the bytes it passes. -/
theorem moveTail_took {s : UARTService} {n k : Nat} (h : s.Sound n) (hk : k ≤ s.unread.length) :
    Took s (s.moveTail k) n (s.unread.take k) := by
  obtain ⟨hs, hc, hu, ha⟩ := moveTail_spec h hk
  exact ⟨hs, hc, [], by rw [ha, List.append_nil], by rw [hu, List.append_nil, List.take_append_drop]⟩

/-- What is unread stays unread, in its place, while packets arrive. -/
theorem Grew.take {s s' : UARTService} {bs : List UInt8} (h : Grew s s' bs) {k : Nat} (hk : k ≤ s.unread.length) :
    s'.unread.take k = s.unread.take k := by
  rw [h.unread, List.take_append_of_le_length hk]

/-- Arriving bytes leave no fewer unread. -/
theorem Grew.length_le {s s' : UARTService} {bs : List UInt8} (h : Grew s s' bs) :
    s.unread.length ≤ s'.unread.length := by
  rw [h.unread, List.length_append]
  omega

/-- The cells of the unread bytes stay theirs while others arrive. -/
theorem Grew.place {s s' : UARTService} {bs : List UInt8} (h : Grew s s' bs) (k : Nat) :
    (s'.rxBufferTail + k) % s'.rxBufferSize = (s.rxBufferTail + k) % s.rxBufferSize := by
  rw [h.tail, h.size]

/-- Two unread bytes have different places, and the place of the head is another one. -/
theorem Sound.place_eq {s : UARTService} {n j k : Nat} (h : s.Sound n) (hj : j ≤ s.unread.length)
    (hk : k ≤ s.unread.length) :
    (s.rxBufferTail + j) % s.rxBufferSize = (s.rxBufferTail + k) % s.rxBufferSize ↔ j = k := by
  have hlen := h.unread_length
  have hsize := h.size
  have ht := h.tail_lt
  rw [mod_eq (by omega), mod_eq (by omega)]
  split <;> split <;> omega

/-- Behind the last unread byte is the head. -/
theorem Sound.place_head {s : UARTService} {n : Nat} (h : s.Sound n) :
    (s.rxBufferTail + s.unread.length) % s.rxBufferSize = s.rxBufferHead := by
  rw [UARTService.unread, cells_length]
  exact add_count h.tail_lt h.head_lt

/-- There is something to read exactly when a byte is unread. -/
theorem Sound.isReadable {s : UARTService} {n : Nat} (h : s.Sound n) : s.isReadable = true ↔ 0 < s.unread.length := by
  have hz : count _ _ s.rxBufferHead = 0 ↔ _ := count_eq_zero h.tail_lt
  rw [UARTService.unread, cells_length, UARTService.isReadable, bne_iff_ne, ne_eq, ← hz]
  omega

/-! ## The operations of the reader -/

/-- The byte that is loaded is still the first unread one when the tail is stored, whatever arrives in between. -/
theorem first_took {s : UARTService} {n : Nat} (h : s.Sound n) (w : Nat → Gap)
    (hpos : 0 < (s.arrive (w 0)).unread.length) :
    Took s (((s.arrive (w 0)).arrive (w 1)).moveTail 1) n [(s.arrive (w 0)).rxBuffer (s.arrive (w 0)).rxBufferTail] := by
  obtain ⟨bs, hg⟩ := arrive_grew (w 0) h
  obtain ⟨bs', hg'⟩ := arrive_grew (w 1) (hg.sound h)
  have hs' := hg'.sound (hg.sound h)
  have hle := hg'.length_le
  have hbyte : (s.arrive (w 0)).rxBuffer (s.arrive (w 0)).rxBufferTail = (s.arrive (w 0)).unread[0] := by
    rw [Sound.getElem, Nat.add_zero, Nat.mod_eq_of_lt (hg.sound h).tail_lt]
  have htake : ((s.arrive (w 0)).arrive (w 1)).unread.take 1 =
      [(s.arrive (w 0)).rxBuffer (s.arrive (w 0)).rxBufferTail] := by
    rw [hg'.take (by omega), hbyte, List.take_succ_eq_append_getElem (by omega), List.take_zero, List.nil_append]
  have htook := ((hg.trans hg').took h).trans (moveTail_took hs' (show 1 ≤ _ by omega))
  rw [htake] at htook
  exact htook

/-- A byte that is unread stays so while packets arrive. -/
theorem arrive_readable {s : UARTService} {n : Nat} (h : s.Sound n) (gap : Gap) (hr : s.isReadable = true) :
    0 < (s.arrive gap).unread.length := by
  obtain ⟨bs, hg⟩ := arrive_grew gap h
  exact (h.isReadable.mp hr).trans_le hg.length_le

/-- `getc` takes the byte it returns, and returns none only if none is unread. -/
theorem getc_took {s : UARTService} {n : Nat} (h : s.Sound n) (w : Nat → Gap) :
    Took s (s.getc w).2 n (s.getc w).1.toList ∧ ((s.getc w).1 = none → s.unread = []) := by
  unfold getc
  by_cases hr : s.isReadable = true
  · have htook := first_took h w (arrive_readable h (w 0) hr)
    simp only [hr, Bool.not_true, Bool.false_eq_true, if_false]
    exact ⟨htook, nofun⟩
  · have hempty : s.unread = [] := by
      have := mt h.isReadable.mpr hr
      exact List.eq_nil_of_length_eq_zero (by omega)
    rw [if_pos (by simpa using hr)]
    exact ⟨(Grew.refl h).took h, fun _ => hempty⟩

/-- `read` takes the bytes it returns: as many as were unread when it was called, or as many as it was asked for. -/
theorem read_took (len : Nat) : ∀ {s : UARTService} {n : Nat} (w : Nat → Gap), s.Sound n →
    Took s (s.read len w).2 n (s.read len w).1 ∧ (s.read len w).1.length ≤ len ∧
      ((s.read len w).1.length = len ∨ s.unread.length ≤ (s.read len w).1.length) := by
  induction len with
  | zero => exact fun w h => ⟨(Grew.refl h).took h, Nat.le_refl _, Or.inl rfl⟩
  | succ len ih =>
    intro s n w h
    obtain ⟨bs, hg⟩ := arrive_grew (w 0) h
    obtain ⟨htook, hnone⟩ := getc_took (hg.sound h) fun k => w (k + 1)
    have hle := hg.length_le
    obtain ⟨⟨c, s₁⟩, hc⟩ : ∃ r, (s.arrive (w 0)).getc (fun k => w (k + 1)) = r := ⟨_, rfl⟩
    rw [hc] at htook hnone
    have hstart := (hg.took h).trans htook
    unfold read
    rw [hc]
    cases c with
    | none =>
      have hempty := hnone rfl
      rw [hempty, List.length_nil] at hle
      exact ⟨hstart, Nat.zero_le _, Or.inr hle⟩
    | some c =>
      obtain ⟨⟨rest, s₂⟩, hrd⟩ : ∃ r, s₁.read len (fun k => w (k + 3)) = r := ⟨_, rfl⟩
      obtain ⟨hrest, hlen, hdone⟩ := ih (fun k => w (k + 3)) htook.sound
      rw [hrd] at hrest hlen hdone
      dsimp only
      rw [hrd]
      obtain ⟨bs', -, hun⟩ := hstart.unread
      have hcount := congrArg List.length hun
      simp only [List.length_append, List.nil_append, Option.toList, List.length_cons, List.length_nil] at hcount
      refine ⟨hstart.trans hrest, ?_, ?_⟩
      · rw [List.length_cons]
        exact Nat.succ_le_succ hlen
      · rw [List.length_cons]
        dsimp only at hdone ⊢
        omega

/-- The loop of `readUntil`: it finds the first delimiter among the unread bytes, or sees that there is none. The bytes
before the `k`-th were looked at already. -/
theorem findDelimeter_spec (delims : ManagedString) (fuel : Nat) : ∀ {s : UARTService} {n k : Nat} (w : Nat → Gap),
    s.Sound n → k ≤ s.unread.length → s.rxBufferSize ≤ fuel + k → (∀ b ∈ s.unread.take k, b ∉ delims) →
    ∀ r s', s.findDelimeter delims ((s.rxBufferTail + k) % s.rxBufferSize) w fuel = (r, s') →
      ∃ bs, Grew s s' bs ∧ (r = none → ∀ b ∈ s'.unread, b ∉ delims) ∧
        ∀ i, r = some i → ∃ j, ∃ hj : j < s'.unread.length, i = (s'.rxBufferTail + j) % s'.rxBufferSize ∧
          s'.unread[j] ∈ delims ∧ ∀ b ∈ s'.unread.take j, b ∉ delims := by
  induction fuel with
  | zero =>
    intro s n k w h hk hf
    have := h.unread_length
    have := h.size
    omega
  | succ fuel ih =>
    intro s n k w h hk hf hseen r s' heq
    obtain ⟨bs, hg⟩ := arrive_grew (w 0) h
    have hs₁ := hg.sound h
    have hle := hg.length_le
    rw [findDelimeter, ← hg.place k, ← hs₁.place_head] at heq
    by_cases hend : k = (s.arrive (w 0)).unread.length
    · -- all the unread bytes were looked at
      rw [if_neg (not_not.mpr ((hs₁.place_eq (by omega) (by omega)).mpr hend))] at heq
      obtain ⟨rfl, rfl⟩ := Prod.mk.inj heq
      refine ⟨bs, hg, fun _ b hb => hseen b ?_, nofun⟩
      rw [← hg.take hk, hend, List.take_length]
      exact hb
    · rw [if_pos (mt (hs₁.place_eq (by omega) (by omega)).mp hend)] at heq
      obtain ⟨bs', hg'⟩ := arrive_grew (w 1) hs₁
      have hs₂ := hg'.sound hs₁
      have hle' := hg'.length_le
      have hall := hg.trans hg'
      have hk₂ : k < ((s.arrive (w 0)).arrive (w 1)).unread.length := by omega
      have hbyte : ((s.arrive (w 0)).arrive (w 1)).rxBuffer
          (((s.arrive (w 0)).rxBufferTail + k) % (s.arrive (w 0)).rxBufferSize) =
            ((s.arrive (w 0)).arrive (w 1)).unread[k] := by
        rw [Sound.getElem, hg'.place k]
      have hseen₂ : ∀ b ∈ ((s.arrive (w 0)).arrive (w 1)).unread.take k, b ∉ delims := by
        rw [hall.take hk]
        exact hseen
      dsimp only at heq
      rw [hbyte] at heq
      by_cases hd : ((s.arrive (w 0)).arrive (w 1)).unread[k] ∈ delims
      · rw [if_pos (List.contains_iff_mem.mpr hd)] at heq
        obtain ⟨rfl, rfl⟩ := Prod.mk.inj heq
        refine ⟨_, hall, nofun, fun i hi => ⟨k, hk₂, ?_, hd, hseen₂⟩⟩
        rw [← Option.some.inj hi, hg'.place k]
      · rw [if_neg (mt List.contains_iff_mem.mp hd)] at heq
        have hnext : (((s.arrive (w 0)).rxBufferTail + k) % (s.arrive (w 0)).rxBufferSize + 1) %
            ((s.arrive (w 0)).arrive (w 1)).rxBufferSize =
              (((s.arrive (w 0)).arrive (w 1)).rxBufferTail + (k + 1)) % ((s.arrive (w 0)).arrive (w 1)).rxBufferSize := by
          rw [← hg'.place k, Nat.mod_add_mod, Nat.add_assoc]
        rw [hnext] at heq
        have hseen₃ : ∀ b ∈ ((s.arrive (w 0)).arrive (w 1)).unread.take (k + 1), b ∉ delims := by
          intro b hb
          rw [List.take_succ_eq_append_getElem hk₂, List.mem_append, List.mem_singleton] at hb
          rcases hb with hb | rfl
          · exact hseen₂ b hb
          · exact hd
        obtain ⟨bs'', hg'', hrest⟩ := ih (fun i => w (i + 2)) hs₂ hk₂ (by rw [hall.size]; omega) hseen₃ r s' heq
        exact ⟨_, hall.trans hg'', hrest⟩

/-- `circularCopy` copies the unread bytes from the `k`-th up to the `j`-th. -/
theorem circularCopy_spec (fuel : Nat) : ∀ {s : UARTService} {n k j : Nat} (w : Nat → Gap),
    s.Sound n → k ≤ j → j < s.unread.length → j - k ≤ fuel → ∀ r s',
    s.circularCopy ((s.rxBufferTail + k) % s.rxBufferSize) ((s.rxBufferTail + j) % s.rxBufferSize) w fuel = (r, s') →
      r = (s.unread.take j).drop k ∧ ∃ bs, Grew s s' bs := by
  induction fuel with
  | zero =>
    intro s n k j w h hkj hj hf r s' heq
    obtain rfl : k = j := by omega
    cases heq
    exact ⟨by rw [List.drop_of_length_le (by rw [List.length_take]; omega)], [], Grew.refl h⟩
  | succ fuel ih =>
    intro s n k j w h hkj hj hf r s' heq
    rw [circularCopy] at heq
    by_cases hend : k = j
    · subst hend
      rw [if_neg (not_not.mpr rfl)] at heq
      cases heq
      exact ⟨by rw [List.drop_of_length_le (by rw [List.length_take]; omega)], [], Grew.refl h⟩
    · rw [if_pos (mt (h.place_eq (by omega) (by omega)).mp hend)] at heq
      obtain ⟨bs, hg⟩ := arrive_grew (w 0) h
      have hs₁ := hg.sound h
      have hle := hg.length_le
      obtain ⟨⟨rest, s₂⟩, hrest⟩ : ∃ r, (s.arrive (w 0)).circularCopy
          (((s.rxBufferTail + k) % s.rxBufferSize + 1) % (s.arrive (w 0)).rxBufferSize)
          ((s.rxBufferTail + j) % s.rxBufferSize) (fun i => w (i + 1)) fuel = r := ⟨_, rfl⟩
      dsimp only at heq
      rw [hrest] at heq
      obtain ⟨rfl, rfl⟩ := Prod.mk.inj heq
      rw [hg.size, Nat.mod_add_mod, Nat.add_assoc, ← hg.place (k + 1), ← hg.place j] at hrest
      obtain ⟨hcopy, bs', hg'⟩ := ih (fun i => w (i + 1)) hs₁ (by omega) (by omega) (by omega) rest s₂ hrest
      refine ⟨?_, _, hg.trans hg'⟩
      have hk₁ : k < ((s.arrive (w 0)).unread.take j).length := by rw [List.length_take]; omega
      rw [← hg.take (show j ≤ s.unread.length by omega), List.drop_eq_getElem_cons hk₁, ← hcopy, ← hg.place k,
        List.getElem_take, Sound.getElem]

/-- The end of `readUntil` returns the unread bytes before the `j`-th, and takes that one, too. -/
theorem takeUntil_took {s : UARTService} {n j : Nat} (h : s.Sound n) (hj : j < s.unread.length) (w : Nat → Gap)
    (w' : Gap) :
    (s.takeUntil s.rxBufferTail ((s.rxBufferTail + j) % s.rxBufferSize) w w').1 = s.unread.take j ∧
      Took s (s.takeUntil s.rxBufferTail ((s.rxBufferTail + j) % s.rxBufferSize) w w').2 n
        (s.unread.take j ++ [s.unread[j]]) := by
  have hsize := h.size
  have hlen := h.unread_length
  have ht := h.tail_lt
  have hlocal : (if s.rxBufferTail > (s.rxBufferTail + j) % s.rxBufferSize then
      s.rxBufferSize - s.rxBufferTail + (s.rxBufferTail + j) % s.rxBufferSize
      else (s.rxBufferTail + j) % s.rxBufferSize - s.rxBufferTail) = j := by
    rw [mod_eq (by omega)]
    split <;> split <;> omega
  have hstart : (s.rxBufferTail + 0) % s.rxBufferSize = s.rxBufferTail := by
    rw [Nat.add_zero, Nat.mod_eq_of_lt ht]
  obtain ⟨⟨copy, s₁⟩, hcopy⟩ : ∃ r, s.circularCopy s.rxBufferTail ((s.rxBufferTail + j) % s.rxBufferSize) w
      s.rxBufferSize = r := ⟨_, rfl⟩
  obtain ⟨hc, bs, hg⟩ := circularCopy_spec s.rxBufferSize w h (Nat.zero_le j) hj (by omega) copy s₁
    (by rw [hstart]; exact hcopy)
  obtain ⟨bs', hg'⟩ := arrive_grew w' (hg.sound h)
  have hall := hg.trans hg'
  have hle := hall.length_le
  have htook := (hall.took h).trans (moveTail_took (hall.sound h) (show j + 1 ≤ _ by omega))
  have htext : copy.take j = s.unread.take j := by
    rw [hc, List.drop_zero, List.take_take, Nat.min_self]
  rw [hall.take hj, List.take_succ_eq_append_getElem hj, List.nil_append] at htook
  unfold takeUntil
  dsimp only
  rw [hlocal, hcopy]
  exact ⟨htext, htook⟩

/-- `readUntil` takes what it returns and the delimiter after it, or nothing where no delimiter is unread. -/
theorem readUntil_took {s : UARTService} {n : Nat} (h : s.Sound n) (delims : ManagedString) (w w' : Nat → Gap)
    (w'' : Gap) :
    (∃ d ∈ delims, Took s (s.readUntil delims w w' w'').2 n ((s.readUntil delims w w' w'').1 ++ [d]) ∧
        ∀ b ∈ (s.readUntil delims w w' w'').1, b ∉ delims) ∨
      Took s (s.readUntil delims w w' w'').2 n [] ∧ (s.readUntil delims w w' w'').1 = [] ∧
        ∀ b ∈ s.unread, b ∉ delims := by
  obtain ⟨⟨r, s₁⟩, hfind⟩ : ∃ r, s.findDelimeter delims s.rxBufferTail w s.rxBufferSize = r := ⟨_, rfl⟩
  have hfind' : s.findDelimeter delims ((s.rxBufferTail + 0) % s.rxBufferSize) w s.rxBufferSize = (r, s₁) := by
    rw [Nat.add_zero, Nat.mod_eq_of_lt h.tail_lt]
    exact hfind
  obtain ⟨bs, hg, hnone, hsome⟩ := findDelimeter_spec delims s.rxBufferSize w h (Nat.zero_le _) (Nat.le_refl _)
    (by simp) r s₁ hfind'
  unfold readUntil
  dsimp only
  rw [hfind]
  cases r with
  | none =>
    refine Or.inr ⟨hg.took h, rfl, fun b hb => hnone rfl b ?_⟩
    rw [hg.unread]
    exact List.mem_append_left _ hb
  | some i =>
    obtain ⟨j, hj, rfl, hd, hbefore⟩ := hsome i rfl
    obtain ⟨htext, htook⟩ := takeUntil_took (hg.sound h) hj w' w''
    rw [hg.tail] at htext htook
    have hall := (hg.took h).trans htook
    rw [← hg.tail] at htext hall ⊢
    rw [List.nil_append, ← htext] at hall
    refine Or.inl ⟨_, hd, hall, fun b hb => hbefore b ?_⟩
    rw [← htext]
    exact hb

/-! ## Runs -/

/-- A new ring is sound. -/
theorem new_sound {n : Nat} (hn : n ≤ 254) (m : Int) : (new n m).Sound n := by
  have hsize : (n + 1) % 2 ^ 8 = n + 1 := Nat.mod_eq_of_lt (by omega)
  refine ⟨hsize, ?_, ?_, rfl⟩
  · change 0 < (n + 1) % 2 ^ 8
    omega
  · change 0 < (n + 1) % 2 ^ 8
    omega

/-- Every call keeps the ring sound. -/
theorem perform_sound {s : UARTService} {n : Nat} (h : s.Sound n) (a : UARTAction) : (s.perform a).2.Sound n := by
  cases a with
  | packet data =>
    obtain ⟨bs, hg⟩ := onDataWritten_grew data h
    exact hg.sound h
  | getc w => exact (getc_took h w).1.sound
  | read len w => exact (read_took len w h).1.sound
  | readUntil delims w w' w'' =>
    rcases readUntil_took h delims w w' w'' with ⟨d, -, ht, -⟩ | ⟨ht, -⟩
    · exact ht.sound
    · exact ht.sound

/-- A run keeps the ring sound. -/
theorem run_sound (actions : List UARTAction) : ∀ {s : UARTService} {n : Nat}, s.Sound n → (s.run actions).Sound n := by
  induction actions with
  | nil => exact fun h => h
  | cons a actions ih => exact fun h => ih (perform_sound h a)

/-- The receive queue. After any packets and calls, in any interleaving, the bytes consumed so far with the unread ones
are the bytes accepted so far; a byte is accepted exactly when fewer than `n` are unread; `getc` and `read` take the bytes
they return off the front of the unread ones, and stop short only where none is left; and `readUntil` takes what it
returns and the delimiter after it, or nothing where no delimiter is unread. -/
theorem uart_fifo (n : Nat) (hn : n ≤ 254) (rxBuffHeadMatch : Int) (actions : List UARTAction) (s : UARTService)
    (hs : s = (new n rxBuffHeadMatch).run actions) :
    s.accepted = s.consumed ++ s.unread ∧
    (∀ c, (s.receive c).accepted = s.accepted ++ (if s.unread.length < n then [c] else []) ∧
      (s.receive c).unread = s.unread ++ (if s.unread.length < n then [c] else []) ∧
      (s.receive c).consumed = s.consumed) ∧
    (∀ w, Took s (s.getc w).2 n (s.getc w).1.toList ∧ ((s.getc w).1 = none → s.unread = [])) ∧
    (∀ len w, Took s (s.read len w).2 n (s.read len w).1 ∧ (s.read len w).1.length ≤ len ∧
      ((s.read len w).1.length = len ∨ s.unread.length ≤ (s.read len w).1.length)) ∧
    ∀ delims w w' w'',
      (∃ d ∈ delims, Took s (s.readUntil delims w w' w'').2 n ((s.readUntil delims w w' w'').1 ++ [d]) ∧
        ∀ b ∈ (s.readUntil delims w w' w'').1, b ∉ delims) ∨
      Took s (s.readUntil delims w w' w'').2 n [] ∧ (s.readUntil delims w w' w'').1 = [] ∧
        ∀ b ∈ s.unread, b ∉ delims := by
  have h : s.Sound n := hs ▸ run_sound actions (new_sound hn rxBuffHeadMatch)
  refine ⟨h.accepted, fun c => ?_, getc_took h, fun len w => read_took len w h, readUntil_took h⟩
  have hg := receive_grew h c
  exact ⟨hg.accepted, hg.unread, hg.consumed⟩

/-- `uart_fifo` for a ring for three bytes, a packet of four, and one `getc`. -/
theorem uart_fifo_three :
    let s := (new 3 (-1)).run [.packet [1, 2, 3, 4], .getc fun _ => []]
    s.accepted = s.consumed ++ s.unread ∧ s.consumed = [1] ∧ s.unread = [2, 3] :=
  ⟨(uart_fifo 3 (by decide) (-1) [.packet [1, 2, 3, 4], .getc fun _ => []] _ rfl).1, by decide, by decide⟩

end UARTService

end CodalMicrobit

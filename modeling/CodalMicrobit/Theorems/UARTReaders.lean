import CodalMicrobit.Theorems.UARTFifo
import CodalMicrobit.Bluetooth.UARTReaders

/-!
# Several fibers that wait for bytes

The event that a head match raises wakes every fiber that waits in `getc` or `read`, and `getc` does not look again whether
there is a byte before it takes one. As long as there is one whenever a fiber goes on in `getc`, the bytes that the fibers
got are those that were accepted, in order, and the tail stays behind the head.
-/

namespace CodalMicrobit

namespace UARTService

/-! ## What a fiber does in one turn -/

variable {s : UARTService} {n : Nat}

/-- Packets, and a new place for the head match. -/
theorem eventAfter_grew (h : s.Sound n) (len : Int) (w : Nat → Gap) : ∃ bs, Grew s (s.eventAfter len w) bs := by
  obtain ⟨bs, hg⟩ := arrive_grew (w 0) h
  have hs := hg.sound h
  have hmatch : Grew (s.arrive (w 0))
      { s.arrive (w 0) with rxBuffHeadMatch := (s.rxBufferHead + len).tmod s.rxBufferSize } [] :=
    ⟨rfl, rfl, hs.head_lt, rfl, (List.append_nil _).symm, (List.append_nil _).symm⟩
  obtain ⟨bs', hg'⟩ := arrive_grew (w 1) (hmatch.sound hs)
  exact ⟨_, (hg.trans hmatch).trans hg'⟩

/-- Where a byte is unread when it is loaded, `getc` takes the one it returns. -/
theorem takeByte_took (h : s.Sound n) (w : Nat → Gap) (hpos : 0 < (s.arrive (w 0)).unread.length) :
    Took s (s.takeByte w).2 n [(s.takeByte w).1] :=
  first_took h w hpos

/-- A `getc` takes the byte that it returns. -/
theorem getcSleep_took (h : s.Sound n) (w : Nat → Gap) : Took s (s.getcSleep w).2 n (s.getcSleep w).1.toList := by
  unfold getcSleep
  by_cases hr : s.isReadable = true
  · rw [if_pos hr]
    exact takeByte_took h w (arrive_readable h (w 0) hr)
  · rw [if_neg hr]
    obtain ⟨bs, hg⟩ := arrive_grew (w 0) h
    obtain ⟨bs', hg'⟩ := eventAfter_grew (hg.sound h) 1 fun k => w (k + 1)
    exact (hg.trans hg').took h

/-- The loop of `read` takes the bytes it stores, up to its end or its next wait. -/
theorem readBytes_took (left : Nat) : ∀ {s : UARTService} (w : Nat → Gap), s.Sound n →
    Took s (s.readBytes left w).2.2 n (s.readBytes left w).1 := by
  induction left with
  | zero => exact fun w h => (Grew.refl h).took h
  | succ left ih =>
    intro s w h
    have htook := getcSleep_took h w
    obtain ⟨⟨c, s₁⟩, hc⟩ : ∃ r, s.getcSleep w = r := ⟨_, rfl⟩
    rw [hc] at htook
    unfold readBytes
    rw [hc]
    cases c with
    | none => exact htook
    | some c => exact htook.trans (ih (fun k => w (k + 3)) htook.sound)

/-- While the unread bytes are counted, bytes may arrive. -/
theorem rxBufferedSize_grew (h : s.Sound n) (gap : Gap) : ∃ bs, Grew s (s.rxBufferedSize gap).2 bs := by
  unfold rxBufferedSize
  split
  · exact arrive_grew gap h
  · exact arrive_grew gap h

/-- A `read` takes the bytes that it returns. -/
theorem readSleep_took (h : s.Sound n) (len : Nat) (w : Nat → Gap) :
    Took s (s.readSleep len w).2.2 n (s.readSleep len w).1 := by
  obtain ⟨bs₁, hg₁⟩ := rxBufferedSize_grew h (w 0)
  have hs₁ := hg₁.sound h
  obtain ⟨bs₂, hg₂⟩ := arrive_grew (w 1) hs₁
  have hs₂ := hg₂.sound hs₁
  unfold readSleep
  dsimp only
  split
  · obtain ⟨bs₃, hg₃⟩ := rxBufferedSize_grew hs₂ (w 2)
    have hs₃ := hg₃.sound hs₂
    obtain ⟨bs₄, hg₄⟩ := arrive_grew (w 3) hs₃
    obtain ⟨bs₅, hg₅⟩ := eventAfter_grew (hg₄.sound hs₃)
      (len - (((s.rxBufferedSize (w 0)).2.arrive (w 1)).rxBufferedSize (w 2)).1) fun k => w (k + 4)
    exact ((((hg₁.trans hg₂).trans hg₃).trans hg₄).trans hg₅).took h
  · exact ((hg₁.trans hg₂).took h).trans (readBytes_took len (fun k => w (k + 2)) hs₂)

/-- There is a byte when a fiber that waited in `getc` loads it. -/
def ByteThere (s : UARTService) (w : Nat → Gap) : Blocked → Prop
  | .getc | .readGetc _ => (s.arrive (w 0)).isReadable = true
  | .read _ | .readUntil _ => True

/-- A fiber that goes on in `getc` or `read` takes the bytes it gets. -/
theorem resume_took (h : s.Sound n) (w : Nat → Gap) (w' : Gap) {b : Blocked} (hb : ∀ k, b ≠ .readUntil k)
    (hthere : s.ByteThere w b) : Took s (s.resume w w' b).2.2 n (s.resume w w' b).1 := by
  obtain ⟨bs, hg⟩ := arrive_grew (w 0) h
  cases b with
  | getc => exact takeByte_took h w ((hg.sound h).isReadable.mp hthere)
  | read len => exact readBytes_took len w h
  | readGetc left =>
    have htook := takeByte_took h w ((hg.sound h).isReadable.mp hthere)
    exact htook.trans (readBytes_took left (fun k => w (k + 2)) htook.sound)
  | readUntil k => exact absurd rfl (hb k)

end UARTService

namespace UARTReaders

/-- The bytes the fibers got, with the unread ones, are the bytes that were accepted: each was received and none was given
twice, and as many are unread as were accepted and not given. -/
def Accounted (s : UARTReaders) : Prop := s.returned ++ s.uart.unread = s.uart.accepted

/-- No call of `readUntil`, which drops the delimiter. -/
def Plain : ReaderStep → Prop
  | .async (.readUntil _ _ _ _) | .readUntil _ _ _ _ => False
  | .async _ | .getc _ | .read _ _ | .resume _ _ _ => True

/-- A fiber that goes on in `getc` finds a byte. -/
def FindsByte (s : UARTReaders) : ReaderStep → Prop
  | .resume i w _ => ∀ f, s.fibers[i]? = some f → f.woken = true → s.uart.ByteThere w f.blocked
  | .async _ | .getc _ | .read _ _ | .readUntil _ _ _ _ => True

/-- What every step keeps. -/
structure Kept (s : UARTReaders) (n : Nat) : Prop where
  sound : s.uart.Sound n
  returned : s.uart.consumed = s.returned
  plain : ∀ f ∈ s.fibers, ∀ k, f.blocked ≠ .readUntil k

variable {s : UARTReaders} {n : Nat}

/-- The invariant gives what the theorem says about a state. -/
theorem Kept.accounted (h : s.Kept n) : s.Accounted := by
  unfold Accounted
  rw [← h.returned, ← h.sound.accepted]

/-- A segment that took what it returns keeps the invariant. -/
theorem Kept.settle (h : s.Kept n) {segment : Segment} (htook : UARTService.Took s.uart segment.2.2 n segment.1)
    (hb : ∀ b ∈ segment.2.1, ∀ k, b ≠ .readUntil k) : (s.settle segment).Kept n where
  sound := htook.sound
  returned := by
    change segment.2.2.consumed = s.returned ++ segment.1
    rw [htook.consumed, h.returned]
  plain f hf := by
    rcases List.mem_append.mp hf with hf | hf
    · obtain ⟨g, hg, rfl⟩ := List.mem_map.mp hf
      exact h.plain g hg
    · obtain ⟨b, hmem, rfl⟩ := List.mem_map.mp hf
      exact hb b (by simpa using hmem)

/-- The loop of `read` does not wait for a delimiter. -/
theorem readBytes_blocked (left : Nat) : ∀ (s : UARTService) (w : Nat → Gap),
    ∀ b ∈ (s.readBytes left w).2.1, ∀ k, b ≠ .readUntil k := by
  induction left with
  | zero => exact fun s w b hb => nomatch hb
  | succ left ih =>
    intro s w b hb k
    unfold UARTService.readBytes at hb
    split at hb
    · obtain rfl := Option.some.inj hb
      nofun
    · exact ih _ _ b hb k

/-- `read` does not wait for a delimiter. -/
theorem readSleep_blocked (s : UARTService) (len : Nat) (w : Nat → Gap) :
    ∀ b ∈ (s.readSleep len w).2.1, ∀ k, b ≠ .readUntil k := by
  unfold UARTService.readSleep
  dsimp only
  split
  · intro b hb k
    obtain rfl := Option.some.inj hb
    nofun
  · exact readBytes_blocked len _ _

/-- A fiber that waited in `getc` or `read` does not wait in `readUntil` next. -/
theorem resume_blocked (s : UARTService) (w : Nat → Gap) (w' : Gap) (b : Blocked) :
    ∀ b' ∈ (s.resume w w' b).2.1, ∀ k, b' ≠ .readUntil k := by
  cases b with
  | getc => exact fun b' hb => nomatch hb
  | read len => exact readBytes_blocked len _ _
  | readGetc left => exact readBytes_blocked left _ _
  | readUntil k => exact fun b' hb => nomatch hb

/-- One step. -/
theorem Kept.step (h : s.Kept n) {a : ReaderStep} (hplain : Plain a) (hfinds : s.FindsByte a) : (s.step a).Kept n := by
  cases a with
  | async action =>
    have htook : UARTService.Took s.uart (s.uart.perform action).2 n (s.uart.perform action).1 := by
      cases action with
      | packet data =>
        obtain ⟨bs, hg⟩ := UARTService.onDataWritten_grew data h.sound
        exact hg.took h.sound
      | getc w => exact (UARTService.getc_took h.sound w).1
      | read len w => exact (UARTService.read_took len w h.sound).1
      | readUntil delimeters w w' w'' => exact hplain.elim
    have hsettle : (s.settle ((s.uart.perform action).1, none, (s.uart.perform action).2)).Kept n :=
      h.settle htook fun b hb => nomatch hb
    exact hsettle
  | getc w =>
    have htook := UARTService.getcSleep_took h.sound w
    unfold UARTReaders.step
    obtain ⟨⟨c, uart⟩, hc⟩ : ∃ r, s.uart.getcSleep w = r := ⟨_, rfl⟩
    rw [hc] at htook
    dsimp only
    rw [hc]
    cases c with
    | none =>
      refine h.settle htook fun b hb k => ?_
      obtain rfl := Option.some.inj hb
      nofun
    | some c => exact h.settle htook fun b hb => nomatch hb
  | read len w => exact h.settle (UARTService.readSleep_took h.sound len w) (readSleep_blocked s.uart len w)
  | readUntil delimeters w w' w'' => exact hplain.elim
  | resume i w w' =>
    unfold UARTReaders.step
    dsimp only
    split
    · exact h
    · rename_i f hf
      split
      · rename_i hwoken
        have hmem := List.mem_of_getElem? hf
        have hrest : Kept { s with fibers := s.fibers.eraseIdx i } n :=
          ⟨h.sound, h.returned, fun g hg => h.plain g (List.mem_of_mem_eraseIdx hg)⟩
        exact hrest.settle (UARTService.resume_took h.sound w w' (h.plain f hmem) (hfinds f hf hwoken))
          (resume_blocked s.uart w w' f.blocked)
      · exact h

/-- A fiber that goes on in `getc` and finds nothing gets a byte that was not received, if none arrives at this very time. -/
theorem Kept.not_accounted (h : s.Kept n) {i : Nat} {f : ReadFiber} (hf : s.fibers[i]? = some f) (hwoken : f.woken = true)
    (hb : f.blocked = .getc) (hempty : s.uart.unread = []) (w' : Gap) :
    ¬ (s.step (.resume i (fun _ => []) w')).Accounted := by
  obtain ⟨blocked, woken⟩ := f
  obtain rfl : blocked = .getc := hb
  obtain rfl : woken = true := hwoken
  have hstep : s.step (.resume i (fun _ => []) w') =
      { s with fibers := s.fibers.eraseIdx i }.settle (s.uart.resume (fun _ => []) w' .getc) := by
    unfold UARTReaders.step
    dsimp only
    rw [hf]
    rfl
  have haccounted := h.accounted
  unfold Accounted at haccounted ⊢
  rw [hstep]
  intro hafter
  have hlength := congrArg List.length hafter
  have hbefore := congrArg List.length haccounted
  change (s.returned ++ [s.uart.rxBuffer s.uart.rxBufferTail] ++ (s.uart.moveTail 1).unread).length =
    s.uart.accepted.length at hlength
  rw [hempty] at hbefore
  simp only [List.length_append, List.length_singleton, List.length_nil] at hlength hbefore
  omega

theorem run_append (s : UARTReaders) (before : List ReaderStep) (a : ReaderStep) :
    s.run (before ++ [a]) = (s.run before).step a := by
  unfold run
  rw [List.foldl_append]
  rfl

/-- The service after the constructor. -/
def new (rxBufferSize : Nat) (rxBuffHeadMatch : Int) : UARTReaders := { uart := .new rxBufferSize rxBuffHeadMatch }

/-- In every state of a run in which each fiber that goes on in `getc` finds a byte, the bytes are accounted for. -/
theorem accounted_of_findsByte (n : Nat) (hn : n ≤ 254) (rxBuffHeadMatch : Int) (steps : List ReaderStep)
    (hplain : ∀ a ∈ steps, Plain a)
    (hfinds : ∀ before a, before ++ [a] <+: steps → ((new n rxBuffHeadMatch).run before).FindsByte a) :
    ∀ before, before <+: steps → ((new n rxBuffHeadMatch).run before).Accounted := by
  suffices hkept : ∀ before, before <+: steps → ((new n rxBuffHeadMatch).run before).Kept n from
    fun before hb => (hkept before hb).accounted
  intro before
  induction before using List.reverseRecOn with
  | nil => exact fun _ => ⟨UARTService.new_sound hn rxBuffHeadMatch, rfl, fun f hf => absurd hf List.not_mem_nil⟩
  | append_singleton before a ih =>
    intro ha
    rw [run_append]
    exact (ih ((List.prefix_append before [a]).trans ha)).step (hplain a (ha.subset (by simp))) (hfinds before a ha)

instance (s : UARTService) (w : Nat → Gap) (b : Blocked) : Decidable (s.ByteThere w b) :=
  match b with
  | .getc | .readGetc _ => inferInstanceAs (Decidable (_ = true))
  | .read _ | .readUntil _ => isTrue trivial

instance (s : UARTReaders) (a : ReaderStep) : Decidable (s.FindsByte a) :=
  match a with
  | .resume _ _ _ => inferInstanceAs (Decidable (∀ f, _ = some f → _ → _))
  | .async _ | .getc _ | .read _ _ | .readUntil _ _ _ _ => isTrue trivial

/-- The condition on the turns, checked at each place of the run. -/
theorem findsByte_of_take {s : UARTReaders} {steps : List ReaderStep}
    (h : ∀ k : Fin steps.length, (s.run (steps.take k)).FindsByte steps[k]) :
    ∀ before a, before ++ [a] <+: steps → (s.run before).FindsByte a := by
  rintro before a ⟨rest, rfl⟩
  have hk := h ⟨before.length, by simp⟩
  simpa using hk

/-- Two fibers in `getc`, a packet of two bytes, which wakes both, and the turn of each. -/
def twoBytes : List ReaderStep :=
  [.getc fun _ => [], .getc fun _ => [], .async (.packet [7, 8]), .resume 0 (fun _ => []) [], .resume 0 (fun _ => []) []]

/-- Each of the two readers gets a byte. -/
theorem accounted_twoBytes :
    3 ≤ 254 ∧ (∀ a ∈ twoBytes, Plain a) ∧
      (∀ before a, before ++ [a] <+: twoBytes → ((new 3 (-1)).run before).FindsByte a) ∧
      ((new 3 (-1)).run twoBytes).returned = [7, 8] ∧ ((new 3 (-1)).run twoBytes).Accounted := by
  have hplain : ∀ a ∈ twoBytes, Plain a := by
    simp [twoBytes, Plain]
  have hfinds : ∀ before a, before ++ [a] <+: twoBytes → ((new 3 (-1)).run before).FindsByte a :=
    findsByte_of_take (by decide)
  exact ⟨by decide, hplain, hfinds, by decide,
    accounted_of_findsByte 3 (by decide) (-1) twoBytes hplain hfinds twoBytes (List.prefix_refl _)⟩

/-- Two fibers in `getc`, a packet of one byte, which wakes both, and the turn of each. -/
def twoReaders : List ReaderStep :=
  [.getc fun _ => [], .getc fun _ => [], .async (.packet [7]), .resume 0 (fun _ => []) [], .resume 0 (fun _ => []) []]

/-- The second one takes a byte that nobody sent, and three more are there for the next. -/
theorem accounted_twoReaders : ¬ ((new 3 (-1)).run twoReaders).Accounted := by
  unfold Accounted
  decide

end UARTReaders

end CodalMicrobit

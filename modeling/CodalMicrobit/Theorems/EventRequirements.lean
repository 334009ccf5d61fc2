import CodalMicrobit.Bluetooth.EventService

/-!
# Tidying up after a client

The idle callback decides by the offset of the enumeration whether there is anything to tidy up. Only reads move the offset,
so a client that registers requirements and reads none leaves its listeners behind; and a client that comes before the
callback has run finds the offset where the last one left it.
-/

namespace CodalMicrobit

namespace EventService

variable {Bus : Type} (M : EventModel Bus)

/-- Where an idle callback has run since the connection ended no listener of a client remains, and the first read of a
connection is answered with the first listener. -/
def Proper (s : EventService Bus) : Prop :=
  (s.connected = false → s.idled = true → M.owned s.messageBus = []) ∧
    (s.connected = true → s.readsInConnection = 0 →
      (s.onDataRead M).1 = ((M.elementAt s.messageBus 0).map reply).getD [])

/-- The condition on a step. A client does not connect before an idle callback has run since the reads of the last one,
unless their number is a multiple of 65536; and no idle callback without a connection finds requirements registered and
such a number of reads, none at all for example. -/
def Tidy (s : EventService Bus) : Step → Prop
  | .connect => s.connected = true ∨ s.reads % 2 ^ 16 = 0
  | .idle => s.connected = true ∨ s.requirements = 0 ∨ s.reads % 2 ^ 16 ≠ 0
  | _ => True

/-- Every step of the sequence meets the condition. -/
def TidySteps (s : EventService Bus) : List Step → Prop
  | [] => True
  | st :: steps => s.Tidy st ∧ TidySteps (s.step M st) steps

/-- What such steps keep. -/
structure Kept (s : EventService Bus) : Prop where
  /-- The offset is the number of reads since the last tidying, as far as 16 bits go. -/
  offset : s.messageBusListenerOffset.toNat = s.reads % 2 ^ 16
  /-- A listener of a client means a requirement registered since. -/
  owned : s.requirements = 0 → M.owned s.messageBus = []
  connection : s.connected = true → s.reads % 2 ^ 16 = s.readsInConnection % 2 ^ 16
  idled : s.idled = true → s.connected = false ∧ M.owned s.messageBus = []

variable {M} {s : EventService Bus}

/-- The invariant gives what the theorem says about a state. -/
theorem Kept.proper (h : s.Kept M) : s.Proper M := by
  refine ⟨fun _ hi => (h.idled hi).2, fun hc h0 => ?_⟩
  have hoff : s.messageBusListenerOffset.toNat = 0 := by
    rw [h.offset, h.connection hc, h0, Nat.zero_mod]
  rw [onDataRead, hoff]

/-- A connection keeps the invariant. -/
theorem Kept.connect (h : s.Kept M) (ht : s.Tidy .connect) : (s.step M .connect).Kept M := by
  by_cases hc : s.connected = true
  · simpa only [step, if_pos hc] using h
  · have hreads : s.reads % 2 ^ 16 = 0 := ht.resolve_left hc
    simp only [step, if_neg hc]
    exact ⟨h.offset, h.owned, fun _ => hreads, nofun⟩

/-- A disconnection keeps the invariant. -/
theorem Kept.disconnect (h : s.Kept M) : (s.step M .disconnect).Kept M :=
  ⟨h.offset, h.owned, nofun, fun hi => ⟨rfl, (h.idled hi).2⟩⟩

/-- A write of requirements keeps the invariant. -/
theorem Kept.write (h : s.Kept M) (data : List UInt8) : (s.step M (.write data)).Kept M := by
  by_cases hc : s.connected = true
  · have hni : ¬s.idled = true := fun hi => by simp [(h.idled hi).1] at hc
    simp only [step, if_pos hc]
    refine ⟨h.offset, fun h0 => ?_, h.connection, fun hi => absurd hi hni⟩
    -- no requirement in the data: the bus is as it was
    obtain ⟨hreq, hlen⟩ := Nat.add_eq_zero_iff.mp h0
    rw [onDataWritten, List.length_eq_zero_iff.mp hlen]
    exact h.owned hreq
  · simpa only [step, if_neg hc] using h

/-- A read keeps the invariant. -/
theorem Kept.read (h : s.Kept M) : (s.step M .read).Kept M := by
  by_cases hc : s.connected = true
  · simp only [step, if_pos hc]
    refine ⟨?_, h.owned, fun _ => ?_, h.idled⟩
    · simp only [onDataRead, UInt16.toNat_add, h.offset, UInt16.reduceToNat]
      omega
    · have := h.connection hc
      simp only [onDataRead]
      omega
  · simpa only [step, if_neg hc] using h

/-- An idle turn keeps the invariant. -/
theorem Kept.idle (hM : M.IgnoresAny) (h : s.Kept M) (ht : s.Tidy .idle) : (s.step M .idle).Kept M := by
  simp only [step, idleCallback]
  by_cases hc : s.connected = true
  · simpa only [hc, Bool.not_true, Bool.false_eq_true, if_false] using h
  · rw [Bool.not_eq_true] at hc
    simp only [hc, Bool.not_false, if_true]
    by_cases hoff : s.messageBusListenerOffset > 0
    · simp only [if_pos hoff]
      exact ⟨rfl, fun _ => hM _, nofun, fun _ => ⟨rfl, hM _⟩⟩
    · have h0 : s.messageBusListenerOffset.toNat = 0 := by
        rw [gt_iff_lt, UInt16.lt_iff_toNat_lt] at hoff
        exact Nat.eq_zero_of_not_pos hoff
      have hown : M.owned s.messageBus = [] := by
        rcases ht with ht | ht | ht
        · simp [hc] at ht
        · exact h.owned ht
        · exact absurd (h.offset.symm.trans h0) ht
      simp only [if_neg hoff]
      exact ⟨h0, fun _ => hown, nofun, fun _ => ⟨rfl, hown⟩⟩

/-- One step that meets the condition keeps the invariant. -/
theorem Kept.step (hM : M.IgnoresAny) (h : s.Kept M) (st : Step) (ht : s.Tidy st) : (s.step M st).Kept M := by
  cases st with
  | connect => exact h.connect ht
  | disconnect => exact h.disconnect
  | write data => exact h.write data
  | read => exact h.read
  | idle => exact h.idle hM ht

/-- A run whose steps meet the condition keeps the invariant. -/
theorem Kept.run (hM : M.IgnoresAny) (h : s.Kept M) (steps : List Step) (ht : s.TidySteps M steps) :
    (s.run M steps).Kept M := by
  induction steps generalizing s with
  | nil => exact h
  | cons st steps ih => exact ih (h.step hM st ht.1) ht.2

/-- A run that meets the condition meets it as far as it goes. -/
theorem TidySteps.take {steps : List Step} (h : s.TidySteps M steps) (n : Nat) : s.TidySteps M (steps.take n) := by
  induction steps generalizing s n with
  | nil => simpa using h
  | cons st steps ih =>
    cases n with
    | zero => trivial
    | succ n => exact ⟨h.1, ih h.2 n⟩

/-- The event service tidies up. In every run whose steps all meet the condition, from a bus without listeners of a client:
after every step, where an idle callback has run since the connection ended no listener of a client remains, and a
connection that has not read yet will be answered from the first listener on. -/
theorem requirements_tidied {Bus : Type} (M : EventModel Bus) (hM : M.IgnoresAny) (messageBus : Bus)
    (hbus : M.owned messageBus = []) (steps : List Step) (ht : ({ messageBus } : EventService Bus).TidySteps M steps)
    (n : Nat) : (({ messageBus } : EventService Bus).run M (steps.take n)).Proper M := by
  have h : ({ messageBus } : EventService Bus).Kept M := ⟨rfl, fun _ => hbus, nofun, nofun⟩
  exact (h.run hM (steps.take n) (ht.take n)).proper

/-- A bus that is a list of listeners, each marked as the service's or someone else's. -/
def listBus : EventModel (List (Bool × MicroBitListener)) where
  listen b id value := b ++ [(true, ⟨id, value⟩)]
  ignore b id value := b.filter fun l =>
    !(l.1 && (id == MICROBIT_ID_ANY || l.2.id == id) && (value == MICROBIT_EVT_ANY || l.2.value == value))
  elementAt b n := b[n]?.map (·.2)
  owned b := (b.filter (·.1)).map (·.2)

/-- The list of listeners ignores the wildcard event. -/
theorem listBus_ignoresAny : listBus.IgnoresAny := by
  intro b
  have hf : (b.filter fun l => !(l.1 && (MICROBIT_ID_ANY == MICROBIT_ID_ANY || l.2.id == MICROBIT_ID_ANY) &&
      (MICROBIT_EVT_ANY == MICROBIT_EVT_ANY || l.2.value == MICROBIT_EVT_ANY))).filter (·.1) = [] := by
    rw [List.filter_filter, List.filter_eq_nil_iff]
    intro l _
    cases h : l.1 <;> simp
  simp only [listBus, hf, List.map_nil]

/-- `requirements_tidied` for a client that registers one requirement and reads one. -/
theorem requirements_tidied_one :
    (({ messageBus := [(false, ⟨5, 7⟩)] } : EventService _).run listBus
      ([.connect, .write [9, 0, 1, 0], .read, .disconnect, .idle].take 5)).Proper listBus :=
  requirements_tidied listBus listBus_ignoresAny [(false, ⟨5, 7⟩)] rfl
    [.connect, .write [9, 0, 1, 0], .read, .disconnect, .idle]
    ⟨Or.inr rfl, trivial, trivial, trivial, Or.inr (Or.inr (by decide)), trivial⟩ 5

/-- A client that registers a requirement and reads none leaves its listener behind, and one that connects before an idle
callback has run is answered from the second listener on. -/
theorem untidied_requirements :
    listBus.IgnoresAny ∧
      ¬((({ messageBus := [(false, ⟨5, 7⟩)] } : EventService _).run listBus
          [.connect, .write [9, 0, 1, 0], .disconnect, .idle]).Proper listBus ∨
        (({ messageBus := [(false, ⟨5, 7⟩)] } : EventService _).run listBus
          [.connect, .read, .disconnect, .connect]).Proper listBus) := by
  refine ⟨listBus_ignoresAny, ?_⟩
  rintro (h | h)
  · exact absurd (h.1 rfl rfl) (by decide)
  · exact absurd (h.2 rfl rfl) (by decide)

end EventService

end CodalMicrobit

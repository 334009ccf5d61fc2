import CodalMicrobit.MicroBitThermometer

/-!
# The sample period

The time of the next sample is cut to 32 bits and then compared with a clock of 64. Where nothing is cut off, samples are a period
apart. After 49 days the time kept has always passed, and every call takes a sample.
-/

namespace CodalMicrobit

namespace MicroBitThermometer

/-- A sample is due a period after the last one. -/
def due (period : UInt32) (l : SampleCall) : Nat := l.taken.toNat + period.toNat

/-- Consecutive samples are a period apart, from the end of the one to the beginning of the other. -/
def Apart (period : UInt32) (l : List SampleCall) : Prop := l.IsChain fun a b => due period a ≤ b.asked.toNat

/-- System time does not go back from call to call. -/
def Clocked (calls : List SampleCall) : Prop := calls.Pairwise fun a b => a.taken ≤ b.asked

instance (calls : List SampleCall) : Decidable (Clocked calls) :=
  inferInstanceAs (Decidable (calls.Pairwise fun a b => a.taken ≤ b.asked))

/-- The condition on a run, behind a last sample: a call that comes before a sample is due finds the time it is due within 32 bits. -/
def InTime (s : MicroBitThermometer) (last : Option SampleCall) : List SampleCall → Prop
  | [] => True
  | c :: calls =>
    (∀ l, last = some l → due s.samplePeriod l ≤ c.asked.toNat ∨ due s.samplePeriod l < 2 ^ 32) ∧
      InTime (s.updateSample c).1 (if s.isSampleNeeded c.asked then some c else last) calls

variable {s : MicroBitThermometer} {c l : SampleCall} {calls : List SampleCall}

/-- The state that a sample leaves. -/
structure Sampled (s : MicroBitThermometer) (l : SampleCall) : Prop where
  sampleTime : s.sampleTime.toNat = due s.samplePeriod l % 2 ^ 32

/-- A sample is needed from its time on. -/
theorem isSampleNeeded_iff (s : MicroBitThermometer) (now : UInt64) :
    s.isSampleNeeded now = true ↔ s.sampleTime.toNat ≤ now.toNat := by
  rw [isSampleNeeded, decide_eq_true_iff, ge_iff_le, UInt64.le_iff_toNat_le, UInt32.toNat_toUInt64]

/-- The period stays. -/
theorem updateSample_samplePeriod (s : MicroBitThermometer) (c : SampleCall) : (s.updateSample c).1.samplePeriod = s.samplePeriod := by
  unfold updateSample
  split <;> rfl

/-- A sample that is needed is taken. -/
theorem updateSample_of_needed (h : s.isSampleNeeded c.asked = true) : Sampled (s.updateSample c).1 c := by
  refine ⟨?_⟩
  rw [updateSample_samplePeriod, updateSample, if_pos h, due]
  change (c.taken + s.samplePeriod.toUInt64).toUInt32.toNat = _
  rw [UInt64.toNat_toUInt32, UInt64.toNat_add, UInt32.toNat_toUInt64]
  exact Nat.mod_mod_of_dvd _ (Nat.pow_dvd_pow 2 (by decide))

/-- A sample that is not needed is not taken. -/
theorem updateSample_of_not_needed (h : ¬ s.isSampleNeeded c.asked = true) : (s.updateSample c).1 = s := by
  rw [updateSample, if_neg h]

/-- A call that finds a sample needed is among the samples. -/
theorem samples_of_needed (h : s.isSampleNeeded c.asked = true) :
    s.samples (c :: calls) = c :: (s.updateSample c).1.samples calls := by
  rw [samples, updateSample, if_pos h]
  rfl

/-- A call that finds none needed is not. -/
theorem samples_of_not_needed (h : ¬ s.isSampleNeeded c.asked = true) : s.samples (c :: calls) = s.samples calls := by
  rw [samples, updateSample, if_neg h]
  rfl

/-- A time that is cut off lies before the last sample, so that every call takes one. -/
theorem Sampled.needed_of_cut (h : Sampled s l) (hle : l.taken ≤ c.asked) (hcut : 2 ^ 32 ≤ due s.samplePeriod l) :
    s.isSampleNeeded c.asked = true := by
  have hperiod := s.samplePeriod.toNat_lt
  rw [UInt64.le_iff_toNat_le] at hle
  rw [isSampleNeeded_iff, h.sampleTime, Nat.mod_eq_sub_mod hcut]
  refine Nat.le_trans (Nat.mod_le _ _) ?_
  rw [due] at hcut ⊢
  omega

/-- Where nothing is cut off, a call takes a sample only when it is due. -/
theorem Sampled.due_of_needed (h : Sampled s l) (hlt : due s.samplePeriod l < 2 ^ 32)
    (hneeded : s.isSampleNeeded c.asked = true) : due s.samplePeriod l ≤ c.asked.toNat := by
  rwa [isSampleNeeded_iff, h.sampleTime, Nat.mod_eq_of_lt hlt] at hneeded

/-- Behind a sample, the samples of a run are apart exactly if its calls are in time. -/
theorem Sampled.apart_iff (h : Sampled s l) (hclock : Clocked (l :: calls)) :
    Apart s.samplePeriod (l :: s.samples calls) ↔ s.InTime (some l) calls := by
  induction calls generalizing s l with
  | nil => exact iff_of_true (List.isChain_singleton l) trivial
  | cons c calls ih =>
    obtain ⟨hl, hrest⟩ := List.pairwise_cons.mp hclock
    obtain ⟨hc, htail⟩ := List.pairwise_cons.mp hrest
    have hle : l.taken ≤ c.asked := hl c List.mem_cons_self
    simp only [InTime, Option.some.injEq, forall_eq']
    by_cases hneeded : s.isSampleNeeded c.asked = true
    · have hstep := ih (updateSample_of_needed hneeded) hrest
      rw [updateSample_samplePeriod] at hstep
      rw [samples_of_needed hneeded, if_pos hneeded, Apart, List.isChain_cons_cons, ← hstep]
      refine and_congr_left fun _ => ⟨Or.inl, fun hor => hor.elim id fun hlt => h.due_of_needed hlt hneeded⟩
    · rw [samples_of_not_needed hneeded, if_neg hneeded, updateSample_of_not_needed hneeded]
      have hlt : due s.samplePeriod l < 2 ^ 32 := by
        by_contra hcut
        exact hneeded (h.needed_of_cut hle (Nat.le_of_not_lt hcut))
      have hstep := ih h (List.pairwise_cons.mpr ⟨fun x hx => hl x (List.mem_cons_of_mem c hx), htail⟩)
      exact hstep.trans ⟨fun hin => ⟨Or.inr hlt, hin⟩, And.right⟩

/-- The samples of a run are a period apart exactly if no call comes before a sample is due at a time that is cut off. -/
theorem samples_apart_iff (s : MicroBitThermometer) (calls : List SampleCall) (hclock : Clocked calls) :
    Apart s.samplePeriod (s.samples calls) ↔ s.InTime none calls := by
  induction calls generalizing s with
  | nil => exact iff_of_true List.isChain_nil trivial
  | cons c calls ih =>
    rw [InTime]
    by_cases hneeded : s.isSampleNeeded c.asked = true
    · have hstep := (updateSample_of_needed hneeded).apart_iff hclock
      rw [updateSample_samplePeriod] at hstep
      rw [samples_of_needed hneeded, if_pos hneeded, hstep]
      exact ⟨fun hin => ⟨nofun, hin⟩, And.right⟩
    · rw [samples_of_not_needed hneeded, if_neg hneeded, updateSample_of_not_needed hneeded]
      refine (ih s (List.pairwise_cons.mp hclock).2).trans ⟨fun hin => ⟨nofun, hin⟩, And.right⟩

/-- A call during which the clock does not move. -/
def callAt (now : UInt64) : SampleCall := { asked := now, taken := now, ordered := UInt64.le_refl now }

/-- A call 500 ms after the first takes no sample, and one a period after it takes the second. -/
theorem samples_apart_start :
    samples {} [callAt 1000, callAt 1500, callAt 2000] = [callAt 1000, callAt 2000] ∧
      Apart MICROBIT_THERMOMETER_PERIOD (samples {} [callAt 1000, callAt 1500, callAt 2000]) := by
  have hsamples : samples {} [callAt 1000, callAt 1500, callAt 2000] = [callAt 1000, callAt 2000] := by
    rw [samples_of_needed (by decide), samples_of_not_needed (by decide), samples_of_needed (by decide)]
    rfl
  refine ⟨hsamples, (samples_apart_iff {} [callAt 1000, callAt 1500, callAt 2000] (by decide)).mpr ⟨nofun, ?_, ?_, trivial⟩⟩
  · exact fun l hl => Or.inr (by rw [← Option.some.inj hl]; decide)
  · exact fun l hl => Or.inl (by rw [← Option.some.inj hl]; decide)

/-- After 49 days two calls take a sample each, though they are 100 ms apart. -/
theorem samples_after_49_days : Clocked [callAt 4294966800, callAt 4294966900] ∧
    ¬ Apart MICROBIT_THERMOMETER_PERIOD (samples {} [callAt 4294966800, callAt 4294966900]) := by
  have hsamples : samples {} [callAt 4294966800, callAt 4294966900] = [callAt 4294966800, callAt 4294966900] := by
    rw [samples_of_needed (by decide), samples_of_needed (by decide)]
    rfl
  refine ⟨by decide, fun h => ?_⟩
  rw [hsamples, Apart, List.isChain_cons_cons] at h
  exact absurd h.1 (by decide)

end MicroBitThermometer

end CodalMicrobit
